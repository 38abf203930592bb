import ButCore.Bls.BatchVerifier
import ButCore.Llmq.DkgSession

/-!
# Batched verification of DKG messages

`BatchVerifyMessageSigs` checks one aggregate over all messages of a batch and, when that fails,
names the peers to punish; `ProcessPendingMessageBatch` hands the messages of all other peers to
the session.
-/
namespace ButCore.Llmq.Dkg

variable {NodeId Msg State ProTxHash Hash Sig PubKey : Type}

/-- What the batch handler uses of a session and of its message type. The `retBan` reference of
`PreVerifyMessage` is the second component. A message of a non-member never passes. -/
structure Session (Msg ProTxHash Hash Sig PubKey : Type) where
  proTxHash : Msg → ProTxHash
  sig : Msg → Sig
  getSignHash : Msg → Hash
  serializeHash : Msg → Hash
  pubKeyOperator : ProTxHash → Option PubKey
  preVerifyMessage : Hash → Msg → Bool × Bool
  member_of_preVerify : ∀ hash msg, (preVerifyMessage hash msg).1 = true →
    (pubKeyOperator (proTxHash msg)).isSome = true

section

variable [DecidableEq NodeId] [DecidableEq Hash]
variable (bls : Bls.Scheme Hash Sig PubKey) (session : Session Msg ProTxHash Hash Sig PubKey)

def validMessage (msg : Msg) : Bool :=
  match session.pubKeyOperator (session.proTxHash msg) with
  | none => false
  | some pubKey => bls.verifyInsecure (session.sig msg) pubKey (session.getSignHash msg)

structure Aggregated (NodeId Hash Sig PubKey : Type) where
  ret : Finset NodeId
  members : List (Bls.Message NodeId Hash Sig PubKey)
  revertToSingleVerification : Bool

/-- The first loop: it stops at a sign hash that it has met before. -/
def aggregate (ret : Finset NodeId) (members : List (Bls.Message NodeId Hash Sig PubKey))
    (messageHashesSet : Finset Hash) :
    List (NodeId × Msg) → Aggregated NodeId Hash Sig PubKey
  | [] => ⟨ret, members, false⟩
  | (nodeId, msg) :: rest =>
    match session.pubKeyOperator (session.proTxHash msg) with
    | none => aggregate (insert nodeId ret) members messageHashesSet rest
    | some pubKey =>
      let msgHash := session.getSignHash msg
      if msgHash ∈ messageHashesSet then ⟨ret, members, true⟩
      else aggregate ret (members ++ [⟨nodeId, msgHash, session.sig msg, pubKey⟩])
        (insert msgHash messageHashesSet) rest

/-- The loop that asks whether all messages come from one peer. Its flag `first` is cleared only
in the branch that is not taken while it is set. -/
def nodeIdsLoop (first : Bool) (firstNodeId : Option NodeId) :
    List (NodeId × Msg) → Option NodeId × Bool
  | [] => (firstNodeId, true)
  | (nodeId, _) :: rest =>
    if first then nodeIdsLoop first (some nodeId) rest
    else if some nodeId ≠ firstNodeId then (firstNodeId, false)
    else nodeIdsLoop false firstNodeId rest

def verifySingle (ret : Finset NodeId) : List (NodeId × Msg) → Finset NodeId
  | [] => ret
  | (nodeId, msg) :: rest =>
    if nodeId ∈ ret then verifySingle ret rest
    else if validMessage bls session msg then verifySingle ret rest
    else verifySingle (insert nodeId ret) rest

def batchVerifyMessageSigs (messages : List (NodeId × Msg)) : Finset NodeId :=
  if messages.isEmpty then ∅
  else
    let agg := aggregate session ∅ [] ∅ messages
    if agg.revertToSingleVerification then verifySingle bls session agg.ret messages
    else if bls.verifyInsecureAggregated agg.members then agg.ret
    else
      match nodeIdsLoop true none messages with
      | (some firstNodeId, true) => insert firstNodeId agg.ret
      | _ => verifySingle bls session agg.ret messages

def preverifiedMessages (msgs : List (NodeId × Option Msg)) : List (NodeId × Msg) :=
  msgs.filterMap fun p => p.2.bind fun msg =>
    if (session.preVerifyMessage (session.serializeHash msg) msg).1 then some (p.1, msg) else none

def misbehavingBefore (msgs : List (NodeId × Option Msg)) : List NodeId :=
  msgs.filterMap fun p =>
    match p.2 with
    | none => some p.1
    | some msg =>
      let pre := session.preVerifyMessage (session.serializeHash msg) msg
      if !pre.1 && pre.2 then some p.1 else none

structure BatchResult (NodeId Msg State : Type) where
  state : State
  received : List (NodeId × Msg)
  misbehaving : List NodeId

/-- The last loop. A peer whose message `ReceiveMessage` bans is skipped from then on. -/
def receiveLoop (receiveMessage : State → Hash → Msg → State × Bool) (badNodes : Finset NodeId)
    (state : State) : List (NodeId × Msg) → BatchResult NodeId Msg State
  | [] => ⟨state, [], []⟩
  | (nodeId, msg) :: rest =>
    if nodeId ∈ badNodes then receiveLoop receiveMessage badNodes state rest
    else
      let (state', ban) := receiveMessage state (session.serializeHash msg) msg
      let result := receiveLoop receiveMessage
        (if ban then insert nodeId badNodes else badNodes) state' rest
      { result with
        received := (nodeId, msg) :: result.received
        misbehaving := if ban then nodeId :: result.misbehaving else result.misbehaving }

/-- The peers of `badNodes` are punished as well; their order is not modelled. -/
def processPendingMessageBatch (receiveMessage : State → Hash → Msg → State × Bool)
    (state : State) (msgs : List (NodeId × Option Msg)) : BatchResult NodeId Msg State :=
  let preverified := preverifiedMessages session msgs
  let result := receiveLoop session receiveMessage
    (batchVerifyMessageSigs bls session preverified) state preverified
  { result with misbehaving := misbehavingBefore session msgs ++ result.misbehaving }

variable {bls} {session}
variable {p : NodeId × Msg}

omit [DecidableEq NodeId] [DecidableEq Hash] in
theorem member_of_preverified {msgs : List (NodeId × Option Msg)}
    (hp : p ∈ preverifiedMessages session msgs) :
    ∃ pubKey, session.pubKeyOperator (session.proTxHash p.2) = some pubKey := by
  obtain ⟨⟨nodeId, omsg⟩, -, hbind⟩ := List.mem_filterMap.mp hp
  obtain ⟨msg, -, hif⟩ := Option.bind_eq_some_iff.mp hbind
  split_ifs at hif with hpre
  cases hif
  exact Option.isSome_iff_exists.mp (session.member_of_preVerify _ _ hpre)

omit [DecidableEq Hash] in
theorem mem_verifySingle (ret : Finset NodeId) (messages : List (NodeId × Msg)) (n : NodeId) :
    n ∈ verifySingle bls session ret messages ↔
      n ∈ ret ∨ ∃ p ∈ messages, p.1 = n ∧ validMessage bls session p.2 = false := by
  induction messages generalizing ret with
  | nil => simp [verifySingle]
  | cons p messages ih =>
    obtain ⟨nodeId, msg⟩ := p
    rw [verifySingle, List.exists_mem_cons_iff]
    split_ifs with hret hvalid
    · rw [ih]
      constructor
      · rintro (h | h)
        · exact Or.inl h
        · exact Or.inr (Or.inr h)
      · rintro (h | ⟨rfl, -⟩ | h)
        · exact Or.inl h
        · exact Or.inl hret
        · exact Or.inr h
    · rw [ih, hvalid]
      simp
    · rw [ih, Finset.mem_insert, Bool.eq_false_iff.mpr hvalid, @eq_comm NodeId nodeId]
      simp only [and_true, or_assoc, or_left_comm]

omit [DecidableEq Hash] in
theorem nodeIdsLoop_true (f : Option NodeId) (messages : List (NodeId × Msg)) :
    nodeIdsLoop true f messages = ((messages.getLast?.map Prod.fst).or f, true) := by
  induction messages generalizing f with
  | nil => rfl
  | cons p messages ih =>
    obtain ⟨nodeId, msg⟩ := p
    rw [nodeIdsLoop, if_pos rfl, ih]
    cases messages with
    | nil => rfl
    | cons q messages =>
      rw [List.getLast?_cons_cons, List.getLast?_eq_some_getLast (List.cons_ne_nil q messages)]
      rfl

def signHashes (session : Session Msg ProTxHash Hash Sig PubKey)
    (messages : List (NodeId × Msg)) : List Hash :=
  messages.map fun p => session.getSignHash p.2

variable {messages : List (NodeId × Msg)}
variable (bls) in
/-- What the aggregation loop yields on messages of known members: it reverts exactly at a
repeated sign hash, and otherwise the aggregate covers every message. -/
theorem aggregate_spec (ret : Finset NodeId) (members : List (Bls.Message NodeId Hash Sig PubKey))
    (hashes : Finset Hash)
    (hknown : ∀ p ∈ messages, ∃ pubKey, session.pubKeyOperator (session.proTxHash p.2) = some pubKey) :
    (aggregate session ret members hashes messages).ret = ret ∧
    ((aggregate session ret members hashes messages).revertToSingleVerification = false ↔
      (signHashes session messages).Nodup ∧ ∀ h ∈ signHashes session messages, h ∉ hashes) ∧
    ((aggregate session ret members hashes messages).revertToSingleVerification = false →
      bls.verifyInsecureAggregated (aggregate session ret members hashes messages).members =
        (bls.verifyInsecureAggregated members &&
          messages.all fun p => validMessage bls session p.2)) := by
  induction messages generalizing members hashes with
  | nil => simp [aggregate, signHashes]
  | cons p messages ih =>
    obtain ⟨nodeId, msg⟩ := p
    obtain ⟨pubKey, hpub⟩ := hknown (nodeId, msg) List.mem_cons_self
    have hrest := fun q hq => hknown q (List.mem_cons_of_mem _ hq)
    simp only [aggregate, hpub, signHashes, List.map_cons, List.nodup_cons, List.forall_mem_cons,
      List.all_cons]
    split_ifs with hdup
    · refine ⟨rfl, ?_, ?_⟩
      · refine iff_of_false not_false ?_
        rintro ⟨-, hfresh, -⟩
        exact hfresh hdup
      · intro h
        cases h
    · obtain ⟨hret, hrevert, hmembers⟩ := ih
        (members ++ [⟨nodeId, session.getSignHash msg, session.sig msg, pubKey⟩])
        (insert (session.getSignHash msg) hashes) hrest
      refine ⟨hret, hrevert.trans ?_, fun h => (hmembers h).trans ?_⟩
      · simp only [signHashes, Finset.mem_insert, not_or]
        constructor
        · rintro ⟨hnodup, hfresh⟩
          exact ⟨⟨fun hmem => (hfresh _ hmem).1 rfl, hnodup⟩, hdup, fun h hmem => (hfresh h hmem).2⟩
        · rintro ⟨⟨hnotmem, hnodup⟩, -, hfresh⟩
          exact ⟨hnodup, fun h hmem => ⟨fun heq => hnotmem (heq ▸ hmem), hfresh h hmem⟩⟩
      · simp [Bls.Scheme.verifyInsecureAggregated, Bls.Scheme.validMessage, validMessage, hpub,
          Bool.and_assoc]

variable (bls) in
theorem mem_batchVerifyMessageSigs
    (hknown : ∀ p ∈ messages, ∃ pubKey, session.pubKeyOperator (session.proTxHash p.2) = some pubKey)
    (n : NodeId) :
    n ∈ batchVerifyMessageSigs bls session messages ↔
      if (signHashes session messages).Nodup then
        (∃ p ∈ messages, validMessage bls session p.2 = false) ∧
          messages.getLast?.map Prod.fst = some n
      else ∃ p ∈ messages, p.1 = n ∧ validMessage bls session p.2 = false := by
  by_cases hempty : messages = []
  · subst hempty
    simp [batchVerifyMessageSigs, signHashes]
  obtain ⟨hret, hrevert, hmembers⟩ := aggregate_spec bls ∅ [] ∅ hknown
  rw [batchVerifyMessageSigs, if_neg (by simpa using hempty)]
  dsimp only
  rw [hret]
  by_cases hnodup : (signHashes session messages).Nodup
  · have hno := hrevert.mpr ⟨hnodup, fun h _ => Finset.notMem_empty h⟩
    have hlast : nodeIdsLoop true none messages =
        (some (messages.getLast hempty).1, true) := by
      rw [nodeIdsLoop_true, List.getLast?_eq_some_getLast hempty]
      rfl
    rw [if_neg (by rw [hno]; exact Bool.false_ne_true), hmembers hno, if_pos hnodup, hlast,
      List.getLast?_eq_some_getLast hempty]
    simp only [Bls.Scheme.verifyInsecureAggregated, List.all_nil, Bool.true_and, Option.map_some,
      Option.some.injEq]
    split_ifs with hall
    · rw [List.all_eq_true] at hall
      refine iff_of_false (Finset.notMem_empty n) ?_
      rintro ⟨⟨p, hp, hfalse⟩, -⟩
      rw [hall p hp] at hfalse
      cases hfalse
    · have hinvalid : ∃ p ∈ messages, validMessage bls session p.2 = false := by
        simpa using hall
      rw [Finset.insert_empty, Finset.mem_singleton, eq_comm]
      exact (and_iff_right hinvalid).symm
  · have hyes : (aggregate session ∅ [] ∅ messages).revertToSingleVerification = true := by
      rw [← Bool.not_eq_false, hrevert]
      exact fun h => hnodup h.1
    rw [if_pos hyes, if_neg hnodup, mem_verifySingle]
    simp

variable {badNodes : Finset NodeId}

omit [DecidableEq Hash] in
theorem mem_of_mem_received {receiveMessage : State → Hash → Msg → State × Bool} {state : State}
    (hp : p ∈ (receiveLoop session receiveMessage badNodes state messages).received) :
    p ∈ messages ∧ p.1 ∉ badNodes := by
  induction messages generalizing badNodes state with
  | nil => exact absurd hp List.not_mem_nil
  | cons q messages ih =>
    obtain ⟨nodeId, msg⟩ := q
    rw [receiveLoop] at hp
    split_ifs at hp with hbad
    · exact ⟨List.mem_cons_of_mem _ (ih hp).1, (ih hp).2⟩
    · rcases List.mem_cons.mp hp with rfl | hp
      · exact ⟨List.mem_cons_self, hbad⟩
      · obtain ⟨hmem, hgood⟩ := ih hp
        refine ⟨List.mem_cons_of_mem _ hmem, fun h => hgood ?_⟩
        split_ifs
        · exact Finset.mem_insert_of_mem h
        · exact h

omit [DecidableEq Hash] in
theorem mem_received_of_no_ban (hp : p ∈ messages) (hgood : p.1 ∉ badNodes) :
    p ∈ (receiveLoop session (fun (_ : Unit) _ _ => ((), false)) badNodes () messages).received := by
  induction messages with
  | nil => exact absurd hp List.not_mem_nil
  | cons q messages ih =>
    obtain ⟨nodeId, msg⟩ := q
    rw [receiveLoop]
    rcases List.mem_cons.mp hp with rfl | hp
    · rw [if_neg hgood]
      exact List.mem_cons_self
    · split_ifs
      · exact ih hp
      · exact List.mem_cons_of_mem _ (ih hp)

variable (bls session) in
/-- Whatever `ReceiveMessage` answers, it only sees valid messages, and only peers that sent an
invalid message are reported. -/
def BatchSound (msgs : List (NodeId × Option Msg)) : Prop :=
  (∀ (State : Type) (receiveMessage : State → Hash → Msg → State × Bool) (state : State),
    ∀ p ∈ (processPendingMessageBatch bls session receiveMessage state msgs).received,
      validMessage bls session p.2 = true) ∧
  ∀ n ∈ batchVerifyMessageSigs bls session (preverifiedMessages session msgs),
    ∃ p ∈ preverifiedMessages session msgs, p.1 = n ∧ validMessage bls session p.2 = false

variable (bls session) in
/-- The batch is handled soundly when a repeated sign hash forces single verification, and
otherwise only when every invalid message comes from the peer of the last message. -/
theorem processPendingMessageBatch_sound_iff (msgs : List (NodeId × Option Msg)) :
    BatchSound bls session msgs ↔
      ¬ (signHashes session (preverifiedMessages session msgs)).Nodup ∨
      ∀ p ∈ preverifiedMessages session msgs, validMessage bls session p.2 = false →
        (preverifiedMessages session msgs).getLast?.map Prod.fst = some p.1 := by
  have hbad := fun n => mem_batchVerifyMessageSigs bls
    (fun p (hp : p ∈ preverifiedMessages session msgs) => member_of_preverified hp) n
  generalize hpre : preverifiedMessages session msgs = messages at hbad
  by_cases hnodup : (signHashes session messages).Nodup
  · simp only [if_pos hnodup] at hbad
    rw [or_iff_right (not_not.mpr hnodup)]
    constructor
    · rintro ⟨hvalid, -⟩ p hp hfalse
      by_contra hlast
      have hgood : p.1 ∉ batchVerifyMessageSigs bls session messages := by
        rw [hbad]
        exact fun h => hlast h.2
      have hrec := hvalid Unit (fun _ _ _ => ((), false)) () p (by
        rw [processPendingMessageBatch, hpre]
        exact mem_received_of_no_ban hp hgood)
      rw [hrec] at hfalse
      cases hfalse
    · intro hcond
      refine ⟨fun State receiveMessage state p hp => ?_, fun n hn => ?_⟩
      · rw [processPendingMessageBatch, hpre] at hp
        obtain ⟨hmem, hgood⟩ := mem_of_mem_received hp
        by_contra hinvalid
        have hfalse := Bool.eq_false_iff.mpr hinvalid
        exact hgood ((hbad p.1).mpr ⟨⟨p, hmem, hfalse⟩, hcond p hmem hfalse⟩)
      · rw [hpre] at hn ⊢
        obtain ⟨⟨p, hp, hfalse⟩, hlast⟩ := (hbad n).mp hn
        exact ⟨p, hp, Option.some.inj ((hcond p hp hfalse).symm.trans hlast), hfalse⟩
  · simp only [if_neg hnodup] at hbad
    refine iff_of_true ⟨fun State receiveMessage state p hp => ?_, fun n hn => ?_⟩
      (Or.inl hnodup)
    · rw [processPendingMessageBatch, hpre] at hp
      obtain ⟨hmem, hgood⟩ := mem_of_mem_received hp
      by_contra hinvalid
      exact hgood ((hbad p.1).mpr ⟨p, hmem, rfl, Bool.eq_false_iff.mpr hinvalid⟩)
    · rw [hpre] at hn ⊢
      exact (hbad n).mp hn

end

/-! ### The session of a DKG -/

section

open DkgSession

inductive DkgMessage where
  | contribution (qc : CDKGContribution)
  | complaint (qc : CDKGComplaint)
  | justification (qj : CDKGJustification)
  | commitment (qc : CDKGPrematureCommitment)
  deriving DecidableEq

def DkgMessage.proTxHash : DkgMessage → Uint256
  | contribution qc => qc.proTxHash
  | complaint qc => qc.proTxHash
  | justification qj => qj.proTxHash
  | commitment qc => qc.proTxHash

variable (w : CBLSWorker) (q : Quorum) (s : CDKGSession)

def preVerifyMessage : DkgMessage → Bool × Bool
  | .contribution qc => preVerifyContribution w q s qc
  | .complaint qc => preVerifyComplaint q s qc
  | .justification qj => preVerifyJustification q s qj
  | .commitment qc => preVerifyCommitment q s qc

theorem getMember_of_preVerifyMessage {msg : DkgMessage}
    (accepted : (preVerifyMessage w q s msg).1 = true) :
    ∃ idx, q.getMember msg.proTxHash = some idx := by
  cases msg <;> exact (preVerify_true q s accepted).2.2

/-- Each message stands beside its signature; those of a batch are all of one kind. -/
def dkgSession (getSignHash : DkgMessage → Hash) (serializeHash : DkgMessage × Sig → Hash) :
    Session (DkgMessage × Sig) Uint256 Hash Sig CBLSPublicKey where
  proTxHash msg := msg.1.proTxHash
  sig := Prod.snd
  getSignHash msg := getSignHash msg.1
  serializeHash := serializeHash
  pubKeyOperator proTxHash :=
    ((q.getMember proTxHash).bind (q.members[·]?)).map Dmn.pubKeyOperator
  preVerifyMessage _ msg := preVerifyMessage w q s msg.1
  member_of_preVerify _ msg accepted := by
    obtain ⟨idx, found⟩ := getMember_of_preVerifyMessage w q s accepted
    obtain ⟨m, listed, -⟩ := Quorum.getMember_eq_some found
    simp [found, listed]

def toyScheme : Bls.Scheme Uint256 (CBLSPublicKey × Uint256) CBLSPublicKey where
  verifyInsecure sig pubKey hash := sig == (pubKey, hash)

def toySession :
    Session (DkgMessage × CBLSPublicKey × Uint256) Uint256 Uint256 (CBLSPublicKey × Uint256)
      CBLSPublicKey :=
  dkgSession ⟨fun _ _ => none, fun _ => true, fun _ _ _ => true⟩ toyQuorum .new (·.proTxHash)
    (·.1.proTxHash)

def toyComplaint (proTxHash : Uint256) : DkgMessage :=
  .complaint ⟨1, proTxHash, [false, false, false], [false, true, false]⟩

/-- Peer 7 sends an invalid message, peer 8 a valid one: peer 8 is reported and the invalid
message reaches the session. -/
theorem processPendingMessageBatch_unsound :
    ¬ BatchSound toyScheme toySession
      [(7, some (toyComplaint 10, none, 0)), (8, some (toyComplaint 11, some 2, 11))] := by
  rintro ⟨hvalid, -⟩
  have hfirst := hvalid Unit (fun _ _ _ => ((), false)) () (7, (toyComplaint 10, none, 0)) (by decide)
  exact absurd hfirst (by decide)

end

end ButCore.Llmq.Dkg
