import ButCore.Bls.BatchVerifier

/-!
# Processing of pending signature shares

`ProcessPendingSigShares` batch-verifies the shares collected from all peers and then adds the
shares of every peer that the verifier did not mark. `BuildSignHash` is collision free, so a
signing session stands for its sign hash.
-/
namespace ButCore.Llmq.SigShares
open Bls

variable {NodeId LLMQType Hash Sig PubKey : Type}

structure SignHash (LLMQType Hash : Type) where
  llmqType : LLMQType
  quorumHash : Hash
  id : Hash
  msgHash : Hash
  deriving DecidableEq

/-- A share; `sigShare` is `none` when the lazy signature does not decode. -/
structure CSigShare (LLMQType Hash Sig : Type) where
  signHash : SignHash LLMQType Hash
  quorumMember : ℕ
  sigShare : Option Sig
  deriving DecidableEq

abbrev SigShareKey (LLMQType Hash : Type) := SignHash LLMQType Hash × ℕ

def CSigShare.getKey (s : CSigShare LLMQType Hash Sig) : SigShareKey LLMQType Hash :=
  (s.signHash, s.quorumMember)

/-- What is read from a quorum: the public key share of a member and the threshold. -/
structure Quorums (LLMQType Hash PubKey : Type) where
  getPubKeyShare : LLMQType → Hash → ℕ → PubKey
  threshold : LLMQType → Hash → ℕ

/-- The stored shares, the ids with a recovered signature, and the log of successful adds. -/
structure ShareState (LLMQType Hash Sig : Type) where
  sigShares : List (CSigShare LLMQType Hash Sig)
  recoveredIds : List (LLMQType × Hash)
  added : List (CSigShare LLMQType Hash Sig)

section

variable [DecidableEq NodeId] [DecidableEq LLMQType] [DecidableEq Hash]
variable (bls : Scheme (SignHash LLMQType Hash) Sig PubKey) (quorums : Quorums LLMQType Hash PubKey)

def hasRecoveredSigForId (recoveredIds : List (LLMQType × Hash))
    (s : CSigShare LLMQType Hash Sig) : Bool :=
  decide ((s.signHash.llmqType, s.signHash.id) ∈ recoveredIds)

def shareMessage (s : CSigShare LLMQType Hash Sig) (sig : Sig) :
    Message (SigShareKey LLMQType Hash) (SignHash LLMQType Hash) Sig PubKey where
  msgId := s.getKey
  msgHash := s.signHash
  sig := sig
  pubKey := quorums.getPubKeyShare s.signHash.llmqType s.signHash.quorumHash s.quorumMember

def shareValid (s : CSigShare LLMQType Hash Sig) : Bool :=
  match s.sigShare with
  | none => false
  | some sig => bls.validMessage (shareMessage quorums s sig)

/-- The inner loop of the first pass. An undecodable share bans the peer and ends its loop. -/
def pushShares (recoveredIds : List (LLMQType × Hash)) (nodeId : NodeId)
    (v : BatchVerifier NodeId (SigShareKey LLMQType Hash) (SignHash LLMQType Hash) Sig PubKey) :
    List (CSigShare LLMQType Hash Sig) →
      BatchVerifier NodeId (SigShareKey LLMQType Hash) (SignHash LLMQType Hash) Sig PubKey × Bool
  | [] => (v, false)
  | s :: rest =>
    if hasRecoveredSigForId recoveredIds s then pushShares recoveredIds nodeId v rest
    else
      match s.sigShare with
      | none => (v, true)
      | some sig =>
        pushShares recoveredIds nodeId
          (v.pushMessage bls nodeId (shareMessage quorums s sig)) rest

def pushNodes (recoveredIds : List (LLMQType × Hash))
    (v : BatchVerifier NodeId (SigShareKey LLMQType Hash) (SignHash LLMQType Hash) Sig PubKey) :
    List (NodeId × List (CSigShare LLMQType Hash Sig)) →
      BatchVerifier NodeId (SigShareKey LLMQType Hash) (SignHash LLMQType Hash) Sig PubKey ×
        List NodeId
  | [] => (v, [])
  | (nodeId, shares) :: rest =>
    let (v', ban) := pushShares bls quorums recoveredIds nodeId v shares
    let (v'', banned) := pushNodes recoveredIds v' rest
    (v'', if ban then nodeId :: banned else banned)

/-- `TryRecoverSig` as its outcome: whether a recovered signature is written. -/
abbrev Recovery (LLMQType Hash Sig : Type) :=
  List (CSigShare LLMQType Hash Sig) → CSigShare LLMQType Hash Sig → Bool

def recordRecovered (st : ShareState LLMQType Hash Sig) (s : CSigShare LLMQType Hash Sig) :
    ShareState LLMQType Hash Sig :=
  { st with
    sigShares := st.sigShares.filter fun t => t.signHash ≠ s.signHash
    recoveredIds := (s.signHash.llmqType, s.signHash.id) :: st.recoveredIds }

def addShare (st : ShareState LLMQType Hash Sig) (s : CSigShare LLMQType Hash Sig) :
    ShareState LLMQType Hash Sig :=
  { st with sigShares := s :: st.sigShares, added := st.added ++ [s] }

def canTryRecovery (sigShares : List (CSigShare LLMQType Hash Sig))
    (s : CSigShare LLMQType Hash Sig) : Bool :=
  decide (quorums.threshold s.signHash.llmqType s.signHash.quorumHash ≤
    (sigShares.filter fun t => t.signHash = s.signHash).length)

def processSigShare (tryRecoverSig : Recovery LLMQType Hash Sig)
    (st : ShareState LLMQType Hash Sig) (s : CSigShare LLMQType Hash Sig) :
    ShareState LLMQType Hash Sig :=
  if hasRecoveredSigForId st.recoveredIds s then st
  else if st.sigShares.any fun t => t.getKey = s.getKey then st
  else if canTryRecovery quorums (s :: st.sigShares) s && tryRecoverSig (s :: st.sigShares) s then
    recordRecovered (addShare st s) s
  else addShare st s

def processPendingSigSharesFromNode (tryRecoverSig : Recovery LLMQType Hash Sig)
    (st : ShareState LLMQType Hash Sig) (shares : List (CSigShare LLMQType Hash Sig)) :
    ShareState LLMQType Hash Sig :=
  shares.foldl (processSigShare quorums tryRecoverSig) st

structure PendingResult (NodeId LLMQType Hash Sig : Type) where
  state : ShareState LLMQType Hash Sig
  banned : List NodeId

/-- Both passes over the collected shares, in the order in which their map yields the peers. The
log of added shares starts with the call. -/
def processPendingSigShares (tryRecoverSig : Recovery LLMQType Hash Sig)
    (st : ShareState LLMQType Hash Sig)
    (sigSharesByNodes : List (NodeId × List (CSigShare LLMQType Hash Sig))) :
    PendingResult NodeId LLMQType Hash Sig :=
  let (pushed, banned) := pushNodes bls quorums st.recoveredIds
    (BatchVerifier.new false true 0) sigSharesByNodes
  let badSources := (pushed.verify bls).badSources
  { state := (sigSharesByNodes.filter fun p => p.1 ∉ badSources).foldl
      (fun st p => processPendingSigSharesFromNode quorums tryRecoverSig st p.2)
      { st with added := [] }
    banned := banned ++
      (sigSharesByNodes.filter fun p => p.1 ∈ badSources).map Prod.fst }

/-! ### The first pass -/

def pushedShares (recoveredIds : List (LLMQType × Hash)) :
    List (CSigShare LLMQType Hash Sig) → List (CSigShare LLMQType Hash Sig × Sig)
  | [] => []
  | s :: rest =>
    if hasRecoveredSigForId recoveredIds s then pushedShares recoveredIds rest
    else
      match s.sigShare with
      | none => []
      | some sig => (s, sig) :: pushedShares recoveredIds rest

def pushedByNodes (recoveredIds : List (LLMQType × Hash))
    (sigSharesByNodes : List (NodeId × List (CSigShare LLMQType Hash Sig))) :
    List (NodeId × CSigShare LLMQType Hash Sig × Sig) :=
  sigSharesByNodes.flatMap fun p => (pushedShares recoveredIds p.2).map fun q => (p.1, q)

def firstPushed (recoveredIds : List (LLMQType × Hash))
    (sigSharesByNodes : List (NodeId × List (CSigShare LLMQType Hash Sig)))
    (k : SigShareKey LLMQType Hash) : Option (CSigShare LLMQType Hash Sig × Sig) :=
  ((pushedByNodes recoveredIds sigSharesByNodes).map Prod.snd).find? fun q => q.1.getKey = k

def flagged (recoveredIds : List (LLMQType × Hash))
    (sigSharesByNodes : List (NodeId × List (CSigShare LLMQType Hash Sig))) (n : NodeId) : Bool :=
  (pushedByNodes recoveredIds sigSharesByNodes).any fun p =>
    decide (p.1 = n) &&
      (firstPushed recoveredIds sigSharesByNodes p.2.1.getKey).any fun q =>
        !shareValid bls quorums q.1

variable {bls quorums}
variable {shares : List (CSigShare LLMQType Hash Sig)} {recoveredIds : List (LLMQType × Hash)}
variable {q : CSigShare LLMQType Hash Sig × Sig}

theorem sigShare_of_mem_pushedShares (h : q ∈ pushedShares recoveredIds shares) : q.1.sigShare = some q.2 := by
  induction shares with
  | nil => exact absurd h List.not_mem_nil
  | cons s rest ih =>
    rw [pushedShares] at h
    split_ifs at h with hrec
    · exact ih h
    · cases hsig : s.sigShare with
      | none =>
        rw [hsig] at h
        exact absurd h List.not_mem_nil
      | some sig =>
        rw [hsig] at h
        rcases List.mem_cons.mp h with rfl | h
        · exact hsig
        · exact ih h

variable (bls quorums) in
def messageOf (p : NodeId × CSigShare LLMQType Hash Sig × Sig) :
    NodeId × Message (SigShareKey LLMQType Hash) (SignHash LLMQType Hash) Sig PubKey :=
  (p.1, shareMessage quorums p.2.1 p.2.2)

theorem pushShares_eq_pushAll (recoveredIds : List (LLMQType × Hash)) (nodeId : NodeId)
    (v : BatchVerifier NodeId (SigShareKey LLMQType Hash) (SignHash LLMQType Hash) Sig PubKey)
    (shares : List (CSigShare LLMQType Hash Sig)) :
    (pushShares bls quorums recoveredIds nodeId v shares).1 =
      v.pushAll bls
        ((pushedShares recoveredIds shares).map fun q => messageOf quorums (nodeId, q)) := by
  induction shares generalizing v with
  | nil => rfl
  | cons s rest ih =>
    rw [pushShares, pushedShares]
    split_ifs with hrec
    · exact ih v
    · cases s.sigShare with
      | none => rfl
      | some sig => exact ih _

theorem pushNodes_eq_pushAll (recoveredIds : List (LLMQType × Hash))
    (v : BatchVerifier NodeId (SigShareKey LLMQType Hash) (SignHash LLMQType Hash) Sig PubKey)
    (sigSharesByNodes : List (NodeId × List (CSigShare LLMQType Hash Sig))) :
    (pushNodes bls quorums recoveredIds v sigSharesByNodes).1 =
      v.pushAll bls ((pushedByNodes recoveredIds sigSharesByNodes).map (messageOf quorums)) := by
  induction sigSharesByNodes generalizing v with
  | nil => rfl
  | cons p rest ih =>
    obtain ⟨nodeId, shares⟩ := p
    have hcons : pushedByNodes recoveredIds ((nodeId, shares) :: rest) =
        ((pushedShares recoveredIds shares).map fun q => (nodeId, q)) ++
          pushedByNodes recoveredIds rest := rfl
    rw [pushNodes, hcons, List.map_append, List.map_map, BatchVerifier.pushAll,
      List.foldl_append]
    dsimp only
    rw [ih, pushShares_eq_pushAll]
    rfl

omit [DecidableEq NodeId] in
theorem firstMessage_eq_firstPushed (recoveredIds : List (LLMQType × Hash))
    (sigSharesByNodes : List (NodeId × List (CSigShare LLMQType Hash Sig)))
    (k : SigShareKey LLMQType Hash) :
    BatchVerifier.firstMessage
        ((pushedByNodes recoveredIds sigSharesByNodes).map (messageOf quorums)) k =
      (firstPushed recoveredIds sigSharesByNodes k).map fun q => shareMessage quorums q.1 q.2 := by
  rw [BatchVerifier.firstMessage, firstPushed, List.map_map, List.find?_map, List.find?_map,
    Option.map_map]
  rfl

variable {k : SigShareKey LLMQType Hash}

omit [DecidableEq NodeId] in
theorem validMessage_of_firstPushed
    {sigSharesByNodes : List (NodeId × List (CSigShare LLMQType Hash Sig))}
    (h : firstPushed recoveredIds sigSharesByNodes k = some q) :
    bls.validMessage (shareMessage quorums q.1 q.2) = shareValid bls quorums q.1 := by
  obtain ⟨p, hp, rfl⟩ := List.mem_map.mp (List.mem_of_find?_eq_some h)
  obtain ⟨node, -, hmap⟩ := List.mem_flatMap.mp hp
  obtain ⟨q, hq, rfl⟩ := List.mem_map.mp hmap
  rw [shareValid, sigShare_of_mem_pushedShares hq]

theorem mem_badSources_iff_flagged (recoveredIds : List (LLMQType × Hash))
    (sigSharesByNodes : List (NodeId × List (CSigShare LLMQType Hash Sig))) (n : NodeId) :
    n ∈ ((pushNodes bls quorums recoveredIds (BatchVerifier.new false true 0)
        sigSharesByNodes).1.verify bls).badSources ↔
      flagged bls quorums recoveredIds sigSharesByNodes n = true := by
  rw [pushNodes_eq_pushAll, BatchVerifier.mem_badSources_pushAll, flagged, List.any_eq_true]
  simp only [firstMessage_eq_firstPushed, Bool.and_eq_true, decide_eq_true_eq, Option.any_eq_true,
    Bool.not_eq_true', List.mem_map, Option.map_eq_some_iff]
  constructor
  · rintro ⟨-, ⟨p, hp, rfl⟩, hn, -, ⟨q, hfirst, rfl⟩, hfalse⟩
    rw [validMessage_of_firstPushed hfirst] at hfalse
    exact ⟨p, hp, hn, q, hfirst, hfalse⟩
  · rintro ⟨p, hp, hn, q, hfirst, hfalse⟩
    refine ⟨messageOf quorums p, ⟨p, hp, rfl⟩, hn, _, ⟨q, hfirst, rfl⟩, ?_⟩
    rw [validMessage_of_firstPushed hfirst]
    exact hfalse

/-! ### The second pass -/

def Blocked (st : ShareState LLMQType Hash Sig) (k : SigShareKey LLMQType Hash) : Prop :=
  (k.1.llmqType, k.1.id) ∈ st.recoveredIds ∨ ∃ t ∈ st.sigShares, t.getKey = k

theorem blocked_iff (st : ShareState LLMQType Hash Sig) (s : CSigShare LLMQType Hash Sig) :
    Blocked st s.getKey ↔ hasRecoveredSigForId st.recoveredIds s = true ∨
      (st.sigShares.any fun t => t.getKey = s.getKey) = true := by
  simp [Blocked, hasRecoveredSigForId, CSigShare.getKey]

variable {st : ShareState LLMQType Hash Sig}

theorem Blocked.recordRecovered (h : Blocked st k) (s : CSigShare LLMQType Hash Sig) :
    Blocked (recordRecovered st s) k := by
  rcases h with hrec | ⟨t, ht, rfl⟩
  · exact Or.inl (List.mem_cons_of_mem _ hrec)
  · by_cases hsession : t.signHash = s.signHash
    · exact Or.inl (by rw [CSigShare.getKey, hsession]; exact List.mem_cons_self)
    · exact Or.inr ⟨t, List.mem_filter.mpr ⟨ht, by simpa using hsession⟩, rfl⟩

variable {s : CSigShare LLMQType Hash Sig}

omit [DecidableEq LLMQType] [DecidableEq Hash] in
theorem Blocked.addShare : Blocked (addShare st s) k ↔ Blocked st k ∨ k = s.getKey := by
  constructor
  · rintro (hrec | ⟨t, ht, hkey⟩)
    · exact Or.inl (Or.inl hrec)
    · rcases List.mem_cons.mp ht with rfl | ht
      · exact Or.inr hkey.symm
      · exact Or.inl (Or.inr ⟨t, ht, hkey⟩)
  · rintro ((hrec | ⟨t, ht, hkey⟩) | rfl)
    · exact Or.inl hrec
    · exact Or.inr ⟨t, List.mem_cons_of_mem _ ht, hkey⟩
    · exact Or.inr ⟨s, List.mem_cons_self, rfl⟩

variable (quorums) in
/-- What processing a share does: a blocked share changes nothing, any other is added and blocks
its key. What is blocked stays blocked, also when a recovered signature removes shares. -/
theorem processSigShare_cases (tryRecoverSig : Recovery LLMQType Hash Sig)
    (st : ShareState LLMQType Hash Sig) (s : CSigShare LLMQType Hash Sig) :
    Blocked st s.getKey ∧ processSigShare quorums tryRecoverSig st s = st ∨
      ¬ Blocked st s.getKey ∧
        (processSigShare quorums tryRecoverSig st s).added = st.added ++ [s] ∧
        ∀ k, Blocked st k ∨ k = s.getKey →
          Blocked (processSigShare quorums tryRecoverSig st s) k := by
  rw [blocked_iff, processSigShare]
  split_ifs with hrec hhave
  · exact Or.inl ⟨Or.inl hrec, rfl⟩
  · exact Or.inl ⟨Or.inr hhave, rfl⟩
  · refine Or.inr ⟨not_or.mpr ⟨hrec, hhave⟩, rfl, fun k hk => ?_⟩
    exact (Blocked.addShare.mpr hk).recordRecovered s
  · exact Or.inr ⟨not_or.mpr ⟨hrec, hhave⟩, rfl, fun k hk => Blocked.addShare.mpr hk⟩

theorem first_of_mem_added (tryRecoverSig : Recovery LLMQType Hash Sig)
    (h : s ∈ (shares.foldl (processSigShare quorums tryRecoverSig) st).added) :
    s ∈ st.added ∨ ¬ Blocked st s.getKey ∧
      shares.find? (fun t => t.getKey = s.getKey) = some s := by
  induction shares generalizing st with
  | nil => exact Or.inl h
  | cons a shares ih =>
    rcases processSigShare_cases quorums tryRecoverSig st a with
      ⟨hblocked, heq⟩ | ⟨hfree, hadded, hmono⟩
    · rw [List.foldl_cons, heq] at h
      rcases ih h with hold | ⟨hs, hfirst⟩
      · exact Or.inl hold
      · have hne : a.getKey ≠ s.getKey := fun hkey => hs (hkey ▸ hblocked)
        exact Or.inr ⟨hs, by rw [List.find?_cons_of_neg (by simpa using hne)]; exact hfirst⟩
    · rcases ih h with hold | ⟨hs, hfirst⟩
      · rw [hadded, List.mem_append, List.mem_singleton] at hold
        rcases hold with hold | rfl
        · exact Or.inl hold
        · exact Or.inr ⟨hfree, List.find?_cons_of_pos (by simp)⟩
      · have hne : a.getKey ≠ s.getKey := fun hkey => hs (hmono _ (Or.inr hkey.symm))
        refine Or.inr ⟨fun hb => hs (hmono _ (Or.inl hb)), ?_⟩
        rw [List.find?_cons_of_neg (by simpa using hne)]
        exact hfirst

theorem added_mono (tryRecoverSig : Recovery LLMQType Hash Sig)
    (shares : List (CSigShare LLMQType Hash Sig)) (h : s ∈ st.added) :
    s ∈ (shares.foldl (processSigShare quorums tryRecoverSig) st).added := by
  induction shares generalizing st with
  | nil => exact h
  | cons a shares ih =>
    refine ih ?_
    rcases processSigShare_cases quorums tryRecoverSig st a with
      ⟨-, heq⟩ | ⟨-, hadded, -⟩
    · rw [heq]
      exact h
    · rw [hadded]
      exact List.mem_append_left _ h

variable (quorums) in
theorem processSigShare_no_recovery (st : ShareState LLMQType Hash Sig)
    (s : CSigShare LLMQType Hash Sig) :
    processSigShare quorums (fun _ _ => false) st s = st ∨
      processSigShare quorums (fun _ _ => false) st s = addShare st s := by
  rw [processSigShare, Bool.and_false, if_neg Bool.false_ne_true]
  split_ifs
  · exact Or.inl rfl
  · exact Or.inl rfl
  · exact Or.inr rfl

theorem mem_added_of_first (hfree : ¬ Blocked st s.getKey)
    (hfirst : shares.find? (fun t => t.getKey = s.getKey) = some s) :
    s ∈ (shares.foldl (processSigShare quorums fun _ _ => false) st).added := by
  induction shares generalizing st with
  | nil => cases hfirst
  | cons a shares ih =>
    by_cases hkey : a.getKey = s.getKey
    · rw [List.find?_cons_of_pos (by simpa using hkey)] at hfirst
      cases hfirst
      rcases processSigShare_cases quorums (fun _ _ => false) st s with
        ⟨hblocked, -⟩ | ⟨-, hadded, -⟩
      · exact absurd hblocked hfree
      · refine added_mono _ shares ?_
        rw [hadded]
        exact List.mem_append_right _ (List.mem_singleton_self _)
    · rw [List.find?_cons_of_neg (by simpa using hkey)] at hfirst
      refine ih ?_ hfirst
      rcases processSigShare_no_recovery quorums st a with heq | heq
      · rw [heq]
        exact hfree
      · rw [heq, Blocked.addShare]
        rintro (hblocked | hself)
        · exact hfree hblocked
        · exact hkey hself.symm

/-! ### Both passes -/

variable (bls quorums) in
def acceptedShares (recoveredIds : List (LLMQType × Hash))
    (sigSharesByNodes : List (NodeId × List (CSigShare LLMQType Hash Sig))) :
    List (CSigShare LLMQType Hash Sig) :=
  (sigSharesByNodes.filter fun p =>
    !flagged bls quorums recoveredIds sigSharesByNodes p.1).flatMap Prod.snd

theorem processPendingSigShares_state (tryRecoverSig : Recovery LLMQType Hash Sig)
    (st : ShareState LLMQType Hash Sig)
    (sigSharesByNodes : List (NodeId × List (CSigShare LLMQType Hash Sig))) :
    (processPendingSigShares bls quorums tryRecoverSig st sigSharesByNodes).state =
      (acceptedShares bls quorums st.recoveredIds sigSharesByNodes).foldl
        (processSigShare quorums tryRecoverSig) { st with added := [] } := by
  have hfilter : (sigSharesByNodes.filter fun p => p.1 ∉
      ((pushNodes bls quorums st.recoveredIds (BatchVerifier.new false true 0)
        sigSharesByNodes).1.verify bls).badSources) =
      sigSharesByNodes.filter fun p =>
        !flagged bls quorums st.recoveredIds sigSharesByNodes p.1 := by
    refine List.filter_congr fun p _ => ?_
    rw [Bool.eq_iff_iff, decide_eq_true_eq, mem_badSources_iff_flagged, Bool.not_eq_true,
      Bool.not_eq_true']
  rw [acceptedShares, List.foldl_flatMap, ← hfilter]
  rfl

variable (bls quorums) in
/-- Whatever `TryRecoverSig` does, only shares that are themselves valid are added. -/
def OnlyValidAdded (st : ShareState LLMQType Hash Sig)
    (sigSharesByNodes : List (NodeId × List (CSigShare LLMQType Hash Sig))) : Prop :=
  ∀ tryRecoverSig, ∀ s ∈
    (processPendingSigShares bls quorums tryRecoverSig st sigSharesByNodes).state.added,
    shareValid bls quorums s = true

variable (bls quorums) in
/-- Only valid shares are added exactly when, for every key that is neither stored nor settled,
the first share with that key among the peers that are not flagged is valid. -/
theorem processPendingSigShares_valid_iff (st : ShareState LLMQType Hash Sig)
    (sigSharesByNodes : List (NodeId × List (CSigShare LLMQType Hash Sig))) :
    OnlyValidAdded bls quorums st sigSharesByNodes ↔
      ∀ s, ¬ Blocked st s.getKey →
        (acceptedShares bls quorums st.recoveredIds sigSharesByNodes).find?
          (fun t => t.getKey = s.getKey) = some s → shareValid bls quorums s = true := by
  constructor
  · intro hvalid s hfree hfirst
    refine hvalid (fun _ _ => false) s ?_
    rw [processPendingSigShares_state]
    exact mem_added_of_first hfree hfirst
  · intro hcond tryRecoverSig s hs
    rw [processPendingSigShares_state] at hs
    rcases first_of_mem_added tryRecoverSig hs with hold | ⟨hfree, hfirst⟩
    · exact absurd hold List.not_mem_nil
    · exact hcond s hfree hfirst

end

def toyScheme : Scheme (SignHash ℕ ℕ) (ℕ × SignHash ℕ ℕ) ℕ where
  verifyInsecure sig pubKey hash := sig == (pubKey, hash)

def toyQuorums : Quorums ℕ ℕ ℕ where
  getPubKeyShare _ _ member := member
  threshold _ _ := 10

/-- Peer 7 sends a valid share of member 0 and an invalid one of member 1, peer 8 an invalid share
of member 0. The verifier holds peer 7's share for the key that both use, so peer 8 is not marked
and its own invalid share is added. -/
theorem invalid_share_added :
    ¬ OnlyValidAdded toyScheme toyQuorums ⟨[], [], []⟩
      [(7, [⟨⟨1, 2, 3, 4⟩, 0, some (0, ⟨1, 2, 3, 4⟩)⟩, ⟨⟨1, 2, 3, 4⟩, 1, some (0, ⟨1, 2, 3, 4⟩)⟩]),
        (8, [⟨⟨1, 2, 3, 4⟩, 0, some (5, ⟨1, 2, 3, 4⟩)⟩])] := by
  intro h
  have hvalid := h (fun _ _ => false) ⟨⟨1, 2, 3, 4⟩, 0, some (5, ⟨1, 2, 3, 4⟩)⟩ (by decide)
  exact absurd hvalid (by decide)

end ButCore.Llmq.SigShares
