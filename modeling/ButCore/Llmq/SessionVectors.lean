import ButCore.Llmq.ShareSessions

/-!
# The vectors of a session while the parameters change

Runs of the messages of the peers, of our own shares, of the collected announcements and requests
and of the clean-up, interleaved with `UpdateLLMQParams`.
-/
namespace ButCore.Llmq.ShareSessions

open SigShares Traced

structure SharesState where
  params : Consensus.ParamsState
  nodeStates : NodeId → NodeState

namespace SharesState

def start (llmqs : Consensus.LLMQs) : SharesState := ⟨.atStart llmqs, fun _ => .empty⟩

def setNode (s : SharesState) (node : NodeId) (ns : NodeState) : SharesState :=
  { s with nodeStates := Function.update s.nodeStates node ns }

def llmqs (s : SharesState) : Consensus.LLMQs := s.params.llmqs

end SharesState

/-- An announcement comes with the answer of `GetQuorum`, a vector with that of
`HasRecoveredSigForSession`. A share is pushed, announced or requested at one node at a time. -/
inductive Event where
  | sigSesAnn (node : NodeId) (ann : CSigSesAnn) (quorum : Option CQuorum)
  | sigSharesInv (node : NodeId) (inv : CSigSharesInv) (recovered : Bool)
  | getSigShares (node : NodeId) (inv : CSigSharesInv) (recovered : Bool)
  | pushShare (node : NodeId) (key : SigShareKey LLMQType Uint256) (quorum : CQuorum)
  | announceShare (node : NodeId) (key : SigShareKey LLMQType Uint256) (inv : List Bool)
  | requestShare (node : NodeId) (signHash : SessionKey) (i : ℕ) (has : Bool) (inv : List Bool)
  | sendShares (node : NodeId) (signHash : SessionKey)
  | forceReAnnouncement (signHash : SessionKey)
  | removeSession (signHash : SessionKey)
  | removeNode (node : NodeId)
  | updateLLMQParams (totalMnCount : ℕ) (height : ℤ) (lowLLMQParams : Bool)

def step (s : SharesState) : Event → Traced BitCall SharesState
  | .sigSesAnn node ann quorum =>
    pure (s.setNode node (processMessageSigSesAnn s.llmqs (s.nodeStates node) quorum ann).2)
  | .sigSharesInv node inv recovered => do
    let r ← processMessageSigSharesInv s.llmqs (s.nodeStates node) recovered inv
    pure (s.setNode node r.2)
  | .getSigShares node inv recovered => do
    let r ← processMessageGetSigShares s.llmqs (s.nodeStates node) recovered inv
    pure (s.setNode node r.2)
  | .pushShare node key quorum => do
    let ns ← ShareSessions.pushShare s.llmqs (s.nodeStates node) quorum key
    pure (s.setNode node ns)
  | .announceShare node key inv => do
    let ns ← ShareSessions.announceShare s.llmqs (s.nodeStates node) key inv
    pure (s.setNode node ns)
  | .requestShare node signHash i has inv => do
    let ns ← ShareSessions.requestShare s.llmqs (s.nodeStates node) signHash i has inv
    pure (s.setNode node ns)
  | .sendShares node signHash =>
    pure (s.setNode node (forgetRequested (s.nodeStates node) signHash))
  | .forceReAnnouncement signHash =>
    pure { s with nodeStates := fun node => forgetKnown (s.nodeStates node) signHash }
  | .removeSession signHash =>
    pure { s with nodeStates := fun node => (s.nodeStates node).removeSession signHash }
  | .removeNode node => pure (s.setNode node .empty)
  | .updateLLMQParams totalMnCount height lowLLMQParams =>
    pure { s with
      params := Consensus.updateLLMQParams s.params totalMnCount height lowLLMQParams }

def run (llmqs : Consensus.LLMQs) (events : List Event) : Traced BitCall SharesState :=
  events.foldlM step (.start llmqs)

/-! ### The condition -/

/-- If the message gets as far as `Merge`, the session was created under the size in force. -/
def SizeKept (llmqs : Consensus.LLMQs) (ns : NodeState) (recovered : Bool) (wanted : Session → Bool)
    (inv : CSigSharesInv) : Prop :=
  ∀ session ∈ ns.getSessionByRecvId inv.sessionId,
    verifySigSharesInv llmqs session.signHash.llmqType inv = true → recovered = false →
      wanted session = true → quorumSize llmqs session.signHash.llmqType = some session.createdSize

/-- Our own index is one of the vectors that the session has or is given. -/
def MemberFits (llmqs : Consensus.LLMQs) (ns : NodeState) (key : SigShareKey LLMQType Uint256) : Prop :=
  ∀ params ∈ llmqs.lookup key.1.llmqType, key.2 < ns.vectorSize params key.1

/-- The index is one of the session's vectors and, if the node does not know of the share, of the
collected one. -/
def AnnounceFits (llmqs : Consensus.LLMQs) (ns : NodeState) (key : SigShareKey LLMQType Uint256)
    (inv : List Bool) : Prop :=
  ∀ params ∈ llmqs.lookup key.1.llmqType, key.2 < ns.vectorSize params key.1 ∧
    (CSigSharesInv.bit (ns.getOrCreateSession params key.1).knows key.2 = false →
      key.2 < (collected params inv).length)

/-- A place that was announced under the size of the session is one of the collected vector. -/
def RequestFits (llmqs : Consensus.LLMQs) (ns : NodeState) (signHash : SessionKey) (i : ℕ) (has : Bool)
    (inv : List Bool) : Prop :=
  ∀ session ∈ ns.sessions signHash, CSigSharesInv.bit session.announced i = true → has = false →
    ∀ params ∈ llmqs.lookup session.signHash.llmqType, i % 2 ^ 16 < (collected params inv).length

def SizesKept (s : SharesState) : Event → Prop
  | .sigSharesInv node inv recovered =>
    SizeKept s.llmqs (s.nodeStates node) recovered Session.hasVvec inv
  | .getSigShares node inv recovered =>
    SizeKept s.llmqs (s.nodeStates node) recovered (fun _ => true) inv
  | .pushShare node key _ => MemberFits s.llmqs (s.nodeStates node) key
  | .announceShare node key inv => AnnounceFits s.llmqs (s.nodeStates node) key inv
  | .requestShare node signHash i has inv =>
    RequestFits s.llmqs (s.nodeStates node) signHash i has inv
  | _ => True

/-! ### One step -/

structure Session.Updated (s s' : Session) : Prop where
  signHash : s'.signHash = s.signHash
  recvSessionId : s'.recvSessionId = s.recvSessionId
  sized : s.Sized → s'.Sized

theorem Session.mergeAnnounced_updated (inv : List Bool) (s : Session) :
    s.Updated (s.mergeAnnounced inv).value where
  signHash := rfl
  recvSessionId := rfl
  sized h := ⟨(CSigSharesInv.length_merge _ _).trans h.announced, h.requested,
    (CSigSharesInv.length_merge _ _).trans h.knows⟩

theorem Session.mergeRequested_updated (inv : List Bool) (s : Session) :
    s.Updated (s.mergeRequested inv).value where
  signHash := rfl
  recvSessionId := rfl
  sized h := ⟨h.announced, (CSigSharesInv.length_merge _ _).trans h.requested,
    (CSigSharesInv.length_merge _ _).trans h.knows⟩

theorem Session.mergeAnnounced_inRange {s : Session} (sized : s.Sized) (inv : List Bool) :
    Within BitCall.InRange (s.mergeAnnounced inv) ↔ s.createdSize = inv.length := by
  simp only [mergeAnnounced, within_bind_iff, CSigSharesInv.merge_inRange, sized.announced, sized.knows,
    within_pure, and_true, and_self]

theorem Session.mergeRequested_inRange {s : Session} (sized : s.Sized) (inv : List Bool) :
    Within BitCall.InRange (s.mergeRequested inv) ↔ s.createdSize = inv.length := by
  simp only [mergeRequested, within_bind_iff, CSigSharesInv.merge_inRange, sized.requested, sized.knows,
    within_pure, and_true, and_self]

namespace NodeState.Valid

variable {ns : NodeState} {llmqs : Consensus.LLMQs}

theorem of_getSessionByRecvId (valid : ns.Valid) {sessionId : BitVec 32} {session : Session}
    (h : ns.getSessionByRecvId sessionId = some session) :
    session.Sized ∧ ns.sessions session.signHash = some session := by
  obtain ⟨key, -, hkey⟩ := Option.bind_eq_some_iff.mp h
  refine ⟨valid.sized key session hkey, ?_⟩
  rw [valid.keyed key session hkey]
  exact hkey

theorem store_updated (valid : ns.Valid) {s s' : Session} (hs : ns.sessions s.signHash = some s)
    (updated : s.Updated s') : (ns.store s').Valid := by
  refine valid.store (updated.sized (valid.sized _ _ hs)) ?_
  intro old hold
  rw [updated.signHash, hs, Option.some.injEq] at hold
  rw [← hold]
  exact updated.recvSessionId

theorem store_created (valid : ns.Valid) {params : Consensus.LLMQParams} {key : SessionKey}
    {s' : Session} (updated : (ns.getOrCreateSession params key).Updated s') : (ns.store s').Valid := by
  obtain ⟨keyed, sized, -⟩ := valid.getOrCreateSession params key
  refine valid.store (updated.sized sized) ?_
  intro old hold
  rw [updated.signHash, keyed] at hold
  rw [updated.recvSessionId]
  exact getOrCreateSession_recvSessionId hold

variable {recovered : Bool} {wanted : Session → Bool} {inv : CSigSharesInv}
  {merge : Session → Traced BitCall Session}

theorem processInv (valid : ns.Valid) (updated : ∀ s : Session, s.Updated (merge s).value) :
    (ShareSessions.processInv llmqs ns recovered wanted inv merge).value.2.Valid := by
  unfold ShareSessions.processInv
  split
  · exact valid
  · next session hsession =>
      split
      · exact valid
      · split
        · exact valid
        · split
          · exact valid
          · exact valid.store_updated (valid.of_getSessionByRecvId hsession).2 (updated session)

theorem processInv_inRange (valid : ns.Valid)
    (exact : ∀ s : Session, s.Sized →
      (Within BitCall.InRange (merge s) ↔ s.createdSize = inv.inv.length)) :
    Within BitCall.InRange (ShareSessions.processInv llmqs ns recovered wanted inv merge) ↔
      SizeKept llmqs ns recovered wanted inv := by
  unfold ShareSessions.processInv SizeKept
  cases h : ns.getSessionByRecvId inv.sessionId with
  | none => simp [within_pure]
  | some session =>
    simp only [Option.mem_some_iff, forall_eq']
    by_cases hverify : verifySigSharesInv llmqs session.signHash.llmqType inv = true
    · have hsize := of_decide_eq_true hverify
      cases recovered with
      | true => simp [hverify, within_pure]
      | false =>
        cases hwanted : wanted session with
        | false => simp [hverify, within_pure]
        | true =>
          simp only [hverify, Bool.true_eq_false, Bool.false_eq_true, if_false, within_bind_iff,
            within_pure, and_true, exact session (valid.of_getSessionByRecvId h).1, hsize,
            Option.some.injEq, forall_const]
          exact eq_comm
    · simp [hverify, within_pure]

theorem pushShare (valid : ns.Valid) (quorum : CQuorum) (key : SigShareKey LLMQType Uint256) :
    (pushShare llmqs ns quorum key).value.Valid := by
  unfold ShareSessions.pushShare
  split
  · exact valid
  · refine valid.store_created ⟨rfl, rfl, ?_⟩
    intro sized
    exact ⟨sized.announced, (CSigSharesInv.length_set _ _ _).trans sized.requested,
      (CSigSharesInv.length_set _ _ _).trans sized.knows⟩

theorem pushShare_inRange (valid : ns.Valid) (quorum : CQuorum) (key : SigShareKey LLMQType Uint256) :
    Within BitCall.InRange (ShareSessions.pushShare llmqs ns quorum key) ↔ MemberFits llmqs ns key := by
  unfold ShareSessions.pushShare MemberFits
  cases h : llmqs.lookup key.1.llmqType with
  | none => simp [within_pure]
  | some params =>
    obtain ⟨-, sized, size⟩ := valid.getOrCreateSession params key.1
    simp only [within_bind_iff, CSigSharesInv.set_inRange, sized.requested, sized.knows, size,
      within_pure, and_true, and_self, Option.mem_some_iff, forall_eq']

variable (valid : ns.Valid)

include valid

theorem announceShare (key : SigShareKey LLMQType Uint256) (inv : List Bool) :
    (announceShare llmqs ns key inv).value.Valid := by
  unfold ShareSessions.announceShare
  split
  · exact valid
  · rw [value_bind]
    split
    · exact valid.store_created ⟨rfl, rfl, id⟩
    · refine valid.store_created ⟨rfl, rfl, fun sized => ?_⟩
      exact ⟨sized.announced, sized.requested, (List.length_set ..).trans sized.knows⟩

theorem announceShare_inRange (key : SigShareKey LLMQType Uint256) (inv : List Bool) :
    Within BitCall.InRange (ShareSessions.announceShare llmqs ns key inv) ↔
      AnnounceFits llmqs ns key inv := by
  unfold ShareSessions.announceShare AnnounceFits
  cases h : llmqs.lookup key.1.llmqType with
  | none => simp [within_pure]
  | some params =>
    obtain ⟨-, sized, size⟩ := valid.getOrCreateSession params key.1
    simp only [within_bind_iff, CSigSharesInv.read_inRange, sized.knows, size, Option.mem_some_iff,
      forall_eq']
    refine and_congr_right fun fits => ?_
    cases known : CSigSharesInv.bit (ns.getOrCreateSession params key.1).knows key.2 with
    | true => simp [CSigSharesInv.read, known, within_pure]
    | false => simp [CSigSharesInv.read, known, within_bind_iff, CSigSharesInv.write_inRange,
        sized.knows, size, fits, within_pure]

theorem sessions_signHash {signHash : SessionKey} {session : Session}
    (h : ns.sessions signHash = some session) : ns.sessions session.signHash = some session := by
  rw [valid.keyed _ _ h, h]

theorem requestShare (signHash : SessionKey) (i : ℕ) (has : Bool) (inv : List Bool) :
    (requestShare llmqs ns signHash i has inv).value.Valid := by
  unfold ShareSessions.requestShare
  cases h : ns.sessions signHash with
  | none => exact valid
  | some session =>
    have cleared : (ns.store { session with announced := session.announced.set i false }).Valid :=
      valid.store_updated (valid.sessions_signHash h) ⟨rfl, rfl, fun sized =>
        ⟨(List.length_set ..).trans sized.announced, sized.requested, sized.knows⟩⟩
    dsimp only
    split
    · exact valid
    · split
      · exact cleared
      · split
        · exact valid
        · exact cleared

omit valid in
theorem requestShare_inRange (signHash : SessionKey) (i : ℕ) (has : Bool) (inv : List Bool) :
    Within BitCall.InRange (ShareSessions.requestShare llmqs ns signHash i has inv) ↔
      RequestFits llmqs ns signHash i has inv := by
  unfold ShareSessions.requestShare RequestFits
  cases h : ns.sessions signHash with
  | none => simp [within_pure]
  | some session =>
    cases bit : CSigSharesInv.bit session.announced i with
    | false => simp [bit, within_pure]
    | true =>
      cases has with
      | true => simp [bit, within_pure]
      | false =>
        cases hparams : llmqs.lookup session.signHash.llmqType with
        | none => simp [bit, hparams, within_pure]
        | some params =>
          simp [bit, hparams, within_bind_iff, CSigSharesInv.write_inRange, within_pure]

theorem clearVector {clear : Session → Session} (updated : ∀ s : Session, s.Updated (clear s))
    (signHash : SessionKey) : (clearVector ns clear signHash).Valid := by
  unfold ShareSessions.clearVector
  cases h : ns.sessions signHash with
  | none => exact valid
  | some session => exact valid.store_updated (valid.sessions_signHash h) (updated session)

theorem forgetKnown : ∀ signHash, (forgetKnown ns signHash).Valid :=
  valid.clearVector fun _ => ⟨rfl, rfl, fun sized =>
    ⟨sized.announced, sized.requested, (List.length_map _).trans sized.knows⟩⟩

theorem forgetRequested : ∀ signHash, (forgetRequested ns signHash).Valid :=
  valid.clearVector fun _ => ⟨rfl, rfl, fun sized =>
    ⟨sized.announced, (List.length_map _).trans sized.requested, sized.knows⟩⟩

end NodeState.Valid

def SharesState.Valid (s : SharesState) : Prop := ∀ node, (s.nodeStates node).Valid

theorem SharesState.Valid.setNode {s : SharesState} (valid : s.Valid) {node : NodeId} {ns : NodeState}
    (hns : ns.Valid) : (s.setNode node ns).Valid :=
  (Function.forall_update_iff s.nodeStates fun _ ns => ns.Valid).mpr ⟨hns, fun other _ => valid other⟩

theorem step_valid (s : SharesState) (event : Event) (valid : s.Valid) : (step s event).value.Valid := by
  cases event with
  | sigSesAnn node ann quorum =>
    exact valid.setNode ((valid node).processMessageSigSesAnn s.llmqs quorum ann)
  | sigSharesInv node inv recovered =>
    exact valid.setNode ((valid node).processInv (Session.mergeAnnounced_updated inv.inv))
  | getSigShares node inv recovered =>
    exact valid.setNode ((valid node).processInv (Session.mergeRequested_updated inv.inv))
  | pushShare node key quorum => exact valid.setNode ((valid node).pushShare quorum key)
  | announceShare node key inv => exact valid.setNode ((valid node).announceShare key inv)
  | requestShare node signHash i has inv =>
    exact valid.setNode ((valid node).requestShare signHash i has inv)
  | sendShares node signHash => exact valid.setNode ((valid node).forgetRequested signHash)
  | forceReAnnouncement signHash => exact fun node => (valid node).forgetKnown signHash
  | removeSession signHash => exact fun node => (valid node).removeSession signHash
  | removeNode node => exact valid.setNode NodeState.valid_empty
  | updateLLMQParams totalMnCount height lowLLMQParams => exact valid

theorem step_inRange (s : SharesState) (event : Event) (valid : s.Valid) :
    Within BitCall.InRange (step s event) ↔ SizesKept s event := by
  cases event with
  | sigSharesInv node inv recovered =>
    rw [step, within_bind_iff, and_iff_left (within_pure _)]
    exact (valid node).processInv_inRange fun _ sized => Session.mergeAnnounced_inRange sized inv.inv
  | getSigShares node inv recovered =>
    rw [step, within_bind_iff, and_iff_left (within_pure _)]
    exact (valid node).processInv_inRange fun _ sized => Session.mergeRequested_inRange sized inv.inv
  | pushShare node key quorum =>
    rw [step, within_bind_iff, and_iff_left (within_pure _)]
    exact (valid node).pushShare_inRange quorum key
  | announceShare node key inv =>
    rw [step, within_bind_iff, and_iff_left (within_pure _)]
    exact (valid node).announceShare_inRange key inv
  | requestShare node signHash i has inv =>
    rw [step, within_bind_iff, and_iff_left (within_pure _)]
    exact NodeState.Valid.requestShare_inRange signHash i has inv
  | _ => exact iff_of_true (within_pure _) trivial

/-! ### Runs -/

/-- In every peer an id leads to a session that is still there and has that id, no two ids lead to one
session, and after an announcement its id, and no other, leads to its session. -/
theorem run_linked (llmqs : Consensus.LLMQs) (events : List Event) (node : NodeId) :
    let ns := (run llmqs events).value.nodeStates node
    (∀ sessionId signHash, ns.sessionByRecvId sessionId = some signHash →
      ∃ session, ns.sessions signHash = some session ∧ session.recvSessionId = sessionId ∧
        ns.getSessionByRecvId sessionId = some session) ∧
      (∀ sessionId sessionId' signHash, ns.sessionByRecvId sessionId = some signHash →
        ns.sessionByRecvId sessionId' = some signHash → sessionId = sessionId') ∧
      ∀ params ann quorum sessionId,
        (ns.announce params ann quorum).sessionByRecvId sessionId = some ann.signHash ↔
          sessionId = ann.sessionId := by
  intro ns
  have valid : ns.Valid := value_foldlM_inv step_valid (fun _ => NodeState.valid_empty) events node
  refine ⟨?_, ?_, ?_⟩
  · intro sessionId signHash h
    obtain ⟨session, hsession, hid⟩ := valid.linked sessionId signHash h
    exact ⟨session, hsession, hid, Option.bind_eq_some_iff.mpr ⟨signHash, h, hsession⟩⟩
  · intro sessionId sessionId' signHash h h'
    obtain ⟨session, hsession, rfl⟩ := valid.linked sessionId signHash h
    obtain ⟨session', hsession', rfl⟩ := valid.linked sessionId' signHash h'
    rw [Option.some.inj (hsession.symm.trans hsession')]
  · intro params ann quorum sessionId
    refine ⟨fun h => ?_, fun h => h ▸ Function.update_self _ _ _⟩
    obtain ⟨session, hsession, rfl⟩ := (valid.announce params ann quorum).linked _ _ h
    have hstored := (Function.update_self ann.signHash _ _).symm.trans hsession
    exact congrArg Session.recvSessionId (Option.some.inj hstored).symm

/-- In every run each peer's sessions stand under their own keys with three vectors of one size. -/
theorem run_valid (llmqs : Consensus.LLMQs) (events : List Event) (node : NodeId) :
    ((run llmqs events).value.nodeStates node).Valid :=
  value_foldlM_inv step_valid (fun _ => NodeState.valid_empty) events node

/-- Every call of a run is in range exactly when the size of a quorum is the one of the session's
creation whenever a vector is merged, and the index of a share is below the sizes of the vectors it is
set or looked up in. -/
theorem run_inRange_iff (llmqs : Consensus.LLMQs) (events : List Event) :
    Within BitCall.InRange (run llmqs events) ↔
      Steps.Meets (fun s event => (step s event).value) SizesKept (.start llmqs) events :=
  within_foldlM_iff step_inRange step_valid fun _ => NodeState.valid_empty

def toyAnn : CSigSesAnn := ⟨5, Consensus.LLMQ_50_60, 1, 2, 3⟩

def toyQuorum : CQuorum := ⟨1, (List.range 10).map (BitVec.ofNat 256), .replicate 10 true, true⟩

/-- With five smartnodes quorums have ten members, with four they have three. The vector of three bits
passes the check and meets the ten bits of the session. -/
theorem run_not_inRange :
    ¬ Within BitCall.InRange (run .main [.updateLLMQParams 5 1 false, .sigSesAnn 7 toyAnn (some toyQuorum),
      .updateLLMQParams 4 2 false, .sigSharesInv 7 ⟨5, [true, false, false]⟩ false]) := by
  intro within
  have call : BitCall.merge 10 3 ∈ (run .main [.updateLLMQParams 5 1 false,
      .sigSesAnn 7 toyAnn (some toyQuorum), .updateLLMQParams 4 2 false,
      .sigSharesInv 7 ⟨5, [true, false, false]⟩ false]).trace := by decide +kernel
  exact absurd (within _ call) (by decide)

end ButCore.Llmq.ShareSessions
