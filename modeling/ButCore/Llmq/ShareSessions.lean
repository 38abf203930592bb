import ButCore.Lib.Table
import ButCore.Lib.Traced
import ButCore.Llmq.Params
import ButCore.Llmq.SigShares

/-!
# The signing sessions of the peers

`CSigSharesNodeState`: the sessions of a peer, each with three bit vectors for the shares that the peer
has announced, requested and knows. They get the size of the quorum when the session is created, and
the size of a received vector is compared with the parameters in force when it comes in. A session
stands for its sign hash, and a pointer to a session for the key it is stored under.
-/
namespace ButCore.Llmq.ShareSessions

open SigShares Traced

abbrev NodeId := ℤ

abbrev SessionKey := SignHash LLMQType Uint256

structure CSigSesAnn where
  sessionId : BitVec 32
  llmqType : LLMQType
  quorumHash : Uint256
  id : Uint256
  msgHash : Uint256

def CSigSesAnn.signHash (ann : CSigSesAnn) : SessionKey :=
  ⟨ann.llmqType, ann.quorumHash, ann.id, ann.msgHash⟩

/-! ### Bit vectors -/

/-- A call on a vector of this length, with a vector of that length or with an index: `Merge`, `Set`
and the `[]` of the vector itself. `IsSet` is never called. -/
inductive BitCall where
  | merge (length other : ℕ)
  | set (length quorumMember : ℕ)
  | index (length quorumMember : ℕ)
  deriving DecidableEq

def BitCall.InRange : BitCall → Prop
  | merge length other => length = other
  | set length quorumMember => quorumMember < length
  | index length quorumMember => quorumMember < length

instance : ∀ call : BitCall, Decidable call.InRange
  | .merge length other => inferInstanceAs (Decidable (length = other))
  | .set length quorumMember => inferInstanceAs (Decidable (quorumMember < length))
  | .index length quorumMember => inferInstanceAs (Decidable (quorumMember < length))

structure CSigSharesInv where
  sessionId : BitVec 32
  inv : List Bool

namespace CSigSharesInv

variable (inv : List Bool)

def init (size : ℕ) : List Bool := inv.takeD size false

/-- A bit past the end counts as not set. -/
def bit (i : ℕ) : Bool := inv.getD i false

/-- The loop runs over `inv` and reads the same places of `inv2`. -/
def merge (inv2 : List Bool) : Traced BitCall (List Bool) :=
  emit (.merge inv.length inv2.length) (inv.mapIdx fun i b => if bit inv2 i then true else b)

def set (quorumMember : ℕ) (v : Bool) : Traced BitCall (List Bool) :=
  emit (.set inv.length quorumMember) (List.set inv quorumMember v)

def read (quorumMember : ℕ) : Traced BitCall Bool :=
  emit (.index inv.length quorumMember) (bit inv quorumMember)

def write (quorumMember : ℕ) (v : Bool) : Traced BitCall (List Bool) :=
  emit (.index inv.length quorumMember) (List.set inv quorumMember v)

@[simp] theorem length_init (size : ℕ) : (init inv size).length = size := List.takeD_length _ _ _

@[simp] theorem length_merge (inv2 : List Bool) : (merge inv inv2).value.length = inv.length := by
  simp [merge]

@[simp] theorem length_set (quorumMember : ℕ) (v : Bool) :
    (set inv quorumMember v).value.length = inv.length := by
  simp [set]

theorem merge_inRange (inv2 : List Bool) :
    Within BitCall.InRange (merge inv inv2) ↔ inv.length = inv2.length := within_emit_iff _

theorem set_inRange (quorumMember : ℕ) (v : Bool) :
    Within BitCall.InRange (set inv quorumMember v) ↔ quorumMember < inv.length := within_emit_iff _

theorem read_inRange (quorumMember : ℕ) :
    Within BitCall.InRange (read inv quorumMember) ↔ quorumMember < inv.length := within_emit_iff _

theorem write_inRange (quorumMember : ℕ) (v : Bool) :
    Within BitCall.InRange (write inv quorumMember v) ↔ quorumMember < inv.length := within_emit_iff _

end CSigSharesInv

/-! ### Sessions -/

structure CQuorum where
  quorumHash : Uint256
  members : List Uint256
  validMembers : List Bool
  hasVvec : Bool
  deriving DecidableEq

/-- `createdSize` is no field of the source: the size its vectors were given. -/
structure Session where
  recvSessionId : BitVec 32
  signHash : SessionKey
  quorum : Option CQuorum
  announced : List Bool
  requested : List Bool
  knows : List Bool
  createdSize : ℕ

def Session.new (signHash : SessionKey) : Session := ⟨-1, signHash, none, [], [], [], 0⟩

def Session.hasVvec (session : Session) : Bool := session.quorum.any CQuorum.hasVvec

def initSession (size : ℕ) (signHash : SessionKey) (s : Session) : Session :=
  { s with
    signHash := signHash
    announced := CSigSharesInv.init s.announced size
    requested := CSigSharesInv.init s.requested size
    knows := CSigSharesInv.init s.knows size
    createdSize := size }

structure NodeState where
  sessions : SessionKey → Option Session
  sessionByRecvId : BitVec 32 → Option SessionKey

namespace NodeState

def empty : NodeState := ⟨fun _ => none, fun _ => none⟩

variable (ns : NodeState)

/-- `GetOrCreateSessionFromShare` and `GetOrCreateSessionFromAnn`, without storing the session. -/
def getOrCreateSession (params : Consensus.LLMQParams) (signHash : SessionKey) : Session :=
  let s := (ns.sessions signHash).getD (.new signHash)
  if s.announced = [] then initSession params.size signHash s else s

def getSessionByRecvId (sessionId : BitVec 32) : Option Session :=
  (ns.sessionByRecvId sessionId).bind ns.sessions

def store (session : Session) : NodeState :=
  { ns with sessions := Function.update ns.sessions session.signHash (some session) }

def removeSession (signHash : SessionKey) : NodeState :=
  match ns.sessions signHash with
  | none => ns
  | some session =>
    { sessions := Function.update ns.sessions signHash none
      sessionByRecvId := Function.update ns.sessionByRecvId session.recvSessionId none }

/-- The part of `ProcessMessageSigSesAnn` under the lock. -/
def announce (params : Consensus.LLMQParams) (ann : CSigSesAnn) (quorum : CQuorum) : NodeState :=
  let session := ns.getOrCreateSession params ann.signHash
  let erased := Function.update ns.sessionByRecvId session.recvSessionId none
  { sessions := Function.update ns.sessions ann.signHash
      (some { session with recvSessionId := ann.sessionId, quorum := some quorum })
    sessionByRecvId := Function.update (Function.update erased ann.sessionId none) ann.sessionId
      (some ann.signHash) }

theorem sessionByRecvId_announce (params : Consensus.LLMQParams) (ann : CSigSesAnn)
    (quorum : CQuorum) :
    (ns.announce params ann quorum).sessionByRecvId =
      Function.update (Function.update (Function.update ns.sessionByRecvId
        (ns.getOrCreateSession params ann.signHash).recvSessionId none) ann.sessionId none)
        ann.sessionId (some ann.signHash) := rfl

end NodeState

/-! ### Messages

A handler that returns `false` has the peer banned. -/

section

variable (llmqs : Consensus.LLMQs) (ns : NodeState)

def wellFormedAnn (ann : CSigSesAnn) : Bool :=
  (llmqs.lookup ann.llmqType).isSome && decide (ann.sessionId ≠ -1) && decide (ann.quorumHash ≠ 0) &&
    decide (ann.id ≠ 0) && decide (ann.msgHash ≠ 0)

/-- `quorum` is what `GetQuorum` returns. -/
def processMessageSigSesAnn (quorum : Option CQuorum) (ann : CSigSesAnn) : Bool × NodeState :=
  match llmqs.lookup ann.llmqType with
  | none => (false, ns)
  | some params =>
    if wellFormedAnn llmqs ann then
      match quorum with
      | none => (true, ns)
      | some quorum => (true, ns.announce params ann quorum)
    else (false, ns)

theorem processMessageSigSesAnn_cases (quorum : Option CQuorum) (ann : CSigSesAnn) :
    (processMessageSigSesAnn llmqs ns quorum ann).2 = ns ∨ ∃ params q, quorum = some q ∧
      (processMessageSigSesAnn llmqs ns quorum ann).2 = ns.announce params ann q := by
  unfold processMessageSigSesAnn
  split
  · exact .inl rfl
  · next params _ =>
      split
      · cases quorum with
        | none => exact .inl rfl
        | some q => exact .inr ⟨params, q, rfl, rfl⟩
      · exact .inl rfl

def quorumSize (llmqType : LLMQType) : Option ℕ := (llmqs.lookup llmqType).map (·.size)

def verifySigSharesInv (llmqType : LLMQType) (inv : CSigSharesInv) : Bool :=
  decide (quorumSize llmqs llmqType = some inv.inv.length)

/-- What `ProcessMessageSigSharesInv` and `ProcessMessageGetSigShares` have in common. `recovered` is
what `HasRecoveredSigForSession` returns, `wanted` is a last check of the session. -/
def processInv (recovered : Bool) (wanted : Session → Bool) (inv : CSigSharesInv)
    (merge : Session → Traced BitCall Session) : Traced BitCall (Bool × NodeState) :=
  match ns.getSessionByRecvId inv.sessionId with
  | none => pure (true, ns)
  | some session =>
    if verifySigSharesInv llmqs session.signHash.llmqType inv = false then pure (false, ns)
    else if recovered then pure (true, ns)
    else if wanted session = false then pure (true, ns)
    else do
      let session ← merge session
      pure (true, ns.store session)

def Session.mergeAnnounced (inv : List Bool) (session : Session) : Traced BitCall Session := do
  let announced ← CSigSharesInv.merge session.announced inv
  let knows ← CSigSharesInv.merge session.knows inv
  pure { session with announced := announced, knows := knows }

def Session.mergeRequested (inv : List Bool) (session : Session) : Traced BitCall Session := do
  let requested ← CSigSharesInv.merge session.requested inv
  let knows ← CSigSharesInv.merge session.knows inv
  pure { session with requested := requested, knows := knows }

def processMessageSigSharesInv (recovered : Bool) (inv : CSigSharesInv) :
    Traced BitCall (Bool × NodeState) :=
  processInv llmqs ns recovered Session.hasVvec inv (Session.mergeAnnounced inv.inv)

def processMessageGetSigShares (recovered : Bool) (inv : CSigSharesInv) :
    Traced BitCall (Bool × NodeState) :=
  processInv llmqs ns recovered (fun _ => true) inv (Session.mergeRequested inv.inv)

/-- What `ProcessSigShare` does with a share of our own for one node of the quorum. -/
def pushShare (quorum : CQuorum) (key : SigShareKey LLMQType Uint256) :
    Traced BitCall NodeState :=
  match llmqs.lookup key.1.llmqType with
  -- `at` throws
  | none => pure ns
  | some params => do
    let session := ns.getOrCreateSession params key.1
    let requested ← CSigSharesInv.set session.requested key.2 true
    let knows ← CSigSharesInv.set session.knows key.2 true
    pure (ns.store { session with quorum := some quorum, requested := requested, knows := knows })

/-- The vector that is collected for a node and a session; it gets its size with its first bit. -/
def collected (params : Consensus.LLMQParams) (inv : List Bool) : List Bool :=
  if inv = [] then CSigSharesInv.init inv params.size else inv

/-- What `CollectSigSharesToAnnounce` does with a share for one node of the quorum; `inv` is what it
has collected for the node. -/
def announceShare (key : SigShareKey LLMQType Uint256) (inv : List Bool) : Traced BitCall NodeState :=
  match llmqs.lookup key.1.llmqType with
  | none => pure ns
  | some params => do
    let session := ns.getOrCreateSession params key.1
    let known ← CSigSharesInv.read session.knows key.2
    if known then pure (ns.store session)
    else do
      let _ ← CSigSharesInv.write (collected params inv) key.2 true
      let knows ← CSigSharesInv.write session.knows key.2 true
      pure (ns.store { session with knows := knows })

/-- What `CollectSigSharesToRequest` does with the place `i` of an announced vector, unless the share
has to wait. `has` tells whether it is there already. -/
def requestShare (signHash : SessionKey) (i : ℕ) (has : Bool) (inv : List Bool) :
    Traced BitCall NodeState :=
  match ns.sessions signHash with
  | none => pure ns
  | some session =>
    let cleared := ns.store { session with announced := session.announced.set i false }
    if CSigSharesInv.bit session.announced i = false then pure ns
    else if has then pure cleared
    else
      match llmqs.lookup session.signHash.llmqType with
      | none => pure ns
      | some params => do
        let _ ← CSigSharesInv.write (collected params inv) (i % 2 ^ 16) true
        pure cleared

def clearVector (clear : Session → Session) (signHash : SessionKey) : NodeState :=
  match ns.sessions signHash with
  | none => ns
  | some session => ns.store (clear session)

/-- What `ForceReAnnouncement` does with the session of a peer. -/
def forgetKnown : SessionKey → NodeState :=
  clearVector ns fun session => { session with knows := session.knows.map fun _ => false }

/-- What `CollectSigSharesToSend` does with it: a loop over the vector's own places. -/
def forgetRequested : SessionKey → NodeState :=
  clearVector ns fun session => { session with requested := session.requested.map fun _ => false }

end

/-! ### What holds of every peer -/

structure Session.Sized (s : Session) : Prop where
  announced : s.announced.length = s.createdSize
  requested : s.requested.length = s.createdSize
  knows : s.knows.length = s.createdSize

/-- No pointer dangles, and the vectors of a session are of one size. -/
structure NodeState.Valid (ns : NodeState) : Prop where
  keyed : ∀ signHash session, ns.sessions signHash = some session → session.signHash = signHash
  sized : ∀ signHash session, ns.sessions signHash = some session → session.Sized
  linked : ∀ sessionId signHash, ns.sessionByRecvId sessionId = some signHash →
    ∃ session, ns.sessions signHash = some session ∧ session.recvSessionId = sessionId

theorem NodeState.valid_empty : NodeState.empty.Valid where
  keyed _ _ h := by cases h
  sized _ _ h := by cases h
  linked _ _ h := by cases h

def NodeState.vectorSize (ns : NodeState) (params : Consensus.LLMQParams) (signHash : SessionKey) : ℕ :=
  match ns.sessions signHash with
  | none => params.size
  | some session => if session.createdSize = 0 then params.size else session.createdSize

namespace NodeState.Valid

variable {ns : NodeState} {params : Consensus.LLMQParams} {signHash : SessionKey} {session : Session}

theorem sized_initSession (size : ℕ) (signHash : SessionKey) (s : Session) :
    (initSession size signHash s).Sized :=
  ⟨CSigSharesInv.length_init _ _, CSigSharesInv.length_init _ _, CSigSharesInv.length_init _ _⟩

theorem getOrCreateSession (valid : ns.Valid) (params : Consensus.LLMQParams) (signHash : SessionKey) :
    (ns.getOrCreateSession params signHash).signHash = signHash ∧
      (ns.getOrCreateSession params signHash).Sized ∧
      (ns.getOrCreateSession params signHash).createdSize = ns.vectorSize params signHash := by
  unfold NodeState.getOrCreateSession NodeState.vectorSize
  cases h : ns.sessions signHash with
  | none => exact ⟨rfl, sized_initSession _ _ _, rfl⟩
  | some session =>
    have sized := valid.sized signHash session h
    by_cases hempty : session.announced = []
    · have hzero : session.createdSize = 0 := by rw [← sized.announced, hempty]; rfl
      simp only [Option.getD_some, if_pos hempty, if_pos hzero]
      exact ⟨rfl, sized_initSession _ _ _, rfl⟩
    · have hpos : session.createdSize ≠ 0 := by
        rw [← sized.announced]
        simpa using hempty
      simp only [Option.getD_some, if_neg hempty, if_neg hpos]
      exact ⟨valid.keyed signHash session h, sized, trivial⟩

theorem getOrCreateSession_recvSessionId (h : ns.sessions signHash = some session) :
    (ns.getOrCreateSession params signHash).recvSessionId = session.recvSessionId := by
  simp only [NodeState.getOrCreateSession, h, Option.getD_some]
  split
  · rfl
  · rfl

theorem store (valid : ns.Valid) (sized : session.Sized)
    (same : ∀ old, ns.sessions session.signHash = some old →
      session.recvSessionId = old.recvSessionId) : (ns.store session).Valid where
  keyed _ _ h := Table.update_some_forall (P := fun key s => s.signHash = key) valid.keyed rfl h
  sized _ _ h := Table.update_some_forall valid.sized sized h
  linked sessionId key h := by
    obtain ⟨old, hold, hid⟩ := valid.linked sessionId key h
    by_cases hkey : key = session.signHash
    · subst hkey
      exact ⟨session, Function.update_self _ _ _, (same old hold).trans hid⟩
    · exact ⟨old, (Function.update_of_ne hkey _ _).trans hold, hid⟩

theorem removeSession (valid : ns.Valid) (signHash : SessionKey) : (ns.removeSession signHash).Valid := by
  unfold NodeState.removeSession
  split
  · exact valid
  · next session hsession =>
      constructor
      · exact fun key s h => valid.keyed key s (Table.update_none_eq_some.mp h).1
      · exact fun key s h => valid.sized key s (Table.update_none_eq_some.mp h).1
      · intro sessionId key h
        obtain ⟨hlink, hid⟩ := Table.update_none_eq_some.mp h
        obtain ⟨s, hs, rfl⟩ := valid.linked sessionId key hlink
        refine ⟨s, Table.update_none_eq_some.mpr ⟨hs, ?_⟩, rfl⟩
        rintro rfl
        rw [hsession, Option.some.injEq] at hs
        exact hid (by rw [hs])

theorem announce (valid : ns.Valid) (params : Consensus.LLMQParams) (ann : CSigSesAnn)
    (quorum : CQuorum) : (ns.announce params ann quorum).Valid := by
  obtain ⟨keyed, sized, -⟩ := valid.getOrCreateSession params ann.signHash
  constructor
  · intro key s h
    exact Table.update_some_forall (P := fun key s => s.signHash = key) valid.keyed keyed h
  · intro key s h
    refine Table.update_some_forall valid.sized ?_ h
    exact ⟨sized.announced, sized.requested, sized.knows⟩
  · intro sessionId key h
    by_cases hid : sessionId = ann.sessionId
    · subst hid
      rw [sessionByRecvId_announce, Function.update_self, Option.some.injEq] at h
      subst h
      exact ⟨_, Function.update_self _ _ _, rfl⟩
    · rw [sessionByRecvId_announce, Function.update_of_ne hid, Function.update_of_ne hid] at h
      obtain ⟨hlink, herased⟩ := Table.update_none_eq_some.mp h
      obtain ⟨s, hs, rfl⟩ := valid.linked sessionId key hlink
      refine ⟨s, (Function.update_of_ne ?_ _ _).trans hs, rfl⟩
      -- a link to the announced session would carry the id that was erased
      rintro rfl
      exact herased (getOrCreateSession_recvSessionId hs)

theorem processMessageSigSesAnn (valid : ns.Valid) (llmqs : Consensus.LLMQs) (quorum : Option CQuorum)
    (ann : CSigSesAnn) : (processMessageSigSesAnn llmqs ns quorum ann).2.Valid := by
  obtain h | ⟨params, q, -, h⟩ := processMessageSigSesAnn_cases llmqs ns quorum ann
  · rw [h]
    exact valid
  · rw [h]
    exact valid.announce params ann q

end NodeState.Valid

end ButCore.Llmq.ShareSessions
