import ButCore.Lib.Checked
import ButCore.Llmq.NonLocked

/-!
# Request ids of the inputs that were voted on

The id of an input is a hash of its serialisation. `ProcessTx` and `TruncateRecoveredSigsForInputs`
serialise the outpoint, `RemoveConflictedTx` the whole input with its script and sequence number.
A hash without collisions cannot have 256 bits, so ids are any type with a hash of byte sequences.
Signing itself and the recovered signatures are left out.
-/
namespace ButCore.Llmq.InputRequests
open InstantSendDb (Lock)
open NonLocked Checked

def leBytes {w : ℕ} (count : ℕ) (x : BitVec w) : List (BitVec 8) :=
  (List.range count).map fun i => (x >>> (8 * i)).setWidth 8

def writeCompactSize (nSize : ℕ) : List (BitVec 8) :=
  if nSize < 253 then [BitVec.ofNat 8 nSize]
  else if nSize ≤ 0xffff then 253 :: leBytes 2 (BitVec.ofNat 16 nSize)
  else if nSize ≤ 0xffffffff then 254 :: leBytes 4 (BitVec.ofNat 32 nSize)
  else 255 :: leBytes 8 (BitVec.ofNat 64 nSize)

def serializeBytes (bytes : List (BitVec 8)) : List (BitVec 8) :=
  writeCompactSize bytes.length ++ bytes

def serializeOutPoint (o : COutPoint) : List (BitVec 8) := leBytes 32 o.hash ++ leBytes 4 o.n

def serializeTxIn (txin : CTxIn) : List (BitVec 8) :=
  serializeOutPoint txin.prevout ++ serializeBytes txin.scriptSig ++ leBytes 4 txin.nSequence

def INPUTLOCK_REQUESTID_PREFIX : List (BitVec 8) := [0x69, 0x6e, 0x6c, 0x6f, 0x63, 0x6b]

section

variable {κ : Type} (serializeHash : List (BitVec 8) → κ)

def inputRequestId (prevout : COutPoint) : κ :=
  serializeHash (serializeBytes INPUTLOCK_REQUESTID_PREFIX ++ serializeOutPoint prevout)

/-- The id that `RemoveConflictedTx` makes from an input. -/
def conflictedRequestId (txin : CTxIn) : κ :=
  serializeHash (serializeBytes INPUTLOCK_REQUESTID_PREFIX ++ serializeTxIn txin)

structure SigningView (κ : Type) where
  isInstantSendEnabled : Bool
  hasLlmqType : Bool
  fSmartnodeMode : Bool
  isBlockchainSynced : Bool
  checkCanLock : Bool
  conflictingLock : Bool
  getVoteForId : κ → Option Uint256
  isConflicting : κ → Uint256 → Bool

structure InstantSendRequests (κ : Type) where
  nonLocked : NonLockedTxs
  inputRequestIds : Finset κ

def countVotes (view : SigningView κ) (txid : Uint256) : List κ → ℕ → Except Bool ℕ
  | [], alreadyVotedCount => .ok alreadyVotedCount
  | id :: rest, alreadyVotedCount => do
    failIf ((view.getVoteForId id).any (fun otherTxHash => otherTxHash ≠ txid) = true) false
    failIf (view.isConflicting id txid = true) false
    countVotes view txid rest
      (if (view.getVoteForId id).isSome then alreadyVotedCount + 1 else alreadyVotedCount)

/-- The checks of `ProcessTx`; an error is an early return with this value. -/
def processTxChecks (view : SigningView κ) (tx : CTransaction) (allowReSigning : Bool) :
    Except Bool Unit := do
  failIf (view.isInstantSendEnabled = false) true
  failIf (view.hasLlmqType = false) true
  failIf (view.fSmartnodeMode = false) true
  failIf (view.isBlockchainSynced = false) true
  failIf (view.checkCanLock = false) false
  failIf (view.conflictingLock = true) false
  let alreadyVotedCount ← countVotes view tx.hash
    ((prevouts tx).map (inputRequestId serializeHash)) 0
  failIf (allowReSigning = false ∧ alreadyVotedCount = tx.vin.length) true

variable [DecidableEq κ]

namespace InstantSendRequests

def processTx (s : InstantSendRequests κ) (view : SigningView κ) (tx : CTransaction)
    (allowReSigning : Bool) : Bool × InstantSendRequests κ :=
  match processTxChecks serializeHash view tx allowReSigning with
  | .error result => (result, s)
  | .ok () =>
    (true, { s with
      inputRequestIds :=
        s.inputRequestIds ∪ ((prevouts tx).map (inputRequestId serializeHash)).toFinset })

def truncateRecoveredSigsForInputs (s : InstantSendRequests κ) (islock : Lock) :
    InstantSendRequests κ :=
  { s with
    inputRequestIds := islock.inputs.foldl
      (fun ids prevout => ids.erase (inputRequestId serializeHash prevout)) s.inputRequestIds }

def processInstantSendLock (s : InstantSendRequests κ) (islock : Lock) : InstantSendRequests κ :=
  truncateRecoveredSigsForInputs serializeHash
    { s with nonLocked := s.nonLocked.removeNonLockedTx islock.txid true } islock

def removeConflictedTx (s : InstantSendRequests κ) (tx : CTransaction) : InstantSendRequests κ where
  nonLocked := s.nonLocked.removeNonLockedTx tx.hash false
  inputRequestIds := tx.vin.foldl
    (fun ids txin => ids.erase (conflictedRequestId serializeHash txin)) s.inputRequestIds

end InstantSendRequests

inductive RequestCall (κ : Type) where
  | processTx (view : SigningView κ) (tx : CTransaction) (allowReSigning : Bool)
  | processInstantSendLock (islock : Lock)
  | truncateRecoveredSigsForInputs (islock : Lock)
  | removeConflictedTx (tx : CTransaction)
  | nonLocked (call : NonLockedCall)

/-- The manager and the transactions that were voted on and since then neither locked nor removed as
conflicted. -/
structure Voting (κ : Type) where
  manager : InstantSendRequests κ
  pending : List CTransaction

def Voting.empty : Voting κ := ⟨⟨.empty, ∅⟩, []⟩

def requestStep (s : Voting κ) : RequestCall κ → Voting κ
  | .processTx view tx allowReSigning =>
    { manager := (s.manager.processTx serializeHash view tx allowReSigning).2
      pending := match processTxChecks serializeHash view tx allowReSigning with
        | .error _ => s.pending
        | .ok () => tx :: s.pending }
  | .processInstantSendLock islock =>
    { manager := s.manager.processInstantSendLock serializeHash islock
      pending := s.pending.filter fun tx => tx.hash ≠ islock.txid }
  | .truncateRecoveredSigsForInputs islock =>
    { s with manager := s.manager.truncateRecoveredSigsForInputs serializeHash islock }
  | .removeConflictedTx tx =>
    { manager := s.manager.removeConflictedTx serializeHash tx
      pending := s.pending.filter fun tx' => tx' ≠ tx }
  | .nonLocked call =>
    { s with manager := { s.manager with nonLocked := nonLockedStep s.manager.nonLocked call } }

def IdsPending (s : Voting κ) : Prop :=
  ∀ id ∈ s.manager.inputRequestIds, ∃ tx ∈ s.pending, ∃ prevout ∈ prevouts tx,
    id = inputRequestId serializeHash prevout

/-- A lock names the inputs of its transaction, as quorums sign it; and the inputs of a removed
transaction that still have an id are inputs of another pending one. -/
def KeepsRequests (s : Voting κ) : RequestCall κ → Prop
  | .processInstantSendLock islock =>
    ∀ tx ∈ s.pending, tx.hash = islock.txid → islock.inputs = prevouts tx
  | .removeConflictedTx tx =>
    ∀ prevout ∈ prevouts tx, inputRequestId serializeHash prevout ∈ s.manager.inputRequestIds →
      ∃ other ∈ s.pending, other ≠ tx ∧ prevout ∈ prevouts other
  | _ => True

end

section

variable {κ : Type} {serializeHash : List (BitVec 8) → κ}

theorem length_leBytes {w : ℕ} (count : ℕ) (x : BitVec w) : (leBytes count x).length = count := by
  rw [leBytes, List.length_map, List.length_range]

theorem length_serializeOutPoint (o : COutPoint) : (serializeOutPoint o).length = 36 := by
  rw [serializeOutPoint, List.length_append, length_leBytes, length_leBytes]

theorem conflictedRequestId_ne (inj : Function.Injective serializeHash) (txin : CTxIn)
    (prevout : COutPoint) :
    conflictedRequestId serializeHash txin ≠ inputRequestId serializeHash prevout := by
  intro heq
  have hlength := congrArg List.length (List.append_cancel_left (inj heq))
  rw [serializeTxIn, List.length_append, List.length_append, length_serializeOutPoint,
    length_serializeOutPoint, length_leBytes] at hlength
  omega

variable [DecidableEq κ]

theorem mem_foldl_erase {ι : Type} (key : ι → κ) (xs : List ι) (ids : Finset κ) (id : κ) :
    id ∈ xs.foldl (fun ids x => ids.erase (key x)) ids ↔ id ∈ ids ∧ ∀ x ∈ xs, key x ≠ id := by
  induction xs generalizing ids with
  | nil => simp
  | cons x xs ih =>
    rw [List.foldl_cons, ih, Finset.mem_erase, List.forall_mem_cons]
    tauto

theorem mem_removeConflictedTx (inj : Function.Injective serializeHash)
    (s : InstantSendRequests κ) (tx : CTransaction) (prevout : COutPoint) :
    inputRequestId serializeHash prevout ∈
        (s.removeConflictedTx serializeHash tx).inputRequestIds ↔
      inputRequestId serializeHash prevout ∈ s.inputRequestIds := by
  unfold InstantSendRequests.removeConflictedTx
  rw [mem_foldl_erase]
  exact and_iff_left fun txin _ => conflictedRequestId_ne inj txin prevout

theorem mem_truncate (s : InstantSendRequests κ) (islock : Lock) (id : κ) :
    id ∈ (s.truncateRecoveredSigsForInputs serializeHash islock).inputRequestIds ↔
      id ∈ s.inputRequestIds ∧ ∀ prevout ∈ islock.inputs, inputRequestId serializeHash prevout ≠ id :=
  mem_foldl_erase _ _ _ _

theorem IdsPending.step {s : Voting κ} (ids : IdsPending serializeHash s) {call : RequestCall κ}
    (keeps : KeepsRequests serializeHash s call) :
    IdsPending serializeHash (requestStep serializeHash s call) := by
  cases call with
  | processTx view tx allowReSigning =>
    intro id hid
    unfold requestStep InstantSendRequests.processTx at hid
    unfold requestStep
    dsimp only at hid ⊢
    cases hchecks : processTxChecks serializeHash view tx allowReSigning with
    | error result =>
      rw [hchecks] at hid
      exact ids id hid
    | ok u =>
      rw [hchecks] at hid
      rw [Finset.mem_union, List.mem_toFinset, List.mem_map] at hid
      rcases hid with hid | ⟨prevout, hprevout, rfl⟩
      · obtain ⟨tx', htx', rest⟩ := ids id hid
        exact ⟨tx', List.mem_cons_of_mem tx htx', rest⟩
      · exact ⟨tx, List.mem_cons_self, prevout, hprevout, rfl⟩
  | processInstantSendLock islock =>
    intro id hid
    obtain ⟨hid, herased⟩ := (mem_truncate _ islock id).mp hid
    obtain ⟨tx, htx, prevout, hprevout, rfl⟩ := ids id hid
    refine ⟨tx, List.mem_filter.mpr ⟨htx, decide_eq_true fun hlocked => ?_⟩, prevout, hprevout,
      rfl⟩
    rw [keeps tx htx hlocked] at herased
    exact herased prevout hprevout rfl
  | truncateRecoveredSigsForInputs islock =>
    intro id hid
    exact ids id ((mem_truncate _ islock id).mp hid).1
  | removeConflictedTx tx =>
    intro id hid
    have hbefore : id ∈ s.manager.inputRequestIds := ((mem_foldl_erase _ _ _ _).mp hid).1
    obtain ⟨tx', htx', prevout, hprevout, rfl⟩ := ids id hbefore
    by_cases hsame : tx' = tx
    · subst hsame
      obtain ⟨other, hother, hne, hshared⟩ := keeps prevout hprevout hbefore
      exact ⟨other, List.mem_filter.mpr ⟨hother, decide_eq_true hne⟩, prevout, hshared, rfl⟩
    · exact ⟨tx', List.mem_filter.mpr ⟨htx', decide_eq_true hsame⟩, prevout, hprevout, rfl⟩
  | nonLocked call => exact ids

end

/-- With a hash free of collisions, no id of an input is left after `RemoveConflictedTx` iff none was
there before; and in a run where the inputs of a removed transaction that have an id are inputs of
another pending one, every id belongs to a pending transaction. -/
theorem inputRequestIds_pending {κ : Type} [DecidableEq κ] (serializeHash : List (BitVec 8) → κ)
    (inj : Function.Injective serializeHash) :
    (∀ (s : InstantSendRequests κ) (tx : CTransaction),
      (∀ prevout ∈ prevouts tx, inputRequestId serializeHash prevout ∉
          (s.removeConflictedTx serializeHash tx).inputRequestIds) ↔
        ∀ prevout ∈ prevouts tx, inputRequestId serializeHash prevout ∉ s.inputRequestIds) ∧
    ∀ calls : List (RequestCall κ),
      Steps.Meets (requestStep serializeHash) (KeepsRequests serializeHash) .empty calls →
        IdsPending serializeHash (Steps.run (requestStep serializeHash) .empty calls) := by
  constructor
  · intro s tx
    simp only [mem_removeConflictedTx inj]
  · intro calls keeps
    refine Steps.run_inv (fun _ _ ids keeps => ids.step keeps) ?_ keeps
    intro id hid
    cases hid

def toyView : SigningView (List (BitVec 8)) :=
  ⟨true, true, true, true, true, false, fun _ => none, fun _ _ => false⟩

/-- The votes on two transactions with one input; one is removed as conflicted, the other locked. -/
theorem inputRequestIds_pending_locked :
    IdsPending id (Steps.run (requestStep id) .empty
      [.processTx toyView (toyTx 10 1) false, .processTx toyView (toyTx 11 1) false,
        .removeConflictedTx (toyTx 11 1), .processInstantSendLock ⟨[⟨1, 0⟩], 10, none⟩]) := by
  refine (inputRequestIds_pending id Function.injective_id).2 _ ⟨trivial, trivial,
    fun prevout mem _ => ⟨toyTx 10 1, by decide, by decide, mem⟩, ?_, trivial⟩
  unfold KeepsRequests
  decide

/-- A transaction is voted on and then removed as conflicted; the id of its input stays. -/
theorem inputRequestIds_kept :
    (inputRequestId id ⟨1, 0⟩ ∈ (Steps.run (requestStep id) .empty
        [.processTx toyView (toyTx 10 1) false, .removeConflictedTx (toyTx 10 1)]
          ).manager.inputRequestIds) ∧
      ¬ IdsPending id (Steps.run (requestStep id) .empty
        [.processTx toyView (toyTx 10 1) false, .removeConflictedTx (toyTx 10 1)]) := by
  have hkept : inputRequestId id ⟨1, 0⟩ ∈ (Steps.run (requestStep id) .empty
      [.processTx toyView (toyTx 10 1) false, .removeConflictedTx (toyTx 10 1)]
        ).manager.inputRequestIds := by
    decide +kernel
  refine ⟨hkept, fun ids => ?_⟩
  obtain ⟨tx, htx, -⟩ := ids _ hkept
  have hpending : (Steps.run (requestStep id) .empty
      [.processTx toyView (toyTx 10 1) false, .removeConflictedTx (toyTx 10 1)]).pending = [] := by
    decide +kernel
  rw [hpending] at htx
  cases htx

end ButCore.Llmq.InputRequests
