import ButCore.Lib.Keyed
import ButCore.Governance.OrphanVotes

/-!
# The votes of a governance object

`ProcessVote` keeps, per smartnode and signal, the outcome and time of the vote that counts, and the
votes themselves in a file.
-/
namespace ButCore.Governance

open Std (ExtTreeMap)

structure SignedVote (σ : Type) extends CGovernanceVote where
  vchSig : σ

section

variable {κ σ : Type} [DecidableEq κ] (getHash : CGovernanceVote → κ)

/-- `CGovernanceObjectVoteFile`; a list node is known by a number that is never used again. -/
structure VoteFile (κ σ : Type) where
  nMemoryVotes : ℤ
  listVotes : List (ℕ × SignedVote σ)
  mapVoteIndex : κ → Option ℕ
  nextNode : ℕ

namespace VoteFile

variable (file : VoteFile κ σ)

def hasVote (nHash : κ) : Bool := (file.mapVoteIndex nHash).isSome

def removeVotes (gone : SignedVote σ → Bool) : VoteFile κ σ where
  nMemoryVotes := file.nMemoryVotes - file.listVotes.countP (gone ·.2)
  listVotes := file.listVotes.filter (!gone ·.2)
  mapVoteIndex := fun nHash =>
    if ∃ node ∈ file.listVotes, gone node.2 ∧ getHash node.2.toCGovernanceVote = nHash then none
    else file.mapVoteIndex nHash
  nextNode := file.nextNode

def removeOldVotes (vote : SignedVote σ) : VoteFile κ σ :=
  file.removeVotes getHash fun v =>
    decide (v.smartnodeOutpoint = vote.smartnodeOutpoint) &&
    decide (v.nParentHash = vote.nParentHash) && decide (v.nVoteSignal = vote.nVoteSignal) &&
    decide (v.nTime < vote.nTime)

def removeVotesFromSmartnode (outpoint : COutPoint) : VoteFile κ σ :=
  file.removeVotes getHash fun v => decide (v.smartnodeOutpoint = outpoint)

def addVote (vote : SignedVote σ) : VoteFile κ σ :=
  if file.hasVote (getHash vote.toCGovernanceVote) then file
  else
    removeOldVotes getHash
      { nMemoryVotes := file.nMemoryVotes + 1
        listVotes := (file.nextNode, vote) :: file.listVotes
        mapVoteIndex := Function.update file.mapVoteIndex (getHash vote.toCGovernanceVote)
          (some file.nextNode)
        nextNode := file.nextNode + 1 } vote

def empty : VoteFile κ σ := ⟨0, [], fun _ => none, 0⟩

structure Inv : Prop where
  count : file.nMemoryVotes = file.listVotes.length
  index : ∀ nHash node, file.mapVoteIndex nHash = some node ↔
    ∃ v, (node, v) ∈ file.listVotes ∧ getHash v.toCGovernanceVote = nHash
  nodes : (file.listVotes.map Prod.fst).Nodup
  fresh : ∀ node ∈ file.listVotes, node.1 < file.nextNode

variable {getHash file}

omit [DecidableEq κ] in
theorem inv_empty : Inv getHash (empty : VoteFile κ σ) :=
  ⟨rfl, by simp [empty], by simp [empty], by simp [empty]⟩

omit [DecidableEq κ] in
theorem Inv.hasVote_iff (inv : Inv getHash file) {nHash : κ} :
    file.hasVote nHash = true ↔
      ∃ node ∈ file.listVotes, getHash node.2.toCGovernanceVote = nHash := by
  simp only [hasVote, Option.isSome_iff_exists, inv.index, Prod.exists]

theorem Inv.removeVotes (inv : Inv getHash file) (gone : SignedVote σ → Bool) :
    Inv getHash (file.removeVotes getHash gone) where
  count := by
    have split := List.length_eq_countP_add_countP (gone ·.2) (l := file.listVotes)
    simp only [VoteFile.removeVotes, inv.count, ← List.countP_eq_length_filter]
    have same : file.listVotes.countP (fun a => decide ¬gone a.2 = true) =
        file.listVotes.countP (!gone ·.2) := by
      congr 1
      funext a
      cases gone a.2 <;> rfl
    omega
  index nHash node := by
    simp only [VoteFile.removeVotes, List.mem_filter]
    split
    case isTrue h =>
      obtain ⟨⟨other, w⟩, mem, hw, rfl⟩ := h
      constructor
      · intro h
        cases h
      · rintro ⟨v, ⟨hv, kept⟩, same⟩
        -- one hash has one node, and one node has one vote
        have h₁ := (inv.index _ other).mpr ⟨w, mem, rfl⟩
        have h₂ := (inv.index _ node).mpr ⟨v, hv, same⟩
        obtain rfl : other = node := Option.some.inj (h₁.symm.trans h₂)
        have := List.inj_on_of_nodup_map inv.nodes mem hv rfl
        obtain rfl : w = v := (Prod.mk.inj this).2
        simp [hw] at kept
    case isFalse h =>
      rw [inv.index]
      constructor
      · rintro ⟨v, hv, rfl⟩
        refine ⟨v, ⟨hv, ?_⟩, rfl⟩
        rw [Bool.not_eq_true', Bool.eq_false_iff]
        exact fun hgone => h ⟨_, hv, hgone, rfl⟩
      · rintro ⟨v, ⟨hv, -⟩, same⟩
        exact ⟨v, hv, same⟩
  nodes := inv.nodes.sublist (List.filter_sublist.map _)
  fresh node h := inv.fresh node (List.mem_of_mem_filter h)

theorem Inv.addVote (inv : Inv getHash file) (vote : SignedVote σ) :
    Inv getHash (file.addVote getHash vote) := by
  unfold VoteFile.addVote
  split
  case isTrue => exact inv
  case isFalse new =>
    apply Inv.removeVotes
    have unknown : ∀ node ∈ file.listVotes,
        getHash node.2.toCGovernanceVote ≠ getHash vote.toCGovernanceVote :=
      fun node mem same => new (inv.hasVote_iff.mpr ⟨node, mem, same⟩)
    refine ⟨by simp [inv.count], fun nHash node => ?_, ?_, ?_⟩
    · simp only [Function.update_apply, List.mem_cons, Prod.mk.injEq]
      split
      case isTrue same =>
        constructor
        · intro h
          exact ⟨vote, Or.inl ⟨(Option.some.inj h).symm, rfl⟩, same.symm⟩
        · rintro ⟨v, ⟨rfl, -⟩ | mem, hv⟩
          · rfl
          · exact absurd (hv.trans same) (unknown _ mem)
      case isFalse other =>
        rw [inv.index]
        constructor
        · rintro ⟨v, mem, hv⟩
          exact ⟨v, Or.inr mem, hv⟩
        · rintro ⟨v, ⟨-, rfl⟩ | mem, hv⟩
          · exact absurd hv.symm other
          · exact ⟨v, mem, hv⟩
    · refine List.nodup_cons.mpr ⟨fun h => ?_, inv.nodes⟩
      obtain ⟨node, mem, same⟩ := List.mem_map.mp h
      exact absurd (inv.fresh node mem) (by omega)
    · intro node h
      rcases List.mem_cons.mp h with rfl | h
      · exact Nat.lt_succ_self _
      · exact (inv.fresh node h).trans (Nat.lt_succ_self _)

theorem mem_removeVotes {gone : SignedVote σ → Bool} {v : SignedVote σ} :
    (∃ node, (node, v) ∈ (file.removeVotes getHash gone).listVotes) ↔
      (∃ node, (node, v) ∈ file.listVotes) ∧ gone v = false := by
  simp [VoteFile.removeVotes]

/-- A vote that is new to the file is stored; another stays unless it is older. -/
theorem mem_addVote {vote v : SignedVote σ}
    (new : file.hasVote (getHash vote.toCGovernanceVote) = false) :
    (∃ node, (node, v) ∈ (file.addVote getHash vote).listVotes) ↔
      v = vote ∨ (∃ node, (node, v) ∈ file.listVotes) ∧
        ¬ (v.smartnodeOutpoint = vote.smartnodeOutpoint ∧ v.nParentHash = vote.nParentHash ∧
          v.nVoteSignal = vote.nVoteSignal ∧ v.nTime < vote.nTime) := by
  rw [VoteFile.addVote, if_neg (by simp [new]), removeOldVotes, mem_removeVotes]
  constructor
  · rintro ⟨⟨node, mem⟩, kept⟩
    rcases List.mem_cons.mp mem with h | mem
    · exact Or.inl (Prod.mk.inj h).2
    · exact Or.inr ⟨⟨node, mem⟩, by simpa [and_assoc] using kept⟩
  · rintro (rfl | ⟨⟨node, mem⟩, kept⟩)
    · exact ⟨⟨_, List.mem_cons_self⟩, by simp⟩
    · exact ⟨⟨node, List.mem_cons_of_mem _ mem⟩, by simpa [and_assoc] using kept⟩

end VoteFile

end

def VOTE_OUTCOME_NONE : ℤ := 0

def VOTE_SIGNAL_NONE : ℤ := 0

def VOTE_SIGNAL_FUNDING : ℤ := 1

def MAX_SUPPORTED_VOTE_SIGNAL : ℤ := 4

def GOVERNANCE_UPDATE_MIN : ℤ := 60 * 60

structure VoteInstance where
  eOutcome : ℤ := VOTE_OUTCOME_NONE
  nTime : ℤ := 0
  nCreationTime : ℤ := 0
  deriving DecidableEq

abbrev VoteRec := ExtTreeMap ℤ VoteInstance

/-- What a call reads of the node: the smartnodes of the tip, the validity of votes, the time. -/
structure VoteEnv (σ : Type) where
  hasMNByCollateral : COutPoint → Bool
  isValid : SignedVote σ → Bool → Bool
  areRateChecksEnabled : Bool
  adjustedTime : ℤ

structure VoteObject (κ σ : Type) where
  mapCurrentMNVotes : ExtTreeMap COutPoint VoteRec := ∅
  fileVotes : VoteFile κ σ := VoteFile.empty

namespace VoteObject

variable {κ σ : Type} [DecidableEq κ] (getHash : CGovernanceVote → κ) (hash : Uint256)
  (proposal : Bool)

section

variable (obj : VoteObject κ σ) (env : VoteEnv σ)

def instances (outpoint : COutPoint) : VoteRec := obj.mapCurrentMNVotes[outpoint]?.getD ∅

def withInstances (outpoint : COutPoint) (record : VoteRec) : VoteObject κ σ :=
  { obj with mapCurrentMNVotes := obj.mapCurrentMNVotes.insert outpoint record }

def rejected (inst : VoteInstance) (vote : SignedVote σ) : Bool :=
  decide (vote.nTime < inst.nCreationTime) ||
    decide (vote.nTime = inst.nCreationTime) && decide (vote.nVoteOutcome < inst.eOutcome) ||
    env.areRateChecksEnabled && decide (env.adjustedTime - inst.nTime < GOVERNANCE_UPDATE_MIN) ||
    !env.isValid vote (proposal && decide (vote.nVoteSignal = VOTE_SIGNAL_FUNDING))

def processVote (vote : SignedVote σ) : VoteObject κ σ × Bool :=
  if obj.fileVotes.hasVote (getHash vote.toCGovernanceVote) then (obj, false)
  else if !env.hasMNByCollateral vote.smartnodeOutpoint then (obj, false)
  else
    let record := obj.instances vote.smartnodeOutpoint
    if vote.nVoteSignal = VOTE_SIGNAL_NONE ∨ vote.nVoteSignal > MAX_SUPPORTED_VOTE_SIGNAL then
      (obj.withInstances vote.smartnodeOutpoint record, false)
    else
      let inst := record[vote.nVoteSignal]?.getD {}
      if rejected proposal env inst vote then
        (obj.withInstances vote.smartnodeOutpoint (record.insert vote.nVoteSignal inst), false)
      else
        let nVoteTimeUpdate := if env.areRateChecksEnabled then env.adjustedTime else inst.nTime
        ({ obj.withInstances vote.smartnodeOutpoint
            (record.insert vote.nVoteSignal ⟨vote.nVoteOutcome, nVoteTimeUpdate, vote.nTime⟩) with
          fileVotes := obj.fileVotes.addVote getHash vote }, true)

def clearSmartnodeVotes : VoteObject κ σ :=
  let gone := obj.mapCurrentMNVotes.keys.filter fun outpoint => !env.hasMNByCollateral outpoint
  { mapCurrentMNVotes := gone.foldl ExtTreeMap.erase obj.mapCurrentMNVotes
    fileVotes := gone.foldl (VoteFile.removeVotesFromSmartnode getHash) obj.fileVotes }

def invalidVote (outpoint : COutPoint) (v : SignedVote σ) : Bool :=
  decide (v.smartnodeOutpoint = outpoint) &&
    !env.isValid v (proposal && decide (v.nVoteSignal = VOTE_SIGNAL_FUNDING))

def removeInvalidVotes (outpoint : COutPoint) : VoteObject κ σ :=
  match obj.mapCurrentMNVotes[outpoint]? with
  | none => obj
  | some record =>
    let removedVotes := (obj.fileVotes.listVotes.filter fun node =>
      invalidVote proposal env outpoint node.2).map fun node => getHash node.2.toCGovernanceVote
    if removedVotes = [] then obj
    else
      let record := record.filter fun signal inst => decide
        (getHash ⟨outpoint, hash, inst.eOutcome, signal, inst.nCreationTime⟩ ∉ removedVotes)
      { mapCurrentMNVotes :=
          if record.isEmpty then obj.mapCurrentMNVotes.erase outpoint
          else obj.mapCurrentMNVotes.insert outpoint record
        fileVotes := obj.fileVotes.removeVotes getHash (invalidVote proposal env outpoint) }

end

inductive Call (σ : Type) where
  | processVote (env : VoteEnv σ) (vote : SignedVote σ)
  | removeInvalidVotes (env : VoteEnv σ) (outpoint : COutPoint)
  | clearSmartnodeVotes (env : VoteEnv σ)

def call (obj : VoteObject κ σ) : Call σ → VoteObject κ σ
  | .processVote env vote => (obj.processVote getHash proposal env vote).1
  | .removeInvalidVotes env outpoint => obj.removeInvalidVotes getHash hash proposal env outpoint
  | .clearSmartnodeVotes env => obj.clearSmartnodeVotes getHash env

/-- The manager finds the object of a vote by the parent hash of the vote. -/
def Own (_ : VoteObject κ σ) : Call σ → Prop
  | .processVote _ vote => vote.nParentHash = hash
  | _ => True

def instanceOf (obj : VoteObject κ σ) (outpoint : COutPoint) (signal : ℤ) : Option VoteInstance :=
  (obj.instances outpoint)[signal]?

def Backed (file : VoteFile κ σ) (outpoint : COutPoint) (signal : ℤ) (inst : VoteInstance) : Prop :=
  inst.eOutcome = VOTE_OUTCOME_NONE ∨ ∃ v, (∃ node, (node, v) ∈ file.listVotes) ∧
    v.smartnodeOutpoint = outpoint ∧ v.nVoteSignal = signal ∧ v.nVoteOutcome = inst.eOutcome ∧
    v.nTime = inst.nCreationTime

structure Inv (obj : VoteObject κ σ) : Prop where
  file : obj.fileVotes.Inv getHash
  own : ∀ node ∈ obj.fileVotes.listVotes, node.2.nParentHash = hash
  backed : ∀ {outpoint signal inst}, obj.instanceOf outpoint signal = some inst →
    Backed obj.fileVotes outpoint signal inst

variable {getHash hash proposal} {obj : VoteObject κ σ} {env : VoteEnv σ}

omit [DecidableEq κ] in
theorem instanceOf_withInstances (outpoint other : COutPoint) (record : VoteRec) (signal : ℤ) :
    (obj.withInstances outpoint record).instanceOf other signal =
      if other = outpoint then record[signal]? else obj.instanceOf other signal := by
  simp only [instanceOf, instances, withInstances, Keyed.getElem?_insert_eq]
  split <;> rfl

/-! ### One call -/

variable (getHash obj env) in
def Considered (vote : SignedVote σ) : Prop :=
  obj.fileVotes.hasVote (getHash vote.toCGovernanceVote) = false ∧
    env.hasMNByCollateral vote.smartnodeOutpoint = true ∧
    vote.nVoteSignal ≠ VOTE_SIGNAL_NONE ∧ vote.nVoteSignal ≤ MAX_SUPPORTED_VOTE_SIGNAL

variable (proposal) in
theorem processVote_ignored {vote : SignedVote σ} (h : ¬ Considered getHash obj env vote) :
    (obj.processVote getHash proposal env vote).1.fileVotes = obj.fileVotes ∧
      ∀ outpoint signal, (obj.processVote getHash proposal env vote).1.instanceOf outpoint signal =
        obj.instanceOf outpoint signal := by
  unfold processVote
  split
  case isTrue => exact ⟨rfl, fun _ _ => rfl⟩
  case isFalse unknown =>
    split
    case isTrue => exact ⟨rfl, fun _ _ => rfl⟩
    case isFalse listed =>
      split
      case isTrue =>
        refine ⟨rfl, fun outpoint signal => ?_⟩
        rw [instanceOf_withInstances]
        split
        case isTrue heq => rw [heq, instanceOf]
        case isFalse => rfl
      case isFalse supported =>
        rw [not_or, not_lt] at supported
        exact absurd ⟨by simpa using unknown, by simpa using listed, supported⟩ h

variable (obj) in
def current (vote : SignedVote σ) : VoteInstance :=
  (obj.instanceOf vote.smartnodeOutpoint vote.nVoteSignal).getD {}

variable (proposal) in
theorem processVote_considered {vote : SignedVote σ} (h : Considered getHash obj env vote) :
    (obj.processVote getHash proposal env vote).1.fileVotes =
        (if rejected proposal env (obj.current vote) vote then obj.fileVotes
          else obj.fileVotes.addVote getHash vote) ∧
      (∀ outpoint, (obj.processVote getHash proposal env vote).1.mapCurrentMNVotes[outpoint]?.isSome
        = (decide (outpoint = vote.smartnodeOutpoint) || obj.mapCurrentMNVotes[outpoint]?.isSome)) ∧
      ∀ outpoint signal,
        (obj.processVote getHash proposal env vote).1.instanceOf outpoint signal =
          if outpoint = vote.smartnodeOutpoint ∧ signal = vote.nVoteSignal then
            some (if rejected proposal env (obj.current vote) vote then obj.current vote
              else ⟨vote.nVoteOutcome, if env.areRateChecksEnabled then env.adjustedTime
                else (obj.current vote).nTime, vote.nTime⟩)
          else obj.instanceOf outpoint signal := by
  obtain ⟨unknown, listed, signal, supported⟩ := h
  have instances_insert : ∀ (inst : VoteInstance) (outpoint : COutPoint) (s : ℤ),
      (obj.withInstances vote.smartnodeOutpoint ((obj.instances vote.smartnodeOutpoint).insert
        vote.nVoteSignal inst)).instanceOf outpoint s =
      if outpoint = vote.smartnodeOutpoint ∧ s = vote.nVoteSignal then some inst
      else obj.instanceOf outpoint s := by
    intro inst outpoint s
    rw [instanceOf_withInstances, Keyed.getElem?_insert_eq]
    by_cases ho : outpoint = vote.smartnodeOutpoint
    · simp [ho, instanceOf]
    · simp [ho]
  have present : ∀ (record : VoteRec) (outpoint : COutPoint),
      (obj.withInstances vote.smartnodeOutpoint record).mapCurrentMNVotes[outpoint]?.isSome =
        (decide (outpoint = vote.smartnodeOutpoint) ||
          obj.mapCurrentMNVotes[outpoint]?.isSome) := by
    intro record outpoint
    rw [withInstances, Keyed.getElem?_insert_eq]
    by_cases ho : outpoint = vote.smartnodeOutpoint <;> simp [ho]
  have found : (obj.instances vote.smartnodeOutpoint)[vote.nVoteSignal]?.getD {} =
      obj.current vote := rfl
  unfold processVote
  rw [if_neg (by simp [unknown]), if_neg (by simp [listed])]
  dsimp only
  rw [if_neg (not_or.mpr ⟨signal, not_lt.mpr supported⟩), found]
  by_cases reject : rejected proposal env (obj.current vote) vote = true
  · simp only [if_pos reject]
    exact ⟨rfl, present _, instances_insert _⟩
  · simp only [if_neg reject]
    exact ⟨trivial, present _, instances_insert _⟩

omit [DecidableEq κ] in
theorem Backed.mono {file file' : VoteFile κ σ} {outpoint : COutPoint} {signal : ℤ}
    {inst : VoteInstance} (backed : Backed file outpoint signal inst)
    (kept : ∀ v, (∃ node, (node, v) ∈ file.listVotes) → v.smartnodeOutpoint = outpoint →
      v.nVoteSignal = signal → v.nVoteOutcome = inst.eOutcome → v.nTime = inst.nCreationTime →
        ∃ node, (node, v) ∈ file'.listVotes) :
    Backed file' outpoint signal inst := by
  rcases backed with none | ⟨v, mem, ho, hs, houtcome, htime⟩
  · exact Or.inl none
  · exact Or.inr ⟨v, kept v mem ho hs houtcome htime, ho, hs, houtcome, htime⟩

theorem Inv.processVote (inv : Inv getHash hash obj) {vote : SignedVote σ}
    (own : vote.nParentHash = hash) :
    Inv getHash hash (obj.processVote getHash proposal env vote).1 := by
  by_cases h : Considered getHash obj env vote
  · obtain ⟨file, -, inst⟩ := processVote_considered proposal h
    by_cases reject : rejected proposal env (obj.current vote) vote = true
    · simp only [if_pos reject] at file inst
      refine ⟨file ▸ inv.file, file ▸ inv.own, fun {outpoint signal i} get => ?_⟩
      rw [file]
      rw [inst] at get
      split at get
      case isTrue here =>
        obtain rfl := Option.some.inj get
        rw [here.1, here.2]
        unfold current
        cases found : obj.instanceOf vote.smartnodeOutpoint vote.nVoteSignal with
        | none => exact Or.inl rfl
        | some i => exact inv.backed found
      case isFalse => exact inv.backed get
    · simp only [if_neg reject] at file inst
      have stored := fun v => VoteFile.mem_addVote (v := v) h.1
      refine ⟨file ▸ inv.file.addVote vote, fun node mem => ?_, fun {outpoint signal i} get => ?_⟩
      · rw [file] at mem
        rcases (stored node.2).mp ⟨node.1, mem⟩ with heq | ⟨⟨other, mem⟩, -⟩
        · rw [heq, own]
        · exact inv.own (other, node.2) mem
      · rw [file]
        rw [inst] at get
        split at get
        case isTrue here =>
          obtain rfl := Option.some.inj get
          exact Or.inr ⟨vote, (stored vote).mpr (Or.inl rfl), here.1.symm, here.2.symm, rfl, rfl⟩
        case isFalse other =>
          refine (inv.backed get).mono fun v mem ho hs _ _ => (stored v).mpr (Or.inr ⟨mem, ?_⟩)
          rintro ⟨ho', -, hs', -⟩
          exact other ⟨ho.symm.trans ho', hs.symm.trans hs'⟩
  · obtain ⟨file, inst⟩ := processVote_ignored proposal h
    refine ⟨file ▸ inv.file, file ▸ inv.own, fun {outpoint signal i} get => ?_⟩
    rw [inst] at get
    rw [file]
    exact inv.backed get

theorem Inv.removeInvalidVotes (inv : Inv getHash hash obj) (outpoint : COutPoint) :
    Inv getHash hash (obj.removeInvalidVotes getHash hash proposal env outpoint) := by
  unfold VoteObject.removeInvalidVotes
  split
  case h_1 => exact inv
  case h_2 record present =>
    dsimp only
    split
    case isTrue => exact inv
    case isFalse =>
      refine ⟨inv.file.removeVotes _, fun node mem => inv.own node (List.mem_of_mem_filter mem), ?_⟩
      intro other signal inst get
      have found : obj.instanceOf other signal = some inst ∧ (other = outpoint →
          getHash ⟨outpoint, hash, inst.eOutcome, signal, inst.nCreationTime⟩ ∉
            (obj.fileVotes.listVotes.filter fun node =>
              invalidVote proposal env outpoint node.2).map
                fun node => getHash node.2.toCGovernanceVote) := by
        simp only [instanceOf, instances] at get ⊢
        split at get
        case isTrue =>
          rw [Keyed.getElem?_erase_eq] at get
          split at get
          case isTrue => simp at get
          case isFalse elsewhere => exact ⟨get, fun here => absurd here elsewhere⟩
        case isFalse =>
          rw [Keyed.getElem?_insert_eq] at get
          split at get
          case isTrue here =>
            rw [Option.getD_some, Std.ExtTreeMap.getElem?_filter',
              Option.filter_eq_some_iff] at get
            rw [here, present, Option.getD_some]
            exact ⟨get.1, fun _ => of_decide_eq_true get.2⟩
          case isFalse elsewhere => exact ⟨get, fun here => absurd here elsewhere⟩
      refine (inv.backed found.1).mono fun v ⟨node, mem⟩ ho hs houtcome htime => ?_
      refine VoteFile.mem_removeVotes.mpr ⟨⟨node, mem⟩, Bool.eq_false_iff.mpr fun invalid => ?_⟩
      have same : v.smartnodeOutpoint = outpoint := by
        simp only [invalidVote, Bool.and_eq_true, decide_eq_true_eq] at invalid
        exact invalid.1
      -- the vote made from the instance has the hash of the vote that goes
      refine found.2 (ho.symm.trans same) (List.mem_map.mpr
        ⟨(node, v), List.mem_filter.mpr ⟨mem, invalid⟩, congrArg getHash ?_⟩)
      rw [← same, ← inv.own _ mem, ← houtcome, ← hs, ← htime]

theorem Inv.clearSmartnodeVotes (inv : Inv getHash hash obj) :
    Inv getHash hash (obj.clearSmartnodeVotes getHash env) := by
  have removed : ∀ (gone : List COutPoint) (file : VoteFile κ σ), file.Inv getHash →
      (gone.foldl (VoteFile.removeVotesFromSmartnode getHash) file).Inv getHash ∧
        ∀ v, (∃ node, (node, v) ∈ (gone.foldl (VoteFile.removeVotesFromSmartnode getHash)
          file).listVotes) ↔ (∃ node, (node, v) ∈ file.listVotes) ∧ v.smartnodeOutpoint ∉ gone := by
    intro gone
    induction gone with
    | nil => simp
    | cons outpoint gone ih =>
      intro file inv
      obtain ⟨inv', mem⟩ := ih (file.removeVotesFromSmartnode getHash outpoint) (inv.removeVotes _)
      refine ⟨inv', fun v => (mem v).trans ?_⟩
      rw [VoteFile.removeVotesFromSmartnode, VoteFile.mem_removeVotes, decide_eq_false_iff_not,
        List.mem_cons, not_or, and_assoc]
  obtain ⟨file, mem⟩ := removed (obj.mapCurrentMNVotes.keys.filter fun outpoint =>
    !env.hasMNByCollateral outpoint) _ inv.file
  refine ⟨file, fun node h => ?_, fun {outpoint signal inst} get => ?_⟩
  · obtain ⟨⟨other, h⟩, -⟩ := (mem node.2).mp ⟨node.1, h⟩
    exact inv.own (other, node.2) h
  · simp only [VoteObject.clearSmartnodeVotes, instanceOf, instances,
      Keyed.getElem?_foldl_erase] at get
    split at get
    case isTrue => simp at get
    case isFalse kept =>
      exact (inv.backed get).mono fun v h ho _ _ _ => (mem v).mpr ⟨h, ho ▸ kept⟩

/-! ### Runs -/

theorem Inv.call (inv : Inv getHash hash obj) {c : Call σ} (own : Own hash obj c) :
    Inv getHash hash (call getHash hash proposal obj c) := by
  cases c with
  | processVote env vote => exact inv.processVote own
  | removeInvalidVotes env outpoint => exact inv.removeInvalidVotes outpoint
  | clearSmartnodeVotes env => exact inv.clearSmartnodeVotes

variable (getHash hash proposal) in
/-- After any calls the index is exact, and every instance that counts has its vote in the file. -/
theorem run_voteObject (calls : List (Call σ))
    (own : Steps.Meets (call getHash hash proposal) (Own hash) {} calls) :
    (Steps.run (call getHash hash proposal) {} calls).fileVotes.Inv getHash ∧
      ∀ outpoint signal inst, (Steps.run (call getHash hash proposal) {} calls).instanceOf outpoint
        signal = some inst → inst.eOutcome ≠ VOTE_OUTCOME_NONE → ∃ v,
          (∃ node, (node, v) ∈
            (Steps.run (call getHash hash proposal) {} calls).fileVotes.listVotes) ∧
          v.smartnodeOutpoint = outpoint ∧ v.nVoteSignal = signal ∧
          v.nVoteOutcome = inst.eOutcome ∧ v.nTime = inst.nCreationTime := by
  have start : Inv getHash hash ({} : VoteObject κ σ) :=
    ⟨VoteFile.inv_empty, by simp [VoteFile.empty], by simp [instanceOf, instances]⟩
  have inv := Steps.run_inv (I := Inv getHash hash) (fun _ _ inv own => inv.call own) start own
  exact ⟨inv.file, fun _ _ _ get counted => (inv.backed get).resolve_left counted⟩

def openEnv : VoteEnv Unit := ⟨fun _ => true, fun _ _ => true, false, 0⟩

def signedVote (outcome signal nTime : ℤ) : SignedVote Unit :=
  ⟨⟨⟨1, 0⟩, 7, outcome, signal, nTime⟩, ()⟩

theorem run_voteObject_twoVotes :
    (Steps.run (call id 7 true) {} [.processVote openEnv (signedVote 1 1 100),
      .processVote openEnv (signedVote 2 1 200), .removeInvalidVotes openEnv ⟨1, 0⟩]).fileVotes.Inv
        id :=
  (run_voteObject id 7 true [.processVote openEnv (signedVote 1 1 100),
    .processVote openEnv (signedVote 2 1 200), .removeInvalidVotes openEnv ⟨1, 0⟩]
    ⟨rfl, rfl, trivial, trivial⟩).1

section

variable (env) (proposal)

/-- A valid vote of a listed smartnode, with a signal, an outcome and a time that can count. -/
structure Countable (vote : SignedVote σ) : Prop where
  listed : env.hasMNByCollateral vote.smartnodeOutpoint = true
  valid : env.isValid vote (proposal && decide (vote.nVoteSignal = VOTE_SIGNAL_FUNDING)) = true
  signal : vote.nVoteSignal ≠ VOTE_SIGNAL_NONE
  supported : vote.nVoteSignal ≤ MAX_SUPPORTED_VOTE_SIGNAL
  outcome : VOTE_OUTCOME_NONE ≤ vote.nVoteOutcome
  time : 0 ≤ vote.nTime

/-- The vote is not after the instance: older, or of the same time and no greater outcome. -/
def NotAfter (inst : VoteInstance) (vote : CGovernanceVote) : Prop :=
  vote.nTime < inst.nCreationTime ∨
    vote.nTime = inst.nCreationTime ∧ vote.nVoteOutcome ≤ inst.eOutcome

def Greatest (votes : List CGovernanceVote) (outpoint : COutPoint) (signal : ℤ)
    (inst : VoteInstance) : Prop :=
  (∃ v ∈ votes, v.smartnodeOutpoint = outpoint ∧ v.nVoteSignal = signal ∧
    v.nVoteOutcome = inst.eOutcome ∧ v.nTime = inst.nCreationTime) ∧
  ∀ v ∈ votes, v.smartnodeOutpoint = outpoint → v.nVoteSignal = signal → NotAfter inst v

variable (getHash) in
structure Counted (votes : List CGovernanceVote) (obj : VoteObject κ σ) : Prop where
  file : obj.fileVotes.Inv getHash
  stored : ∀ node ∈ obj.fileVotes.listVotes, node.2.toCGovernanceVote ∈ votes
  record : ∀ outpoint, obj.mapCurrentMNVotes[outpoint]?.isSome = true ↔
    ∃ v ∈ votes, v.smartnodeOutpoint = outpoint
  absent : ∀ {outpoint signal}, obj.instanceOf outpoint signal = none → ∀ v ∈ votes,
    v.smartnodeOutpoint = outpoint → v.nVoteSignal ≠ signal
  greatest : ∀ {outpoint signal inst}, obj.instanceOf outpoint signal = some inst →
    inst.nTime = 0 ∧ Greatest votes outpoint signal inst

variable {env} {proposal} {votes votes' : List CGovernanceVote}

omit [DecidableEq κ] in
theorem Counted.congr (inv : Counted getHash votes obj) (same : ∀ v, v ∈ votes ↔ v ∈ votes') :
    Counted getHash votes' obj := by
  obtain ⟨file, stored, record, absent, greatest⟩ := inv
  refine ⟨file, ?_, ?_, ?_, ?_⟩ <;> simp only [Greatest, ← same]
  exacts [stored, record, absent, greatest]

theorem rejected_eq {vote : SignedVote σ} (good : Countable proposal env vote)
    (unlimited : env.areRateChecksEnabled = false) (inst : VoteInstance) :
    rejected proposal env inst vote = true ↔ vote.nTime < inst.nCreationTime ∨
      vote.nTime = inst.nCreationTime ∧ vote.nVoteOutcome < inst.eOutcome := by
  simp [rejected, good.valid, unlimited]

omit [DecidableEq κ] in
/-- The instance after the vote is the greatest once the one before was. -/
theorem Counted.greatest_current (inv : Counted getHash votes obj) {vote : SignedVote σ}
    (good : Countable proposal env vote) (unlimited : env.areRateChecksEnabled = false)
    {inst : VoteInstance} (next : inst = if rejected proposal env (obj.current vote) vote then
      obj.current vote else ⟨vote.nVoteOutcome, (obj.current vote).nTime, vote.nTime⟩) :
    inst.nTime = 0 ∧ Greatest (vote.toCGovernanceVote :: votes) vote.smartnodeOutpoint
      vote.nVoteSignal inst := by
  have reject := rejected_eq good unlimited (obj.current vote)
  cases found : obj.instanceOf vote.smartnodeOutpoint vote.nVoteSignal with
  | none =>
    have start : obj.current vote = {} := by rw [current, found, Option.getD_none]
    have accept : ¬ rejected proposal env (obj.current vote) vote = true := by
      rw [reject, start]
      have time := good.time
      have outcome : 0 ≤ vote.nVoteOutcome := good.outcome
      change ¬ (vote.nTime < 0 ∨ vote.nTime = 0 ∧ vote.nVoteOutcome < 0)
      omega
    rw [if_neg accept, start] at next
    subst next
    refine ⟨rfl, ⟨_, List.mem_cons_self, rfl, rfl, rfl, rfl⟩, fun v mem ho hs => ?_⟩
    rcases List.mem_cons.mp mem with rfl | mem
    · exact Or.inr ⟨rfl, le_rfl⟩
    · exact absurd hs (inv.absent found v mem ho)
  | some old =>
    have start : obj.current vote = old := by rw [current, found, Option.getD_some]
    rw [start] at reject next
    obtain ⟨zero, ⟨v, mem, top⟩, below⟩ := inv.greatest found
    by_cases h : rejected proposal env old vote = true
    · rw [if_pos h] at next
      subst next
      refine ⟨zero, ⟨v, List.mem_cons_of_mem _ mem, top⟩, fun w mem ho hs => ?_⟩
      rcases List.mem_cons.mp mem with rfl | mem
      · exact (reject.mp h).imp_right fun h => ⟨h.1, h.2.le⟩
      · exact below w mem ho hs
    · rw [if_neg h] at next
      subst next
      refine ⟨zero, ⟨_, List.mem_cons_self, rfl, rfl, rfl, rfl⟩, fun w mem ho hs => ?_⟩
      rcases List.mem_cons.mp mem with rfl | mem
      · exact Or.inr ⟨rfl, le_rfl⟩
      · rw [reject] at h
        have := below w mem ho hs
        simp only [NotAfter] at this ⊢
        omega

theorem Counted.processVote (inv : Counted getHash votes obj)
    (inj : Function.Injective getHash) {vote : SignedVote σ} (good : Countable proposal env vote)
    (unlimited : env.areRateChecksEnabled = false) :
    Counted getHash (vote.toCGovernanceVote :: votes)
      (obj.processVote getHash proposal env vote).1 := by
  by_cases known : obj.fileVotes.hasVote (getHash vote.toCGovernanceVote) = true
  · obtain ⟨node, mem, same⟩ := inv.file.hasVote_iff.mp known
    have before : vote.toCGovernanceVote ∈ votes := inj same ▸ inv.stored node mem
    rw [VoteObject.processVote, if_pos known]
    refine inv.congr fun v => ⟨List.mem_cons_of_mem _, fun h => ?_⟩
    rcases List.mem_cons.mp h with rfl | h
    · exact before
    · exact h
  · have new := Bool.eq_false_iff.mpr known
    obtain ⟨file, record, inst⟩ := processVote_considered proposal
      ⟨new, good.listed, good.signal, good.supported⟩
    simp only [unlimited, Bool.false_eq_true, if_false] at inst
    refine ⟨?_, fun node mem => ?_, fun outpoint => ?_, fun {outpoint signal} get v mem ho hs => ?_,
      fun {outpoint signal i} get => ?_⟩
    · rw [file]
      split
      · exact inv.file
      · exact inv.file.addVote vote
    · rw [file] at mem
      split at mem
      case isTrue => exact List.mem_cons_of_mem _ (inv.stored node mem)
      case isFalse =>
        rcases (VoteFile.mem_addVote new).mp ⟨node.1, mem⟩ with heq | ⟨⟨other, mem⟩, -⟩
        · exact heq ▸ List.mem_cons_self
        · exact List.mem_cons_of_mem _ (inv.stored (other, node.2) mem)
    · rw [record, Bool.or_eq_true, decide_eq_true_eq, inv.record]
      simp [eq_comm]
    · rw [inst] at get
      split at get
      case isTrue => cases get
      case isFalse elsewhere =>
        rcases List.mem_cons.mp mem with rfl | mem
        · exact elsewhere ⟨ho.symm, hs.symm⟩
        · exact inv.absent get v mem ho hs
    · rw [inst] at get
      split at get
      case isTrue here =>
        rw [here.1, here.2]
        exact inv.greatest_current good unlimited (Option.some.inj get).symm
      case isFalse elsewhere =>
        obtain ⟨zero, ⟨v, mem, top⟩, below⟩ := inv.greatest get
        refine ⟨zero, ⟨v, List.mem_cons_of_mem _ mem, top⟩, fun w mem ho hs => ?_⟩
        rcases List.mem_cons.mp mem with rfl | mem
        · exact absurd ⟨ho.symm, hs.symm⟩ elsewhere
        · exact below w mem ho hs

variable (getHash proposal env) in
def processVotes (votes : List (SignedVote σ)) : VoteObject κ σ :=
  Steps.run (fun obj vote => (obj.processVote getHash proposal env vote).1) {} votes

theorem counted_processVotes (inj : Function.Injective getHash)
    (unlimited : env.areRateChecksEnabled = false) {votes : List (SignedVote σ)}
    (good : ∀ vote ∈ votes, Countable proposal env vote) :
    Counted getHash (votes.map (·.toCGovernanceVote))
      (processVotes getHash proposal env votes) := by
  induction votes using List.reverseRecOn with
  | nil =>
    refine ⟨VoteFile.inv_empty, ?_, ?_, ?_, ?_⟩ <;>
      simp [processVotes, Steps.run, VoteFile.empty, instanceOf, instances]
  | append_singleton votes vote ih =>
    have step := (ih fun v mem => good v (List.mem_append_left _ mem)).processVote inj
      (good vote (List.mem_append_right _ (List.mem_singleton_self _))) unlimited
    rw [processVotes, Steps.run, List.foldl_append]
    exact step.congr fun v => by simp [or_comm]

theorem Greatest.unique {outpoint : COutPoint} {signal : ℤ} {i j : VoteInstance}
    (hi : Greatest votes outpoint signal i) (hj : Greatest votes outpoint signal j) :
    i.eOutcome = j.eOutcome ∧ i.nCreationTime = j.nCreationTime := by
  obtain ⟨⟨v, hv, ho, hs, houtcome, htime⟩, belowI⟩ := hi
  obtain ⟨⟨w, hw, ho', hs', houtcome', htime'⟩, belowJ⟩ := hj
  have h₁ := belowJ v hv ho hs
  have h₂ := belowI w hw ho' hs'
  simp only [NotAfter] at h₁ h₂
  omega

/-- Votes that can count are counted alike in every order, and the greatest of them counts. -/
theorem processVotes_anyOrder (inj : Function.Injective getHash)
    (unlimited : env.areRateChecksEnabled = false) {votes votes' : List (SignedVote σ)}
    (good : ∀ vote ∈ votes, Countable proposal env vote) (same : ∀ v, v ∈ votes' ↔ v ∈ votes) :
    (processVotes getHash proposal env votes').mapCurrentMNVotes =
        (processVotes getHash proposal env votes).mapCurrentMNVotes ∧
      ∀ vote ∈ votes, ∃ inst, (processVotes getHash proposal env votes).instanceOf
        vote.smartnodeOutpoint vote.nVoteSignal = some inst ∧
        Greatest (votes.map (·.toCGovernanceVote)) vote.smartnodeOutpoint vote.nVoteSignal inst := by
  have inv := counted_processVotes inj unlimited good
  have inv' : Counted getHash (votes.map (·.toCGovernanceVote))
      (processVotes getHash proposal env votes') :=
    (counted_processVotes inj unlimited fun v mem => good v ((same v).mp mem)).congr
      fun c => by simp only [List.mem_map, same]
  have instances_eq : ∀ outpoint signal,
      (processVotes getHash proposal env votes').instanceOf outpoint signal =
        (processVotes getHash proposal env votes).instanceOf outpoint signal := by
    intro outpoint signal
    cases h' : (processVotes getHash proposal env votes').instanceOf outpoint signal with
    | none =>
      cases h : (processVotes getHash proposal env votes).instanceOf outpoint signal with
      | none => rfl
      | some i =>
        obtain ⟨-, ⟨v, mem, ho, hs, -⟩, -⟩ := inv.greatest h
        exact absurd hs (inv'.absent h' v mem ho)
    | some j =>
      obtain ⟨zero', top'⟩ := inv'.greatest h'
      cases h : (processVotes getHash proposal env votes).instanceOf outpoint signal with
      | none =>
        obtain ⟨⟨v, mem, ho, hs, -⟩, -⟩ := top'
        exact absurd hs (inv.absent h v mem ho)
      | some i =>
        obtain ⟨zero, top⟩ := inv.greatest h
        obtain ⟨houtcome, htime⟩ := top'.unique top
        cases i
        cases j
        simp_all
  refine ⟨?_, fun vote mem => ?_⟩
  · refine Std.ExtTreeMap.ext_getElem? fun outpoint => ?_
    have present := (inv'.record outpoint).trans (inv.record outpoint).symm
    have signals := instances_eq outpoint
    simp only [instanceOf, instances] at signals
    cases h' : (processVotes getHash proposal env votes').mapCurrentMNVotes[outpoint]? with
    | none =>
      cases h : (processVotes getHash proposal env votes).mapCurrentMNVotes[outpoint]? with
      | none => rfl
      | some record => simp [h', h] at present
    | some record' =>
      cases h : (processVotes getHash proposal env votes).mapCurrentMNVotes[outpoint]? with
      | none => simp [h', h] at present
      | some record =>
        rw [h', h] at signals
        exact congrArg some (Std.ExtTreeMap.ext_getElem? fun signal => signals signal)
  · cases h : (processVotes getHash proposal env votes).instanceOf vote.smartnodeOutpoint
        vote.nVoteSignal with
    | none => exact absurd rfl (inv.absent h _ (List.mem_map_of_mem mem) rfl)
    | some i => exact ⟨i, rfl, (inv.greatest h).2⟩

theorem processVotes_twoOutcomes :
    (processVotes id true openEnv [signedVote 2 1 100, signedVote 1 1 100]).mapCurrentMNVotes =
      (processVotes id true openEnv
        [signedVote 1 1 100, signedVote 2 1 100, signedVote 1 1 100]).mapCurrentMNVotes := by
  refine (processVotes_anyOrder Function.injective_id rfl (fun vote mem => ?_) (by simp)).1
  simp only [List.mem_cons, List.not_mem_nil, or_false] at mem
  rcases mem with rfl | rfl | rfl <;> exact ⟨rfl, rfl, by decide, by decide, by decide, by decide⟩

/-- A valid vote without a signal, and one from before the epoch: neither is counted. -/
theorem processVote_uncounted :
    openEnv.isValid (signedVote 1 0 100) false = true ∧
      (processVotes id true openEnv [signedVote 1 0 100]).instanceOf ⟨1, 0⟩ 0 = none ∧
      openEnv.isValid (signedVote 1 1 (-5)) true = true ∧
      (processVotes id true openEnv [signedVote 1 1 (-5)]).instanceOf ⟨1, 0⟩ 1 = some {} := by
  decide +kernel

end

end VoteObject

end ButCore.Governance
