import ButCore.Evo.UniqueProperties

/-!
# Differences between lists

`BuildDiff` records the net effect of a block by internal id, `ApplyDiff` replays it: removals, then
additions in the order of their ids, then updates.
-/
namespace ButCore.Evo

open Checked CDeterministicMNList
open Std (ExtTreeMap ExtTreeSet)

section

variable {α : Type} [DecidableEq α]

/-- `DMN_STATE_DIFF_LINE` where the difference is built. -/
def diffLine (a b : α) : Option α := if a ≠ b then some b else none

/-- `DMN_STATE_DIFF_LINE` where it is applied. -/
def applyLine (field : Option α) (target : α) : α := field.getD target

@[simp] theorem applyLine_diffLine (a b : α) : applyLine (diffLine a b) a = b := by
  by_cases h : a = b <;> simp [applyLine, diffLine, h]

@[simp] theorem diffLine_eq_none {a b : α} : diffLine a b = none ↔ a = b := by
  simp [diffLine]

end

/-- A field is there when its bit of `fields` is set. -/
structure CDeterministicMNStateDiff where
  nRegisteredHeight : Option ℤ
  nLastPaidHeight : Option ℤ
  nPoSePenalty : Option ℤ
  nPoSeRevivedHeight : Option ℤ
  nPoSeBanHeight : Option ℤ
  nRevocationReason : Option ℕ
  confirmedHash : Option Uint256
  confirmedHashWithProRegTxHash : Option Uint256
  keyIDOwner : Option CKeyID
  pubKeyOperator : Option CBLSPublicKey
  keyIDVoting : Option CKeyID
  addr : Option CService
  scriptPayout : Option CScript
  scriptOperatorPayout : Option CScript
  deriving DecidableEq

namespace CDeterministicMNStateDiff

def noFields : CDeterministicMNStateDiff :=
  ⟨none, none, none, none, none, none, none, none, none, none, none, none, none, none⟩

def ofStates (a b : CDeterministicMNState) : CDeterministicMNStateDiff where
  nRegisteredHeight := diffLine a.nRegisteredHeight b.nRegisteredHeight
  nLastPaidHeight := diffLine a.nLastPaidHeight b.nLastPaidHeight
  nPoSePenalty := diffLine a.nPoSePenalty b.nPoSePenalty
  nPoSeRevivedHeight := diffLine a.nPoSeRevivedHeight b.nPoSeRevivedHeight
  nPoSeBanHeight := diffLine a.nPoSeBanHeight b.nPoSeBanHeight
  nRevocationReason := diffLine a.nRevocationReason b.nRevocationReason
  confirmedHash := diffLine a.confirmedHash b.confirmedHash
  confirmedHashWithProRegTxHash :=
    diffLine a.confirmedHashWithProRegTxHash b.confirmedHashWithProRegTxHash
  keyIDOwner := diffLine a.keyIDOwner b.keyIDOwner
  pubKeyOperator := diffLine a.pubKeyOperator b.pubKeyOperator
  keyIDVoting := diffLine a.keyIDVoting b.keyIDVoting
  addr := diffLine a.addr b.addr
  scriptPayout := diffLine a.scriptPayout b.scriptPayout
  scriptOperatorPayout := diffLine a.scriptOperatorPayout b.scriptOperatorPayout

def applyToState (d : CDeterministicMNStateDiff) (target : CDeterministicMNState) :
    CDeterministicMNState where
  nRegisteredHeight := applyLine d.nRegisteredHeight target.nRegisteredHeight
  nLastPaidHeight := applyLine d.nLastPaidHeight target.nLastPaidHeight
  nPoSePenalty := applyLine d.nPoSePenalty target.nPoSePenalty
  nPoSeRevivedHeight := applyLine d.nPoSeRevivedHeight target.nPoSeRevivedHeight
  nPoSeBanHeight := applyLine d.nPoSeBanHeight target.nPoSeBanHeight
  nRevocationReason := applyLine d.nRevocationReason target.nRevocationReason
  confirmedHash := applyLine d.confirmedHash target.confirmedHash
  confirmedHashWithProRegTxHash :=
    applyLine d.confirmedHashWithProRegTxHash target.confirmedHashWithProRegTxHash
  keyIDOwner := applyLine d.keyIDOwner target.keyIDOwner
  pubKeyOperator := applyLine d.pubKeyOperator target.pubKeyOperator
  keyIDVoting := applyLine d.keyIDVoting target.keyIDVoting
  addr := applyLine d.addr target.addr
  scriptPayout := applyLine d.scriptPayout target.scriptPayout
  scriptOperatorPayout := applyLine d.scriptOperatorPayout target.scriptOperatorPayout

theorem applyToState_ofStates (a b : CDeterministicMNState) : (ofStates a b).applyToState a = b := by
  simp [applyToState, ofStates]

theorem ofStates_eq_noFields {a b : CDeterministicMNState} : ofStates a b = noFields ↔ a = b := by
  constructor
  · intro heq
    rw [← applyToState_ofStates a b, heq]
    rfl
  · rintro rfl
    simp [ofStates, noFields]

end CDeterministicMNStateDiff

structure CDeterministicMNListDiff where
  addedMNs : List CDeterministicMN
  updatedMNs : ExtTreeMap ℕ CDeterministicMNStateDiff
  removedMns : ExtTreeSet ℕ

namespace CDeterministicMNList

section

variable (list : CDeterministicMNList)

def stateDiff (toPtr : CDeterministicMN) : Option CDeterministicMNStateDiff :=
  (list.getMN toPtr.proTxHash).bind fun fromPtr =>
    let diff := CDeterministicMNStateDiff.ofStates fromPtr.pdmnState toPtr.pdmnState
    if diff = .noFields then none else some diff

/-- The first loop of `BuildDiff`. -/
def recordTo (diff : CDeterministicMNListDiff) (toPtr : CDeterministicMN) :
    CDeterministicMNListDiff :=
  if list.getMN toPtr.proTxHash = none then { diff with addedMNs := diff.addedMNs ++ [toPtr] }
  else
    match list.stateDiff toPtr with
    | none => diff
    | some stateDiff =>
      { diff with updatedMNs := diff.updatedMNs.insertIfNew toPtr.internalId stateDiff }

/-- The second loop of `BuildDiff`. -/
def recordFrom (target : CDeterministicMNList) (diff : CDeterministicMNListDiff)
    (fromPtr : CDeterministicMN) : CDeterministicMNListDiff :=
  if target.getMN fromPtr.proTxHash = none then
    { diff with removedMns := diff.removedMns.insert fromPtr.internalId }
  else diff

def buildDiff (target : CDeterministicMNList) : CDeterministicMNListDiff :=
  let diff := target.allMNs.foldl list.recordTo ⟨[], ∅, ∅⟩
  let diff := list.allMNs.foldl (recordFrom target) diff
  { diff with addedMNs := diff.addedMNs.insertionSort fun a b => a.internalId ≤ b.internalId }

def replayRemoval [LazyKeys] (result : CDeterministicMNList) (id : ℕ) : Except Fault CDeterministicMNList := do
  let dmn ← deref (result.getMNByInternalId id) .applyDiff
  result.removeMN dmn.proTxHash

def replayAddition [LazyKeys] (result : CDeterministicMNList) (dmn : CDeterministicMN) :
    Except Fault CDeterministicMNList := do
  assertThat (dmn.internalId = result.nTotalRegisteredCount.toNat) .applyDiff
  let result ← result.addMN dmn
  pure { result with nTotalRegisteredCount := result.nTotalRegisteredCount + 1 }

/-- The overload of `UpdateMN` with a state difference, at the smartnode that has the id. -/
def replayUpdate (result : CDeterministicMNList) (p : ℕ × CDeterministicMNStateDiff) :
    Except Fault CDeterministicMNList := do
  let dmn ← deref (result.getMNByInternalId p.1) .updateMN
  result.updateMNEntry dmn (p.2.applyToState dmn.pdmnState)

def applyDiff [LazyKeys] (blockHash : Uint256) (nHeight : ℤ) (diff : CDeterministicMNListDiff) :
    Except Fault CDeterministicMNList := do
  let result := { list with blockHash := blockHash, nHeight := nHeight }
  let result ← diff.removedMns.toList.foldlM replayRemoval result
  let result ← diff.addedMNs.foldlM replayAddition result
  diff.updatedMNs.toList.foldlM replayUpdate result

end

section

variable {ownerOf : Uint256 → CKeyID} {L N : CDeterministicMNList}

theorem stateDiff_eq_some {toPtr : CDeterministicMN} {d : CDeterministicMNStateDiff} :
    L.stateDiff toPtr = some d ↔ ∃ a, L.getMN toPtr.proTxHash = some a ∧
      a.pdmnState ≠ toPtr.pdmnState ∧ d = .ofStates a.pdmnState toPtr.pdmnState := by
  unfold stateDiff
  rw [Option.bind_eq_some_iff]
  refine exists_congr fun a => and_congr_right fun _ => ?_
  simp only [CDeterministicMNStateDiff.ofStates_eq_noFields]
  by_cases same : a.pdmnState = toPtr.pdmnState <;> simp [same, eq_comm]

theorem recordTo_updatedMNs (diff : CDeterministicMNListDiff) (toPtr : CDeterministicMN) (id : ℕ) :
    (L.recordTo diff toPtr).updatedMNs[id]? =
      diff.updatedMNs[id]?.or (if id = toPtr.internalId then L.stateDiff toPtr else none) := by
  unfold recordTo
  by_cases hnone : L.getMN toPtr.proTxHash = none
  · simp [hnone, stateDiff]
  · rw [if_neg hnone]
    cases hdiff : L.stateDiff toPtr with
    | none => simp
    | some d => exact Keyed.getElem?_insertIfNew_eq _ _ _ _

theorem recordTo_addedMNs (diff : CDeterministicMNListDiff) (toPtr : CDeterministicMN) :
    (L.recordTo diff toPtr).addedMNs =
      diff.addedMNs ++ [toPtr].filter fun d => decide (L.getMN d.proTxHash = none) := by
  unfold recordTo
  by_cases hnone : L.getMN toPtr.proTxHash = none
  · simp [hnone]
  · cases hdiff : L.stateDiff toPtr <;> simp [hnone]

theorem recordTo_removedMns (diff : CDeterministicMNListDiff) (toPtr : CDeterministicMN) :
    (L.recordTo diff toPtr).removedMns = diff.removedMns := by
  unfold recordTo
  by_cases hnone : L.getMN toPtr.proTxHash = none
  · simp [hnone]
  · cases hdiff : L.stateDiff toPtr <;> simp [hnone]

theorem foldl_recordTo (l : List CDeterministicMN) (diff : CDeterministicMNListDiff) :
    (l.foldl L.recordTo diff).addedMNs =
        diff.addedMNs ++ l.filter (fun d => decide (L.getMN d.proTxHash = none)) ∧
      (l.foldl L.recordTo diff).removedMns = diff.removedMns ∧
      ∀ id : ℕ, (l.foldl L.recordTo diff).updatedMNs[id]? = diff.updatedMNs[id]?.or
        (l.findSome? fun toPtr => if id = toPtr.internalId then L.stateDiff toPtr else none) := by
  induction l generalizing diff with
  | nil => simp
  | cons toPtr l ih =>
    obtain ⟨hadded, hremoved, hupdated⟩ := ih (L.recordTo diff toPtr)
    rw [List.foldl_cons]
    refine ⟨?_, ?_, ?_⟩
    · rw [hadded, recordTo_addedMNs, List.append_assoc, ← List.filter_append]
      rfl
    · rw [hremoved, recordTo_removedMns]
    · intro id
      rw [hupdated, recordTo_updatedMNs, Option.or_assoc, List.findSome?_cons]
      cases (if id = toPtr.internalId then L.stateDiff toPtr else none) <;> simp

theorem foldl_recordFrom (l : List CDeterministicMN) (diff : CDeterministicMNListDiff) :
    (l.foldl (recordFrom N) diff).addedMNs = diff.addedMNs ∧
      (l.foldl (recordFrom N) diff).updatedMNs = diff.updatedMNs ∧
      ∀ id : ℕ, id ∈ (l.foldl (recordFrom N) diff).removedMns ↔ id ∈ diff.removedMns ∨
        ∃ fromPtr ∈ l, N.getMN fromPtr.proTxHash = none ∧ fromPtr.internalId = id := by
  induction l generalizing diff with
  | nil => simp
  | cons fromPtr l ih =>
    obtain ⟨hadded, hupdated, hremoved⟩ := ih (recordFrom N diff fromPtr)
    rw [List.foldl_cons]
    refine ⟨hadded.trans ?_, hupdated.trans ?_, ?_⟩
    · unfold recordFrom
      split <;> rfl
    · unfold recordFrom
      split <;> rfl
    · intro id
      rw [hremoved]
      unfold recordFrom
      by_cases hnone : N.getMN fromPtr.proTxHash = none
      · simp [hnone, ExtTreeSet.mem_insert, or_assoc, or_left_comm]
      · simp [hnone]

theorem mem_addedMNs (inv : N.UniqueInvariant ownerOf) {dmn : CDeterministicMN} :
    dmn ∈ (L.buildDiff N).addedMNs ↔
      N.getMN dmn.proTxHash = some dmn ∧ L.getMN dmn.proTxHash = none := by
  simp only [buildDiff, List.mem_insertionSort, (foldl_recordFrom _ _).1, (foldl_recordTo _ _).1,
    List.nil_append, List.mem_filter, mem_allMNs inv, decide_eq_true_eq]

theorem nodup_addedMNs (inv : N.UniqueInvariant ownerOf) : (L.buildDiff N).addedMNs.Nodup := by
  have nodup := List.Nodup.of_map _ (nodup_allMNs inv)
  simp only [buildDiff, (foldl_recordFrom _ _).1, (foldl_recordTo _ _).1, List.nil_append]
  exact (List.perm_insertionSort _ _).nodup_iff.mpr (nodup.filter _)

theorem sorted_addedMNs : (L.buildDiff N).addedMNs.Pairwise fun a b => a.internalId ≤ b.internalId :=
  List.pairwise_insertionSort _ _

theorem mem_removedMns (inv : L.UniqueInvariant ownerOf) {id : ℕ} :
    id ∈ (L.buildDiff N).removedMns ↔
      ∃ h a, L.getMN h = some a ∧ N.getMN h = none ∧ a.internalId = id := by
  simp only [buildDiff, (foldl_recordFrom _ _).2.2, (foldl_recordTo _ _).2.1, mem_allMNs inv]
  constructor
  · rintro (hempty | ⟨a, get, hnone, hid⟩)
    · simp at hempty
    · exact ⟨_, a, get, hnone, hid⟩
  · rintro ⟨h, a, get, hnone, hid⟩
    obtain rfl := inv.hash get
    exact Or.inr ⟨a, get, hnone, hid⟩

theorem updatedMNs_eq_some (inv : N.UniqueInvariant ownerOf) (ids : N.IdInvariant) {id : ℕ}
    {d : CDeterministicMNStateDiff} :
    (L.buildDiff N).updatedMNs[id]? = some d ↔
      ∃ h b, N.getMN h = some b ∧ b.internalId = id ∧ L.stateDiff b = some d := by
  simp only [buildDiff, (foldl_recordFrom _ _).2.1, (foldl_recordTo _ _).2.2,
    ExtTreeMap.getElem?_empty, Option.none_or]
  have found : ∀ {d}, N.allMNs.findSome? (fun toPtr =>
      if id = toPtr.internalId then L.stateDiff toPtr else none) = some d →
      ∃ h b, N.getMN h = some b ∧ b.internalId = id ∧ L.stateDiff b = some d := by
    intro d hfind
    obtain ⟨b, hmem, hb⟩ := List.exists_of_findSome?_eq_some hfind
    by_cases hid : id = b.internalId
    · rw [if_pos hid] at hb
      exact ⟨_, b, (mem_allMNs inv).mp hmem, hid.symm, hb⟩
    · rw [if_neg hid] at hb
      cases hb
  refine ⟨found, ?_⟩
  rintro ⟨h, b, get, hid, hdiff⟩
  obtain rfl := inv.hash get
  cases hfind : N.allMNs.findSome? fun toPtr =>
      if id = toPtr.internalId then L.stateDiff toPtr else none with
  | none =>
    have hnone := List.findSome?_eq_none_iff.mp hfind b ((mem_allMNs inv).mpr get)
    rw [if_pos hid.symm, hdiff] at hnone
    cases hnone
  | some d' =>
    obtain ⟨k, b', get', hid', hdiff'⟩ := found hfind
    obtain rfl := ids.id_unique get' get (hid'.trans hid.symm)
    cases get.symm.trans get'
    exact hdiff'.symm.trans hdiff

end

section

/-- Two lists of which the second follows from the first by registrations, removals and updates that
leave alone what a smartnode keeps for life. -/
structure Compatible (ownerOf : Uint256 → CKeyID) (L N : CDeterministicMNList) : Prop where
  old : L.UniqueInvariant ownerOf
  new : N.UniqueInvariant ownerOf
  oldIds : L.IdInvariant
  newIds : N.IdInvariant
  kept : ∀ {h a b}, L.getMN h = some a → N.getMN h = some b → b = { a with pdmnState := b.pdmnState }
  holder : ∀ {h b q k a}, N.getMN h = some b → q ∈ b.uniqueProperties →
    L.getMN k = some a → q ∈ a.uniqueProperties → k = h ∨ N.getMN k = none

/-- The entry of a smartnode in the middle of the replay, when the removals, additions and updates
with these ids are done. -/
def stage (L N : CDeterministicMNList) (gone added updated : List ℕ) (h : Uint256) :
    Option CDeterministicMN :=
  match L.getMN h, N.getMN h with
  | none, none => none
  | some a, none => if a.internalId ∈ gone then none else some a
  | none, some b => if b.internalId ∈ added then some b else none
  | some a, some b => if a.internalId ∈ updated then some b else some a

structure Replayed (ownerOf : Uint256 → CKeyID) (L N : CDeterministicMNList)
    (gone added updated : List ℕ) (R : CDeterministicMNList) : Prop where
  unique : R.UniqueInvariant ownerOf
  ids : R.IdInvariant
  count : R.nTotalRegisteredCount = L.nTotalRegisteredCount + BitVec.ofNat 32 added.length
  getMN : ∀ k, R.getMN k = stage L N gone added updated k

variable {ownerOf : Uint256 → CKeyID} {L N R : CDeterministicMNList}
variable {gone added updated : List ℕ} {h k : Uint256} {a b dmn : CDeterministicMN}

theorem stage_congr {gone' added' updated' : List ℕ}
    (hgone : ∀ a, L.getMN k = some a → (a.internalId ∈ gone ↔ a.internalId ∈ gone'))
    (hadded : ∀ b, N.getMN k = some b → (b.internalId ∈ added ↔ b.internalId ∈ added'))
    (hupdated : ∀ a, L.getMN k = some a → (a.internalId ∈ updated ↔ a.internalId ∈ updated')) :
    stage L N gone added updated k = stage L N gone' added' updated' k := by
  unfold stage
  cases getL : L.getMN k with
  | none =>
    cases getN : N.getMN k with
    | none => rfl
    | some b => exact if_congr (hadded b getN) rfl rfl
  | some a =>
    cases getN : N.getMN k with
    | none => exact if_congr (hgone a getL) rfl rfl
    | some b => exact if_congr (hupdated a getL) rfl rfl

structure SameList (R N : CDeterministicMNList) : Prop where
  mnMap : R.mnMap = N.mnMap
  mnInternalIdMap : R.mnInternalIdMap = N.mnInternalIdMap
  mnUniquePropertyMap : R.mnUniquePropertyMap = N.mnUniquePropertyMap
  nTotalRegisteredCount : R.nTotalRegisteredCount = N.nTotalRegisteredCount

theorem sameList_of_getMN (uniqueR : R.UniqueInvariant ownerOf) (uniqueN : N.UniqueInvariant ownerOf)
    (idsR : R.IdInvariant) (idsN : N.IdInvariant) (get : ∀ k, R.getMN k = N.getMN k)
    (count : R.nTotalRegisteredCount = N.nTotalRegisteredCount) : SameList R N := by
  refine ⟨ExtTreeMap.ext_getElem? get, ?_, ?_, count⟩
  · apply ExtTreeMap.ext_getElem?
    intro id
    ext h
    rw [idsR, idsN, get]
  · funext q
    ext ⟨h, c⟩
    rw [uniqueR.held, uniqueN.held, get]

namespace Compatible

variable (compat : Compatible ownerOf L N)

include compat

theorem kept_id (getL : L.getMN h = some a) (getN : N.getMN h = some b) :
    b.internalId = a.internalId := by
  rw [compat.kept getL getN]

theorem entry_of_stage (hgone : ∀ h a, L.getMN h = some a → N.getMN h = none → a.internalId ∈ gone)
    (hstage : stage L N gone added updated k = some dmn) :
    ∃ b, N.getMN k = some b ∧ b.internalId = dmn.internalId ∧ (dmn = b ∨ L.getMN k = some dmn) := by
  unfold stage at hstage
  cases getL : L.getMN k with
  | none =>
    cases getN : N.getMN k with
    | none => simp [getL, getN] at hstage
    | some b =>
      simp only [getL, getN, Option.ite_none_right_eq_some, Option.some.injEq] at hstage
      exact ⟨b, rfl, by rw [hstage.2], Or.inl hstage.2.symm⟩
  | some a =>
    cases getN : N.getMN k with
    | none => simp [getL, getN, hgone k a getL getN] at hstage
    | some b =>
      have hid := compat.kept_id getL getN
      simp only [getL, getN] at hstage
      by_cases hu : a.internalId ∈ updated
      · rw [if_pos hu, Option.some.injEq] at hstage
        exact ⟨b, rfl, by rw [hstage], Or.inl hstage.symm⟩
      · rw [if_neg hu, Option.some.injEq] at hstage
        exact ⟨b, rfl, by rw [hid, hstage], Or.inr (by rw [hstage])⟩

theorem free_at_stage (hgone : ∀ h a, L.getMN h = some a → N.getMN h = none → a.internalId ∈ gone)
    (getN : N.getMN h = some b) {q : UniqueProperty} (hq : q ∈ b.uniqueProperties) (hk : k ≠ h)
    (hstage : stage L N gone added updated k = some dmn) : q ∉ dmn.uniqueProperties := by
  intro hq'
  obtain ⟨b', getN', -, rfl | getL⟩ := compat.entry_of_stage hgone hstage
  · exact hk (compat.new.holder_unique getN' hq' getN hq)
  · rcases compat.holder getN hq getL hq' with hkh | hnone
    · exact hk hkh
    · rw [getN'] at hnone
      cases hnone

theorem replayRemoval_spec (replayed : Replayed ownerOf L N gone [] [] R) (getL : L.getMN h = some a)
    (getN : N.getMN h = none) (hnew : a.internalId ∉ gone) :
    ∃ R', replayRemoval R a.internalId = .ok R' ∧
      Replayed ownerOf L N (gone ++ [a.internalId]) [] [] R' := by
  have get : R.getMN h = some a := by simp [replayed.getMN, stage, getL, getN, hnew]
  obtain rfl := replayed.unique.hash get
  obtain ⟨R', hok, hinv, hset⟩ := replayed.unique.removeMN_spec get
  refine ⟨R', bind_eq_ok.mpr ⟨a, by simp [replayed.ids.getMNByInternalId get], hok⟩, hinv,
    replayed.ids.erase get hset, hset.count.trans replayed.count, ?_⟩
  intro k
  rw [hset.getMN]
  by_cases hk : k = a.proTxHash
  · simp [hk, stage, getL, getN]
  · rw [if_neg hk, replayed.getMN]
    apply stage_congr ?_ (fun _ _ => Iff.rfl) (fun _ _ => Iff.rfl)
    intro a' getL'
    have hid : a'.internalId ≠ a.internalId := fun e => hk (compat.oldIds.id_unique getL' getL e)
    simp [hid]

theorem replayAddition_spec
    (hgone : ∀ h a, L.getMN h = some a → N.getMN h = none → a.internalId ∈ gone)
    (replayed : Replayed ownerOf L N gone added [] R) (getL : L.getMN b.proTxHash = none)
    (getN : N.getMN b.proTxHash = some b) (hnew : b.internalId ∉ added)
    (hid : b.internalId = R.nTotalRegisteredCount.toNat) :
    ∃ R', replayAddition R b = .ok R' ∧
      Replayed ownerOf L N gone (added ++ [b.internalId]) [] R' := by
  have get : R.getMN b.proTxHash = none := by simp [replayed.getMN, stage, getL, getN, hnew]
  obtain ⟨R', hok, hinv, hset⟩ := replayed.unique.addMN_spec b get (compat.new.collateral_ne getN)
    (compat.new.owner_ne getN) (compat.new.owner getN) (by
      intro q hq
      rw [replayed.unique.property_none_iff]
      intro k dmn getR
      have hk : k ≠ b.proTxHash := by
        rintro rfl
        rw [get] at getR
        cases getR
      rw [replayed.getMN] at getR
      exact compat.free_at_stage hgone getN hq hk getR)
  have hids : R'.IdInvariant := replayed.ids.insert get (by
    intro k dmn getR hsame
    rw [replayed.getMN] at getR
    obtain ⟨b', getN', hid', -⟩ := compat.entry_of_stage hgone getR
    have hk := compat.newIds.id_unique getN' getN (hid'.trans hsame)
    rw [← replayed.getMN, hk, get] at getR
    cases getR) hset
  refine ⟨_, bind_eq_ok.mpr ⟨(), by simpa using hid, bind_eq_ok.mpr ⟨R', hok, rfl⟩⟩,
    ⟨hinv.hash, hinv.held, hinv.collateral_ne, hinv.owner_ne, hinv.owner⟩, hids, ?_, ?_⟩
  · show R'.nTotalRegisteredCount + 1 = _
    rw [hset.count, replayed.count, List.length_append, List.length_singleton, BitVec.add_assoc,
      BitVec.ofNat_add]
    rfl
  · intro k
    show R'.getMN k = _
    rw [hset.getMN]
    by_cases hk : k = b.proTxHash
    · simp [hk, stage, getL, getN]
    · rw [if_neg hk, replayed.getMN]
      apply stage_congr (fun _ _ => Iff.rfl) ?_ (fun _ _ => Iff.rfl)
      intro b' getN'
      have hne : b'.internalId ≠ b.internalId := fun e => hk (compat.newIds.id_unique getN' getN e)
      simp [hne]

theorem replayUpdate_spec
    (hgone : ∀ h a, L.getMN h = some a → N.getMN h = none → a.internalId ∈ gone)
    (replayed : Replayed ownerOf L N gone added updated R) (getL : L.getMN h = some a)
    (getN : N.getMN h = some b) (hnew : a.internalId ∉ updated) :
    ∃ R', replayUpdate R (a.internalId, .ofStates a.pdmnState b.pdmnState) = .ok R' ∧
      Replayed ownerOf L N gone added (updated ++ [a.internalId]) R' := by
  have get : R.getMN h = some a := by simp [replayed.getMN, stage, getL, getN, hnew]
  have hb := compat.kept getL getN
  have howner : b.pdmnState.keyIDOwner = a.pdmnState.keyIDOwner :=
    (compat.new.owner getN).trans (compat.old.owner getL).symm
  obtain ⟨R', hok, hinv, hset⟩ := replayed.unique.updateMN_spec get howner (by
    intro q hq k dmn hk getR
    rw [replayed.getMN] at getR
    exact compat.free_at_stage hgone getN (hb ▸ hq) hk getR)
  rw [updateMN, deref_some get, ok_bind] at hok
  refine ⟨R', ?_, hinv, replayed.ids.update get hset, hset.count.trans replayed.count, ?_⟩
  · unfold replayUpdate
    rw [deref_some (replayed.ids.getMNByInternalId get), ok_bind,
      CDeterministicMNStateDiff.applyToState_ofStates, hok]
  · intro k
    rw [hset.getMN]
    by_cases hk : k = h
    · simp [hk, stage, getL, getN, ← hb]
    · rw [if_neg hk, replayed.getMN]
      apply stage_congr (fun _ _ => Iff.rfl) (fun _ _ => Iff.rfl)
      intro a' getL'
      have hne : a'.internalId ≠ a.internalId := fun e => hk (compat.oldIds.id_unique getL' getL e)
      simp [hne]

theorem replayed_start (blockHash : Uint256) (nHeight : ℤ) :
    Replayed ownerOf L N [] [] [] { L with blockHash := blockHash, nHeight := nHeight } := by
  refine ⟨⟨compat.old.hash, compat.old.held, compat.old.collateral_ne, compat.old.owner_ne,
    compat.old.owner⟩, compat.oldIds, by simp, ?_⟩
  intro k
  show L.getMN k = _
  unfold stage
  cases L.getMN k <;> cases N.getMN k <;> simp

theorem replayRemovals (replayed : Replayed ownerOf L N [] [] [] R) :
    ∃ R', (L.buildDiff N).removedMns.toList.foldlM replayRemoval R = .ok R' ∧
      Replayed ownerOf L N (L.buildDiff N).removedMns.toList [] [] R' := by
  have nodup : (L.buildDiff N).removedMns.toList.Nodup :=
    ExtTreeSet.distinct_toList.imp fun hne e => hne (Std.compare_eq_iff_eq.mpr e)
  refine foldlM_total replayRemoval (fun done t => Replayed ownerOf L N done [] [] t) _ replayed ?_
  intro done id rest t hl ht
  have hmem : id ∈ (L.buildDiff N).removedMns.toList := by simp [hl]
  obtain ⟨h, a, getL, getN, rfl⟩ := (mem_removedMns compat.old).mp (ExtTreeSet.mem_toList.mp hmem)
  rw [hl, List.nodup_middle, List.nodup_cons, List.mem_append, not_or] at nodup
  exact compat.replayRemoval_spec ht getL getN nodup.1.1

theorem replayAdditions
    (hgone : ∀ h a, L.getMN h = some a → N.getMN h = none → a.internalId ∈ gone)
    (hids : (L.buildDiff N).addedMNs.map CDeterministicMN.internalId =
      List.range' L.nTotalRegisteredCount.toNat (L.buildDiff N).addedMNs.length)
    (hbound : L.nTotalRegisteredCount.toNat + (L.buildDiff N).addedMNs.length ≤ 2 ^ 32)
    (replayed : Replayed ownerOf L N gone [] [] R) :
    ∃ R', (L.buildDiff N).addedMNs.foldlM replayAddition R = .ok R' ∧
      Replayed ownerOf L N gone ((L.buildDiff N).addedMNs.map CDeterministicMN.internalId) [] R' := by
  refine foldlM_total replayAddition
    (fun done t => Replayed ownerOf L N gone (done.map CDeterministicMN.internalId) [] t) _
    replayed ?_
  intro done b rest t hl ht
  obtain ⟨getN, getL⟩ := (mem_addedMNs (L := L) compat.new).mp (show b ∈ _ by simp [hl])
  rw [hl] at hids hbound
  simp only [List.length_append, List.length_cons] at hids hbound
  have nodup : ((done ++ b :: rest).map CDeterministicMN.internalId).Nodup := by
    rw [hids]
    exact List.nodup_range'
  have hid : b.internalId = L.nTotalRegisteredCount.toNat + done.length := by
    have hat := congrArg (·[done.length]?) hids
    simpa using hat
  rw [List.map_append, List.map_cons, List.nodup_middle, List.nodup_cons, List.mem_append,
    not_or] at nodup
  rw [List.map_append]
  refine compat.replayAddition_spec hgone ht getL getN nodup.1.1 ?_
  rw [ht.count, hid, BitVec.toNat_add, BitVec.toNat_ofNat, List.length_map]
  omega

theorem replayUpdates
    (hgone : ∀ h a, L.getMN h = some a → N.getMN h = none → a.internalId ∈ gone)
    (replayed : Replayed ownerOf L N gone added [] R) :
    ∃ R', (L.buildDiff N).updatedMNs.toList.foldlM replayUpdate R = .ok R' ∧
      Replayed ownerOf L N gone added ((L.buildDiff N).updatedMNs.toList.map Prod.fst) R' := by
  have nodup := Keyed.nodup_keys (L.buildDiff N).updatedMNs
  refine foldlM_total replayUpdate
    (fun done t => Replayed ownerOf L N gone added (done.map Prod.fst) t) _ replayed ?_
  rintro done ⟨id, d⟩ rest t hl ht
  have hmem : (id, d) ∈ (L.buildDiff N).updatedMNs.toList := by simp [hl]
  obtain ⟨h, b, getN, rfl, hdiff⟩ := (updatedMNs_eq_some compat.new compat.newIds).mp
    (ExtTreeMap.mem_toList_iff_getElem?_eq_some.mp hmem)
  obtain ⟨a, getL, -, rfl⟩ := stateDiff_eq_some.mp hdiff
  rw [compat.new.hash getN] at getL
  rw [hl, List.map_append, List.map_cons, List.nodup_middle, List.nodup_cons, List.mem_append,
    not_or] at nodup
  rw [compat.kept_id getL getN] at nodup ⊢
  rw [List.map_append]
  exact compat.replayUpdate_spec hgone ht getL getN nodup.1.1

theorem mem_updated (getL : L.getMN h = some a) (getN : N.getMN h = some b)
    (hne : a.pdmnState ≠ b.pdmnState) :
    a.internalId ∈ (L.buildDiff N).updatedMNs.toList.map Prod.fst := by
  have hdiff : L.stateDiff b = some (.ofStates a.pdmnState b.pdmnState) :=
    stateDiff_eq_some.mpr ⟨a, by rw [compat.new.hash getN, getL], hne, rfl⟩
  have hentry := (updatedMNs_eq_some compat.new compat.newIds).mpr
    ⟨h, b, getN, compat.kept_id getL getN, hdiff⟩
  exact List.mem_map_of_mem (ExtTreeMap.mem_toList_iff_getElem?_eq_some.mpr hentry)

theorem applyDiff_buildDiff (blockHash : Uint256) (nHeight : ℤ)
    (hids : (L.buildDiff N).addedMNs.map CDeterministicMN.internalId =
      List.range' L.nTotalRegisteredCount.toNat (L.buildDiff N).addedMNs.length)
    (hbound : L.nTotalRegisteredCount.toNat + (L.buildDiff N).addedMNs.length ≤ 2 ^ 32)
    (hcount : N.nTotalRegisteredCount =
      L.nTotalRegisteredCount + BitVec.ofNat 32 (L.buildDiff N).addedMNs.length) :
    ∃ R, L.applyDiff blockHash nHeight (L.buildDiff N) = .ok R ∧ SameList R N := by
  obtain ⟨R₁, hremove, replayed₁⟩ := compat.replayRemovals (compat.replayed_start blockHash nHeight)
  have hgone : ∀ h a, L.getMN h = some a → N.getMN h = none →
      a.internalId ∈ (L.buildDiff N).removedMns.toList := fun h a getL getN =>
    ExtTreeSet.mem_toList.mpr ((mem_removedMns compat.old).mpr ⟨h, a, getL, getN, rfl⟩)
  obtain ⟨R₂, hadd, replayed₂⟩ := compat.replayAdditions hgone hids hbound replayed₁
  obtain ⟨R₃, hupdate, replayed₃⟩ := compat.replayUpdates hgone replayed₂
  refine ⟨R₃, ?_, sameList_of_getMN replayed₃.unique compat.new replayed₃.ids compat.newIds ?_ ?_⟩
  · unfold applyDiff
    exact bind_eq_ok.mpr ⟨R₁, hremove, bind_eq_ok.mpr ⟨R₂, hadd, hupdate⟩⟩
  · intro k
    rw [replayed₃.getMN]
    unfold stage
    cases getL : L.getMN k with
    | none =>
      cases getN : N.getMN k with
      | none => rfl
      | some b =>
        obtain rfl := compat.new.hash getN
        exact if_pos (List.mem_map_of_mem ((mem_addedMNs compat.new).mpr ⟨getN, getL⟩))
    | some a =>
      cases getN : N.getMN k with
      | none => exact if_pos (hgone k a getL getN)
      | some b =>
        by_cases hsame : a.pdmnState = b.pdmnState
        · have hab : b = a := (compat.kept getL getN).trans (by rw [← hsame])
          rw [hab]
          exact ite_self _
        · exact if_pos (compat.mem_updated getL getN hsame)
  · rw [replayed₃.count, hcount, List.length_map]

end Compatible

theorem addMN_count (run : R.addMN dmn = .ok N) :
    N.nTotalRegisteredCount = R.nTotalRegisteredCount := by
  obtain ⟨_, -, run⟩ := bind_eq_ok.mp run
  obtain ⟨_, -, run⟩ := bind_eq_ok.mp run
  rw [← pure_eq_ok.mp run]

theorem replayRemoval_count {id : ℕ} (run : replayRemoval R id = .ok N) :
    N.nTotalRegisteredCount = R.nTotalRegisteredCount := by
  obtain ⟨_, -, run⟩ := bind_eq_ok.mp run
  obtain ⟨_, -, run⟩ := bind_eq_ok.mp run
  obtain ⟨_, -, run⟩ := bind_eq_ok.mp run
  rw [← pure_eq_ok.mp run]

theorem replayUpdate_count {p : ℕ × CDeterministicMNStateDiff} (run : replayUpdate R p = .ok N) :
    N.nTotalRegisteredCount = R.nTotalRegisteredCount := by
  obtain ⟨_, -, run⟩ := bind_eq_ok.mp run
  obtain ⟨_, -, run⟩ := bind_eq_ok.mp run
  rw [← pure_eq_ok.mp run]

theorem applyDiff_ids {blockHash : Uint256} {nHeight : ℤ} {diff : CDeterministicMNListDiff}
    (run : L.applyDiff blockHash nHeight diff = .ok R) :
    R.nTotalRegisteredCount = L.nTotalRegisteredCount + BitVec.ofNat 32 diff.addedMNs.length ∧
      ∀ i b, diff.addedMNs[i]? = some b →
        b.internalId = (L.nTotalRegisteredCount.toNat + i) % 2 ^ 32 := by
  obtain ⟨R₁, hremove, run⟩ := bind_eq_ok.mp run
  obtain ⟨R₂, hadd, hupdate⟩ := bind_eq_ok.mp run
  have hcount₁ : R₁.nTotalRegisteredCount = L.nTotalRegisteredCount :=
    foldlM_inv replayRemoval (fun _ t => t.nTotalRegisteredCount = L.nTotalRegisteredCount) (by rfl)
      (fun _ _ _ t t' _ ht hstep => (replayRemoval_count hstep).trans ht) hremove
  have hcount₃ : R.nTotalRegisteredCount = R₂.nTotalRegisteredCount :=
    foldlM_inv replayUpdate (fun _ t => t.nTotalRegisteredCount = R₂.nTotalRegisteredCount) (by rfl)
      (fun _ _ _ t t' _ ht hstep => (replayUpdate_count hstep).trans ht) hupdate
  rw [hcount₃]
  refine foldlM_inv replayAddition (fun done t =>
    t.nTotalRegisteredCount = L.nTotalRegisteredCount + BitVec.ofNat 32 done.length ∧
      ∀ i b, done[i]? = some b → b.internalId = (L.nTotalRegisteredCount.toNat + i) % 2 ^ 32)
    ⟨by simp [hcount₁], by simp⟩ ?_ hadd
  rintro done b rest t t' - ⟨hcount, hids⟩ hstep
  obtain ⟨_, hid, hstep⟩ := bind_eq_ok.mp hstep
  obtain ⟨t₁, hstep, hpure⟩ := bind_eq_ok.mp hstep
  rw [← pure_eq_ok.mp hpure]
  refine ⟨?_, ?_⟩
  · show t₁.nTotalRegisteredCount + 1 = _
    rw [addMN_count hstep, hcount, List.length_append, List.length_singleton, BitVec.add_assoc,
      BitVec.ofNat_add]
    rfl
  · intro i b' hi
    rcases Nat.lt_trichotomy i done.length with hlt | rfl | hgt
    · rw [List.getElem?_append_left hlt] at hi
      exact hids i b' hi
    · simp only [List.getElem?_concat_length, Option.some.injEq] at hi
      rw [← hi, assertThat_eq_ok.mp hid, hcount, BitVec.toNat_add, BitVec.toNat_ofNat]
      omega
    · rw [List.getElem?_eq_none (by simp; omega)] at hi
      cases hi

end

end CDeterministicMNList

end ButCore.Evo
