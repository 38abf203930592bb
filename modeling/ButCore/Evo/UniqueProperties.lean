import ButCore.Evo.MNList
import ButCore.Lib.Keyed

/-!
# The unique-property invariant

The property map names exactly the properties of the smartnodes in the list, each with one holder
and count 1.
-/
namespace ButCore.Evo

open Checked

section

variable {dmn : CDeterministicMN}

@[simp] theorem collateral_mem {o : COutPoint} :
    .collateral o ∈ dmn.uniqueProperties ↔ o = dmn.collateralOutpoint := by
  simp [CDeterministicMN.uniqueProperties]

@[simp] theorem addr_mem {a : CService} :
    .addr a ∈ dmn.uniqueProperties ↔ a ≠ CService.null ∧ a = dmn.pdmnState.addr := by
  simp only [CDeterministicMN.uniqueProperties, List.mem_append, List.mem_singleton,
    List.mem_ite_nil_right, reduceCtorEq, UniqueProperty.addr.injEq, and_false, false_or, or_false]
  constructor <;> rintro ⟨hne, rfl⟩ <;> exact ⟨hne, rfl⟩

@[simp] theorem keyIDOwner_mem {k : CKeyID} :
    .keyIDOwner k ∈ dmn.uniqueProperties ↔ k = dmn.pdmnState.keyIDOwner := by
  simp [CDeterministicMN.uniqueProperties]

@[simp] theorem pubKeyOperator_mem {k : CBLSPublicKey} :
    .pubKeyOperator k ∈ dmn.uniqueProperties ↔ k ≠ none ∧ k = dmn.pdmnState.pubKeyOperator := by
  simp only [CDeterministicMN.uniqueProperties, List.mem_append, List.mem_singleton,
    List.mem_ite_nil_right, reduceCtorEq, UniqueProperty.pubKeyOperator.injEq, and_false, false_or,
    isValid_decodedKeys, Option.isSome_iff_ne_none]
  constructor <;> rintro ⟨hne, rfl⟩ <;> exact ⟨hne, rfl⟩

end

theorem nodup_uniqueProperties (dmn : CDeterministicMN) : dmn.uniqueProperties.Nodup := by
  unfold CDeterministicMN.uniqueProperties
  split_ifs <;> simp

theorem isNull_of_mem {dmn : CDeterministicMN} {q : UniqueProperty}
    (hcollateral : dmn.collateralOutpoint ≠ COutPoint.null) (howner : dmn.pdmnState.keyIDOwner ≠ 0)
    (hq : q ∈ dmn.uniqueProperties) : q.isNull = false := by
  cases q with
  | collateral o => simpa [UniqueProperty.isNull, collateral_mem.mp hq] using hcollateral
  | addr a => simpa [UniqueProperty.isNull] using (addr_mem.mp hq).1
  | keyIDOwner k => simpa [UniqueProperty.isNull, keyIDOwner_mem.mp hq] using howner
  | pubKeyOperator k => simpa [UniqueProperty.isNull] using (pubKeyOperator_mem.mp hq).1

section

variable {m : MnUniquePropertyMap} {h : Uint256}

theorem addUniqueProperty_free {v : UniqueProperty} (hv : v.isNull = false) (free : m v = none) :
    addUniqueProperty m h v = .ok (Function.update m v (some (h, 1))) := by
  simp only [addUniqueProperty, hv, free]
  rfl

theorem addUniqueProperty_taken {v : UniqueProperty} {holder : Uint256} {count : ℕ}
    (hv : v.isNull = false) (taken : m v = some (holder, count)) (other : holder ≠ h) :
    addUniqueProperty m h v = .error (.assertion .addUniqueProperty) := by
  simp only [addUniqueProperty, hv, taken]
  exact bind_eq_error.mpr (Or.inr ⟨(), by simp, bind_eq_error.mpr (Or.inl (by simp [other]))⟩)

theorem deleteUniqueProperty_held {v : UniqueProperty} (hv : v.isNull = false)
    (held : m v = some (h, 1)) :
    deleteUniqueProperty m h v = .ok (Function.update m v none) := by
  simp [deleteUniqueProperty, hv, held]

theorem addUniqueProperties_free {ps : List UniqueProperty} (nodup : ps.Nodup)
    (nonNull : ∀ p ∈ ps, p.isNull = false) (free : ∀ p ∈ ps, m p = none) :
    ps.foldlM (addUniqueProperty · h) m = .ok fun q => if q ∈ ps then some (h, 1) else m q := by
  induction ps generalizing m with
  | nil => simp
  | cons p ps ih =>
    obtain ⟨hp, hps⟩ := List.nodup_cons.mp nodup
    refine foldlM_cons_ok.mpr ⟨_, addUniqueProperty_free (nonNull p (by simp)) (free p (by simp)), ?_⟩
    rw [ih hps (fun q hq => nonNull q (by simp [hq]))]
    · congr 1
      funext q
      by_cases hq : q = p <;> simp [hq]
    · intro q hq
      have hne : q ≠ p := fun e => hp (e ▸ hq)
      rw [Function.update_of_ne hne]
      exact free q (by simp [hq])

theorem deleteUniqueProperties_held {ps : List UniqueProperty} (nodup : ps.Nodup)
    (nonNull : ∀ p ∈ ps, p.isNull = false) (held : ∀ p ∈ ps, m p = some (h, 1)) :
    ps.foldlM (deleteUniqueProperty · h) m = .ok fun q => if q ∈ ps then none else m q := by
  induction ps generalizing m with
  | nil => simp
  | cons p ps ih =>
    obtain ⟨hp, hps⟩ := List.nodup_cons.mp nodup
    refine foldlM_cons_ok.mpr
      ⟨_, deleteUniqueProperty_held (nonNull p (by simp)) (held p (by simp)), ?_⟩
    rw [ih hps (fun q hq => nonNull q (by simp [hq]))]
    · congr 1
      funext q
      by_cases hq : q = p <;> simp [hq]
    · intro q hq
      have hne : q ≠ p := fun e => hp (e ▸ hq)
      rw [Function.update_of_ne hne]
      exact held q (by simp [hq])

def slot (h : Uint256) (v : UniqueProperty) : Option (Uint256 × ℕ) :=
  if v.isNull then none else some (h, 1)

theorem drop_old {old : UniqueProperty} (holds : m old = slot h old) :
    (if old.isNull then pure m else deleteUniqueProperty m h old) =
      .ok (Function.update m old none) := by
  by_cases hnull : old.isNull
  · have hnone : m old = none := by rw [holds, slot, if_pos hnull]
    rw [if_pos hnull, ← hnone, Function.update_eq_self]
    rfl
  · rw [if_neg hnull]
    refine deleteUniqueProperty_held (by simpa using hnull) ?_
    rw [holds, slot, if_neg hnull]

theorem updateUniqueProperty_taken {old new : UniqueProperty} {holder : Uint256} {count : ℕ}
    (holds : m old = slot h old) (hnull : new.isNull = false)
    (taken : m new = some (holder, count)) (other : holder ≠ h) :
    updateUniqueProperty m h old new = .error (.assertion .addUniqueProperty) := by
  have hne : new ≠ old := by
    rintro rfl
    rw [holds, slot, hnull] at taken
    cases taken
    exact other rfl
  unfold updateUniqueProperty
  rw [if_neg fun e => hne e.symm]
  refine bind_eq_error.mpr (Or.inr ⟨_, drop_old holds, ?_⟩)
  rw [if_neg (by simp [hnull])]
  exact addUniqueProperty_taken hnull (by rw [Function.update_of_ne hne, taken]) other

theorem updateUniqueProperty_free (old new : UniqueProperty) (holds : m old = slot h old)
    (free : old ≠ new → m new = none) :
    updateUniqueProperty m h old new =
      .ok fun q => if q = new then slot h new else if q = old then none else m q := by
  unfold updateUniqueProperty
  by_cases same : old = new
  · subst same
    rw [if_pos rfl]
    congr 1
    funext q
    by_cases hq : q = old <;> simp [hq, holds]
  · rw [if_neg same]
    have hfree := free same
    refine bind_eq_ok.mpr ⟨_, drop_old holds, ?_⟩
    have hne : new ≠ old := fun e => same e.symm
    by_cases hnull : new.isNull
    · rw [if_pos hnull]
      show Except.ok _ = _
      congr 1
      funext q
      by_cases hq : q = new
      · rw [hq, Function.update_of_ne hne, hfree, if_pos rfl, slot, if_pos hnull]
      · simp [hq, Function.update_apply]
    · rw [if_neg hnull, addUniqueProperty_free (by simpa using hnull)
        (by rw [Function.update_of_ne hne, hfree])]
      congr 1
      funext q
      by_cases hq : q = new <;> simp [hq, Function.update_apply, slot, hnull]

def updatedProperties (m : MnUniquePropertyMap) (h : Uint256) (old new : CDeterministicMNState) :
    MnUniquePropertyMap
  | .collateral o => m (.collateral o)
  | .addr a =>
    if a = new.addr then slot h (.addr a) else if a = old.addr then none else m (.addr a)
  | .keyIDOwner k =>
    if k = new.keyIDOwner then slot h (.keyIDOwner k)
    else if k = old.keyIDOwner then none else m (.keyIDOwner k)
  | .pubKeyOperator k =>
    if k = new.pubKeyOperator then slot h (.pubKeyOperator k)
    else if k = old.pubKeyOperator then none else m (.pubKeyOperator k)

theorem updateUniqueProperties_free {old new : CDeterministicMNState}
    (holdAddr : m (.addr old.addr) = slot h (.addr old.addr))
    (holdOwner : m (.keyIDOwner old.keyIDOwner) = slot h (.keyIDOwner old.keyIDOwner))
    (holdKey : m (.pubKeyOperator old.pubKeyOperator) = slot h (.pubKeyOperator old.pubKeyOperator))
    (freeAddr : old.addr ≠ new.addr → m (.addr new.addr) = none)
    (freeOwner : old.keyIDOwner ≠ new.keyIDOwner → m (.keyIDOwner new.keyIDOwner) = none)
    (freeKey : old.pubKeyOperator ≠ new.pubKeyOperator → m (.pubKeyOperator new.pubKeyOperator) = none) :
    updateUniqueProperties m h old new = .ok (updatedProperties m h old new) := by
  have addrStep := updateUniqueProperty_free (.addr old.addr) (.addr new.addr) holdAddr
    (fun hne => freeAddr fun e => hne (by rw [e]))
  refine bind_eq_ok.mpr ⟨_, addrStep, ?_⟩
  have ownerStep := updateUniqueProperty_free (h := h)
    (m := fun q => if q = .addr new.addr then slot h (.addr new.addr)
      else if q = .addr old.addr then none else m q)
    (.keyIDOwner old.keyIDOwner) (.keyIDOwner new.keyIDOwner) (by simpa using holdOwner)
    (fun hne => by simpa using freeOwner fun e => hne (by rw [e]))
  refine bind_eq_ok.mpr ⟨_, ownerStep, ?_⟩
  rw [updateUniqueProperty_free (h := h) (.pubKeyOperator old.pubKeyOperator)
    (.pubKeyOperator new.pubKeyOperator) (by simpa using holdKey)
    (fun hne => by simpa using freeKey fun e => hne (by rw [e]))]
  congr 1
  funext q
  cases q with
  | collateral o => simp [updatedProperties]
  | addr a => by_cases ha : a = new.addr <;> simp [updatedProperties, ha]
  | keyIDOwner k => by_cases hk : k = new.keyIDOwner <;> simp [updatedProperties, hk]
  | pubKeyOperator k => by_cases hk : k = new.pubKeyOperator <;> simp [updatedProperties, hk]

section

variable {dmn : CDeterministicMN} {st : CDeterministicMNState} {q : UniqueProperty}

theorem updatedProperties_new (hq : q ∈ { dmn with pdmnState := st }.uniqueProperties)
    (hnull : q.isNull = false) (held : q = .collateral dmn.collateralOutpoint → m q = some (h, 1)) :
    updatedProperties m h dmn.pdmnState st q = some (h, 1) := by
  have hslot : slot h q = some (h, 1) := by rw [slot, hnull]; rfl
  cases q with
  | collateral o => exact held (by simpa using hq)
  | addr a => exact (if_pos (addr_mem.mp hq).2).trans hslot
  | keyIDOwner k => exact (if_pos (keyIDOwner_mem.mp hq)).trans hslot
  | pubKeyOperator k => exact (if_pos (pubKeyOperator_mem.mp hq).2).trans hslot

theorem updatedProperties_old (hold : q ∈ dmn.uniqueProperties)
    (hnew : q ∉ { dmn with pdmnState := st }.uniqueProperties) :
    updatedProperties m h dmn.pdmnState st q = none := by
  cases q with
  | collateral o => exact absurd (by simpa using hold) hnew
  | addr a =>
    obtain ⟨hne, ha⟩ := addr_mem.mp hold
    exact (if_neg fun e => hnew (addr_mem.mpr ⟨hne, e⟩)).trans (if_pos ha)
  | keyIDOwner k =>
    exact (if_neg fun e => hnew (keyIDOwner_mem.mpr e)).trans (if_pos (keyIDOwner_mem.mp hold))
  | pubKeyOperator k =>
    obtain ⟨hne, hk⟩ := pubKeyOperator_mem.mp hold
    exact (if_neg fun e => hnew (pubKeyOperator_mem.mpr ⟨hne, e⟩)).trans (if_pos hk)

theorem updatedProperties_null {old new : CDeterministicMNState} (hq : q.isNull = true)
    (free : m q = none) : updatedProperties m h old new q = none := by
  have hslot : slot h q = none := by rw [slot, hq]; rfl
  cases q <;> simp only [updatedProperties, hslot, free, ite_self]

theorem updatedProperties_other (hnew : q ∉ { dmn with pdmnState := st }.uniqueProperties)
    (hold : q ∉ dmn.uniqueProperties) (null : q.isNull = true → m q = none) :
    updatedProperties m h dmn.pdmnState st q = m q := by
  cases hq : q.isNull with
  | true => rw [updatedProperties_null hq (null hq), null hq]
  | false => cases q <;> simp_all [updatedProperties, UniqueProperty.isNull]

end

end

namespace CDeterministicMNList

variable {list list' : CDeterministicMNList} {h k : Uint256} {dmn : CDeterministicMN}

/-- The hash of a registration fixes the owner key that it registers: `ownerOf` gives it. -/
structure UniqueInvariant (ownerOf : Uint256 → CKeyID) (list : CDeterministicMNList) : Prop where
  hash : ∀ {h dmn}, list.getMN h = some dmn → dmn.proTxHash = h
  held : ∀ {q h c}, list.mnUniquePropertyMap q = some (h, c) ↔
    c = 1 ∧ ∃ dmn, list.getMN h = some dmn ∧ q ∈ dmn.uniqueProperties
  collateral_ne : ∀ {h dmn}, list.getMN h = some dmn → dmn.collateralOutpoint ≠ COutPoint.null
  owner_ne : ∀ {h dmn}, list.getMN h = some dmn → dmn.pdmnState.keyIDOwner ≠ 0
  owner : ∀ {h dmn}, list.getMN h = some dmn → dmn.pdmnState.keyIDOwner = ownerOf h

/-- `list'` is `list` with `o` as the entry of `h` and `ids` as the index by internal id. -/
structure EntrySet (list : CDeterministicMNList) (h : Uint256) (o : Option CDeterministicMN)
    (ids : Std.ExtTreeMap ℕ Uint256) (list' : CDeterministicMNList) : Prop where
  getMN : ∀ k, list'.getMN k = if k = h then o else list.getMN k
  ids : list'.mnInternalIdMap = ids
  count : list'.nTotalRegisteredCount = list.nTotalRegisteredCount
  height : list'.nHeight = list.nHeight

theorem EntrySet.cases {o : Option CDeterministicMN} {ids : Std.ExtTreeMap ℕ Uint256}
    {dmn : CDeterministicMN} (set : EntrySet list h o ids list') (found : list'.getMN k = some dmn) :
    o = some dmn ∨ list.getMN k = some dmn := by
  rw [set.getMN] at found
  split at found
  · exact Or.inl found
  · exact Or.inr found

theorem addMN_entrySet (ok : list.addMN dmn = .ok list') : list.getMN dmn.proTxHash = none ∧
    EntrySet list dmn.proTxHash (some dmn)
      (list.mnInternalIdMap.insert dmn.internalId dmn.proTxHash) list' := by
  obtain ⟨_, new, ok⟩ := bind_eq_ok.mp ok
  obtain ⟨_, -, ok⟩ := bind_eq_ok.mp ok
  obtain rfl := pure_eq_ok.mp ok
  exact ⟨assertThat_eq_ok.mp new, fun k => Keyed.getElem?_insert_eq list.mnMap _ k _, rfl, rfl, rfl⟩

theorem removeMN_entrySet (ok : list.removeMN h = .ok list') : ∃ dmn, list.getMN h = some dmn ∧
    EntrySet list h none (list.mnInternalIdMap.erase dmn.internalId) list' := by
  obtain ⟨dmn, get, ok⟩ := bind_eq_ok.mp ok
  obtain ⟨_, -, ok⟩ := bind_eq_ok.mp ok
  obtain rfl := pure_eq_ok.mp ok
  exact ⟨dmn, deref_eq_ok.mp get, fun k => Keyed.getElem?_erase_eq list.mnMap _ k, rfl, rfl, rfl⟩

theorem updateMNEntry_entrySet {st : CDeterministicMNState}
    (ok : list.updateMNEntry dmn st = .ok list') :
    EntrySet list dmn.proTxHash (some { dmn with pdmnState := st }) list.mnInternalIdMap list' := by
  obtain ⟨_, -, ok⟩ := bind_eq_ok.mp ok
  obtain rfl := pure_eq_ok.mp ok
  exact ⟨fun k => Keyed.getElem?_insert_eq list.mnMap _ k _, rfl, rfl, rfl⟩

def propertiesOf (o : Option CDeterministicMN) : List UniqueProperty :=
  (o.map CDeterministicMN.uniqueProperties).getD []

theorem mem_propertiesOf {o : Option CDeterministicMN} {q : UniqueProperty} :
    q ∈ propertiesOf o ↔ ∃ dmn, o = some dmn ∧ q ∈ dmn.uniqueProperties := by
  cases o <;> simp [propertiesOf]

theorem getMN_empty (blockHash h : Uint256) : (empty blockHash).getMN h = none :=
  Std.ExtTreeMap.getElem?_empty

theorem uniqueInvariant_empty (ownerOf : Uint256 → CKeyID) (blockHash : Uint256) :
    UniqueInvariant ownerOf (empty blockHash) := by
  have unheld (q : UniqueProperty) : (empty blockHash).mnUniquePropertyMap q = none := rfl
  refine ⟨?_, ?_, ?_, ?_, ?_⟩ <;> simp [getMN_empty, unheld]

/-- One rule for the three operations: the properties of the new entry go to `h`, those that only
the old entry had are dropped. -/
theorem held_entrySet {props : CDeterministicMN → List UniqueProperty} {o : Option CDeterministicMN}
    (held : ∀ {q h c}, list.mnUniquePropertyMap q = some (h, c) ↔
      c = 1 ∧ ∃ dmn, list.getMN h = some dmn ∧ q ∈ props dmn)
    (get : ∀ k, list'.getMN k = if k = h then o else list.getMN k)
    (taken : ∀ dmn, o = some dmn → ∀ q ∈ props dmn, list'.mnUniquePropertyMap q = some (h, 1))
    (dropped : ∀ q, (∀ dmn, o = some dmn → q ∉ props dmn) →
      (∃ dmn, list.getMN h = some dmn ∧ q ∈ props dmn) → list'.mnUniquePropertyMap q = none)
    (kept : ∀ q, (∀ dmn, o = some dmn → q ∉ props dmn) →
      (¬ ∃ dmn, list.getMN h = some dmn ∧ q ∈ props dmn) →
      list'.mnUniquePropertyMap q = list.mnUniquePropertyMap q)
    (free : ∀ dmn, o = some dmn → ∀ q ∈ props dmn, ∀ k dmn', k ≠ h → list.getMN k = some dmn' →
      q ∉ props dmn') (q : UniqueProperty) (k : Uint256) (c : ℕ) :
    list'.mnUniquePropertyMap q = some (k, c) ↔
      c = 1 ∧ ∃ dmn, list'.getMN k = some dmn ∧ q ∈ props dmn := by
  rw [get k]
  by_cases hnew : ∃ dmn, o = some dmn ∧ q ∈ props dmn
  · obtain ⟨dmn, ho, hq⟩ := hnew
    rw [taken dmn ho q hq]
    constructor
    · rintro ⟨⟩
      exact ⟨rfl, dmn, by rw [if_pos rfl, ho], hq⟩
    · rintro ⟨rfl, dmn', hk, hq'⟩
      by_cases hkh : k = h
      · rw [hkh]
      · rw [if_neg hkh] at hk
        exact absurd hq' (free dmn ho q hq k dmn' hkh hk)
  · have hnew' : ∀ dmn, o = some dmn → q ∉ props dmn := fun dmn ho hq => hnew ⟨dmn, ho, hq⟩
    by_cases hold : ∃ dmn, list.getMN h = some dmn ∧ q ∈ props dmn
    · rw [dropped q hnew' hold]
      refine iff_of_false (by simp) ?_
      rintro ⟨-, dmn, hk, hq⟩
      by_cases hkh : k = h
      · rw [if_pos hkh] at hk
        exact hnew' dmn hk hq
      · rw [if_neg hkh] at hk
        have same := (held.mpr ⟨rfl, hold⟩).symm.trans (held.mpr ⟨rfl, dmn, hk, hq⟩)
        exact hkh (Prod.mk.inj (Option.some.inj same)).1.symm
    · rw [kept q hnew' hold, held]
      by_cases hkh : k = h
      · rw [if_pos hkh, hkh]
        exact iff_of_false (fun hc => hold hc.2) fun ⟨_, dmn, ho, hq⟩ => hnew' dmn ho hq
      · rw [if_neg hkh]

namespace UniqueInvariant

variable {ownerOf : Uint256 → CKeyID} (inv : UniqueInvariant ownerOf list)

include inv

theorem holds (get : list.getMN h = some dmn) {q : UniqueProperty}
    (hq : q ∈ dmn.uniqueProperties) : list.mnUniquePropertyMap q = some (h, 1) :=
  inv.held.mpr ⟨rfl, dmn, get, hq⟩

theorem holder_unique {dmn' : CDeterministicMN} {q : UniqueProperty}
    (get : list.getMN h = some dmn) (hq : q ∈ dmn.uniqueProperties)
    (get' : list.getMN k = some dmn') (hq' : q ∈ dmn'.uniqueProperties) : h = k := by
  have heq := (inv.holds get hq).symm.trans (inv.holds get' hq')
  simpa using heq

theorem property_none_iff {q : UniqueProperty} :
    list.mnUniquePropertyMap q = none ↔
      ∀ h dmn, list.getMN h = some dmn → q ∉ dmn.uniqueProperties := by
  constructor
  · intro hnone h dmn get hq
    rw [inv.holds get hq] at hnone
    cases hnone
  · intro free
    cases hq : list.mnUniquePropertyMap q with
    | none => rfl
    | some p =>
      obtain ⟨-, dmn, get, hmem⟩ := inv.held.mp (show _ = some (p.1, p.2) from hq)
      exact absurd hmem (free _ _ get)

theorem hasUniqueProperty_iff {q : UniqueProperty} :
    list.hasUniqueProperty q = true ↔
      ∃ h dmn, list.getMN h = some dmn ∧ q ∈ dmn.uniqueProperties := by
  rw [hasUniqueProperty, Option.isSome_iff_ne_none, ne_eq, inv.property_none_iff]
  push Not
  rfl

theorem getUniquePropertyMN_of_mem {q : UniqueProperty} (get : list.getMN h = some dmn)
    (hq : q ∈ dmn.uniqueProperties) : list.getUniquePropertyMN q = some dmn := by
  rw [getUniquePropertyMN, inv.holds get hq]
  exact get

theorem mem_of_getUniquePropertyMN {q : UniqueProperty} (get : list.getUniquePropertyMN q = some dmn) :
    list.getMN dmn.proTxHash = some dmn ∧ q ∈ dmn.uniqueProperties := by
  obtain ⟨⟨k, c⟩, hq, hget⟩ := Option.bind_eq_some_iff.mp get
  obtain ⟨-, dmn', hget', hmem⟩ := inv.held.mp hq
  cases hget.symm.trans hget'
  exact ⟨inv.hash hget ▸ hget, hmem⟩

theorem property_nonNull (get : list.getMN h = some dmn) {q : UniqueProperty}
    (hq : q ∈ dmn.uniqueProperties) : q.isNull = false :=
  isNull_of_mem (inv.collateral_ne get) (inv.owner_ne get) hq

theorem entrySet {o : Option CDeterministicMN}
    (get : ∀ k, list'.getMN k = if k = h then o else list.getMN k)
    (taken : ∀ q ∈ propertiesOf o, list'.mnUniquePropertyMap q = some (h, 1))
    (dropped : ∀ q ∉ propertiesOf o, q ∈ propertiesOf (list.getMN h) →
      list'.mnUniquePropertyMap q = none)
    (kept : ∀ q ∉ propertiesOf o, q ∉ propertiesOf (list.getMN h) →
      list'.mnUniquePropertyMap q = list.mnUniquePropertyMap q)
    (free : ∀ q ∈ propertiesOf o, ∀ k dmn, k ≠ h → list.getMN k = some dmn →
      q ∉ dmn.uniqueProperties)
    (wf : ∀ dmn, o = some dmn → dmn.proTxHash = h ∧ dmn.collateralOutpoint ≠ COutPoint.null ∧
      dmn.pdmnState.keyIDOwner ≠ 0 ∧ dmn.pdmnState.keyIDOwner = ownerOf h) :
    UniqueInvariant ownerOf list' := by
  have entry : ∀ {P : Uint256 → CDeterministicMN → Prop}, (∀ dmn, o = some dmn → P h dmn) →
      (∀ k dmn, list.getMN k = some dmn → P k dmn) →
      ∀ {k dmn}, list'.getMN k = some dmn → P k dmn := by
    intro P new old k dmn hk
    rw [get k] at hk
    by_cases hkh : k = h
    · rw [if_pos hkh] at hk
      exact hkh ▸ new dmn hk
    · rw [if_neg hkh] at hk
      exact old k dmn hk
  simp only [mem_propertiesOf] at taken dropped kept free
  refine ⟨entry (fun dmn ho => (wf dmn ho).1) fun _ _ => inv.hash, fun {q k c} => ?_,
    entry (fun dmn ho => (wf dmn ho).2.1) fun _ _ => inv.collateral_ne,
    entry (fun dmn ho => (wf dmn ho).2.2.1) fun _ _ => inv.owner_ne,
    entry (fun dmn ho => (wf dmn ho).2.2.2) fun _ _ => inv.owner⟩
  exact held_entrySet inv.held get (fun dmn ho q hq => taken q ⟨dmn, ho, hq⟩)
    (fun q hnew => dropped q fun ⟨dmn, ho, hq⟩ => hnew dmn ho hq)
    (fun q hnew => kept q fun ⟨dmn, ho, hq⟩ => hnew dmn ho hq)
    (fun dmn ho q hq => free q ⟨dmn, ho, hq⟩) q k c

variable (dmn) in
theorem addMN_spec (new : list.getMN dmn.proTxHash = none)
    (hcollateral : dmn.collateralOutpoint ≠ COutPoint.null) (hnull : dmn.pdmnState.keyIDOwner ≠ 0)
    (howner : dmn.pdmnState.keyIDOwner = ownerOf dmn.proTxHash)
    (free : ∀ q ∈ dmn.uniqueProperties, list.mnUniquePropertyMap q = none) :
    ∃ list', list.addMN dmn = .ok list' ∧ UniqueInvariant ownerOf list' ∧
      EntrySet list dmn.proTxHash (some dmn)
        (list.mnInternalIdMap.insert dmn.internalId dmn.proTxHash) list' := by
  have added := addUniqueProperties_free (h := dmn.proTxHash) (nodup_uniqueProperties dmn)
    (fun q hq => isNull_of_mem hcollateral hnull hq) free
  refine ⟨_, bind_eq_ok.mpr ⟨(), by simp [new], bind_eq_ok.mpr ⟨_, added, rfl⟩⟩, ?_, ?_⟩
  · apply inv.entrySet (h := dmn.proTxHash) (o := some dmn)
    · intro k
      exact Keyed.getElem?_insert_eq list.mnMap _ k _
    · intro q hq
      exact if_pos (by simpa [propertiesOf] using hq)
    · intro q _ hold
      simp [propertiesOf, new] at hold
    · intro q hq _
      exact if_neg (by simpa [propertiesOf] using hq)
    · intro q hq k dmn' _ get hq'
      exact (inv.property_none_iff.mp (free q (by simpa [propertiesOf] using hq))) k dmn' get hq'
    · rintro _ ⟨⟩
      exact ⟨rfl, hcollateral, hnull, howner⟩
  · exact ⟨fun k => Keyed.getElem?_insert_eq list.mnMap _ k _, rfl, rfl, rfl⟩

theorem removeMN_spec (get : list.getMN h = some dmn) :
    ∃ list', list.removeMN h = .ok list' ∧ UniqueInvariant ownerOf list' ∧
      EntrySet list h none (list.mnInternalIdMap.erase dmn.internalId) list' := by
  have hhash := inv.hash get
  have removed := deleteUniqueProperties_held (m := list.mnUniquePropertyMap) (h := dmn.proTxHash)
    (nodup_uniqueProperties dmn) (fun q hq => inv.property_nonNull get hq)
    (fun q hq => hhash.symm ▸ inv.holds get hq)
  refine ⟨_, bind_eq_ok.mpr ⟨dmn, by simp [get], bind_eq_ok.mpr ⟨_, removed, rfl⟩⟩, ?_, ?_⟩
  · apply inv.entrySet (h := h) (o := none)
    · intro k
      exact Keyed.getElem?_erase_eq list.mnMap _ k
    · intro q hq
      simp [propertiesOf] at hq
    · intro q _ hold
      exact if_pos (by simpa [propertiesOf, get] using hold)
    · intro q _ hold
      exact if_neg (by simpa [propertiesOf, get] using hold)
    · intro q hq
      simp [propertiesOf] at hq
    · rintro _ ⟨⟩
  · exact ⟨fun k => Keyed.getElem?_erase_eq list.mnMap _ k, rfl, rfl, rfl⟩

theorem slot_of_null {q : UniqueProperty} (hq : q.isNull = true) :
    list.mnUniquePropertyMap q = none := by
  rw [inv.property_none_iff]
  intro k dmn get hmem
  rw [inv.property_nonNull get hmem] at hq
  cases hq

theorem slot_of_property (get : list.getMN h = some dmn) {q : UniqueProperty}
    (hq : q.isNull = false → q ∈ dmn.uniqueProperties) :
    list.mnUniquePropertyMap q = slot h q := by
  unfold slot
  cases hnull : q.isNull with
  | true => exact inv.slot_of_null hnull
  | false => exact inv.holds get (hq hnull)

theorem updateMN_spec (get : list.getMN h = some dmn) {st : CDeterministicMNState}
    (hkeep : st.keyIDOwner = dmn.pdmnState.keyIDOwner)
    (free : ∀ q ∈ { dmn with pdmnState := st }.uniqueProperties, ∀ k dmn', k ≠ h →
      list.getMN k = some dmn' → q ∉ dmn'.uniqueProperties) :
    ∃ list', list.updateMN h st = .ok list' ∧ UniqueInvariant ownerOf list' ∧
      EntrySet list h (some { dmn with pdmnState := st }) list.mnInternalIdMap list' := by
  obtain rfl := inv.hash get
  have unheld : ∀ {q : UniqueProperty},
      (q.isNull = false → q ∈ { dmn with pdmnState := st }.uniqueProperties) →
      q ∉ dmn.uniqueProperties → list.mnUniquePropertyMap q = none := by
    intro q hnew hold
    cases hnull : q.isNull with
    | true => exact inv.slot_of_null hnull
    | false =>
      rw [inv.property_none_iff]
      intro k dmn' get' hq'
      by_cases hk : k = dmn.proTxHash
      · rw [hk, get] at get'
        cases get'
        exact hold hq'
      · exact free q (hnew hnull) k dmn' hk get' hq'
  have updated := updateUniqueProperties_free (h := dmn.proTxHash)
    (inv.slot_of_property get fun hn => by
      simpa [UniqueProperty.isNull] using hn)
    (inv.slot_of_property get fun _ => keyIDOwner_mem.mpr rfl)
    (inv.slot_of_property get fun hn => by
      simpa [UniqueProperty.isNull] using hn)
    (fun hne => unheld (fun hn => by simpa [UniqueProperty.isNull] using hn)
      (fun e => hne (addr_mem.mp e).2.symm))
    (fun hne => absurd hkeep.symm hne)
    (fun hne => unheld (fun hn => by simpa [UniqueProperty.isNull] using hn)
      (fun e => hne (pubKeyOperator_mem.mp e).2.symm))
  refine ⟨_, bind_eq_ok.mpr ⟨dmn, by simp [get], bind_eq_ok.mpr ⟨_, updated, rfl⟩⟩,
    ?_, ?_⟩
  · apply inv.entrySet (h := dmn.proTxHash) (o := some { dmn with pdmnState := st })
    · intro k
      exact Keyed.getElem?_insert_eq list.mnMap _ k _
    · intro q hq
      obtain ⟨_, ⟨⟩, hq⟩ := mem_propertiesOf.mp hq
      refine updatedProperties_new hq ?_ fun e => e ▸ inv.holds get (collateral_mem.mpr rfl)
      apply isNull_of_mem ?_ ?_ hq
      · exact show dmn.collateralOutpoint ≠ _ from inv.collateral_ne get
      · exact fun e => inv.owner_ne get (hkeep.symm.trans e)
    · intro q hnew hold
      obtain ⟨_, hget, hq⟩ := mem_propertiesOf.mp hold
      cases get.symm.trans hget
      exact updatedProperties_old hq fun hq' => hnew (mem_propertiesOf.mpr ⟨_, rfl, hq'⟩)
    · intro q hnew hold
      apply updatedProperties_other (fun hq => ?_) (fun hq => ?_) inv.slot_of_null
      · exact hnew (mem_propertiesOf.mpr ⟨_, rfl, hq⟩)
      · exact hold (mem_propertiesOf.mpr ⟨_, get, hq⟩)
    · intro q hq k dmn' hk get' hq'
      exact free q (by simpa [propertiesOf] using hq) k dmn' hk get' hq'
    · rintro _ ⟨⟩
      refine ⟨rfl, show dmn.collateralOutpoint ≠ _ from inv.collateral_ne get, ?_, ?_⟩
      · exact fun e => inv.owner_ne get (hkeep.symm.trans e)
      · exact hkeep.trans (inv.owner get)
  · refine ⟨fun k => ?_, rfl, rfl, rfl⟩
    exact Keyed.getElem?_insert_eq list.mnMap _ k _

/-- The collision that the assertion of `AddUniqueProperty` reports: another smartnode has the
operator key that an update which drops the address brings in. -/
theorem updateMN_clash (get : list.getMN h = some dmn) {st : CDeterministicMNState}
    (hkeep : st.keyIDOwner = dmn.pdmnState.keyIDOwner) (haddr : st.addr = CService.null)
    (hkey : st.pubKeyOperator ≠ none) {other : CDeterministicMN} (hne : k ≠ h)
    (getOther : list.getMN k = some other)
    (clash : other.pdmnState.pubKeyOperator = st.pubKeyOperator) :
    list.updateMN h st = .error (.assertion .addUniqueProperty) := by
  obtain rfl := inv.hash get
  refine bind_eq_error.mpr (Or.inr ⟨dmn, by simp [get], bind_eq_error.mpr (Or.inl ?_)⟩)
  have addrStep := updateUniqueProperty_free (h := dmn.proTxHash) (.addr dmn.pdmnState.addr)
    (.addr st.addr)
    (inv.slot_of_property get fun hn => by simpa [UniqueProperty.isNull] using hn)
    (fun _ => inv.slot_of_null (by simp [UniqueProperty.isNull, haddr]))
  refine bind_eq_error.mpr (Or.inr ⟨_, addrStep, bind_eq_error.mpr (Or.inr ?_)⟩)
  rw [hkeep]
  have taken := inv.holds getOther (pubKeyOperator_mem.mpr ⟨hkey, clash.symm⟩)
  refine ⟨_, if_pos rfl, updateUniqueProperty_taken ?_ ?_ (by simpa using taken) hne⟩
  · simp only [reduceCtorEq, if_false]
    exact inv.slot_of_property get fun hn => by simpa [UniqueProperty.isNull] using hn
  · simpa [UniqueProperty.isNull] using hkey

end UniqueInvariant

/-- The part of a smartnode that the unique properties and the internal ids depend on. -/
def core (dmn : CDeterministicMN) :
    Uint256 × ℕ × COutPoint × ℕ × CService × CKeyID × CBLSPublicKey :=
  (dmn.proTxHash, dmn.internalId, dmn.collateralOutpoint, dmn.nOperatorReward, dmn.pdmnState.addr,
    dmn.pdmnState.keyIDOwner, dmn.pdmnState.pubKeyOperator)

/-- `list'` has the same smartnodes, up to heights, penalties, hashes and scripts. -/
structure Keeps (list list' : CDeterministicMNList) : Prop where
  core : ∀ k, (list'.getMN k).map core = (list.getMN k).map core
  ids : list'.mnInternalIdMap = list.mnInternalIdMap
  count : list'.nTotalRegisteredCount = list.nTotalRegisteredCount

theorem Keeps.refl (list : CDeterministicMNList) : Keeps list list := ⟨fun _ => rfl, rfl, rfl⟩

theorem Keeps.trans {a b c : CDeterministicMNList} (hab : Keeps a b) (hbc : Keeps b c) :
    Keeps a c :=
  ⟨fun k => (hbc.core k).trans (hab.core k), hbc.ids.trans hab.ids, hbc.count.trans hab.count⟩

theorem Keeps.getMN (keeps : Keeps list list') (get : list.getMN k = some dmn) :
    ∃ dmn', list'.getMN k = some dmn' ∧ CDeterministicMNList.core dmn' = CDeterministicMNList.core dmn := by
  have hcore := keeps.core k
  rw [get] at hcore
  obtain ⟨dmn', get', heq⟩ := Option.map_eq_some_iff.mp hcore
  exact ⟨dmn', get', heq⟩

theorem UniqueInvariant.updateMN_keeps {ownerOf : Uint256 → CKeyID}
    (inv : UniqueInvariant ownerOf list) (get : list.getMN h = some dmn)
    (st : CDeterministicMNState) (haddr : st.addr = dmn.pdmnState.addr)
    (howner : st.keyIDOwner = dmn.pdmnState.keyIDOwner)
    (hkey : st.pubKeyOperator = dmn.pdmnState.pubKeyOperator) :
    ∃ list', list.updateMN h st = .ok list' ∧ UniqueInvariant ownerOf list' ∧ Keeps list list' ∧
      ∀ k, k ≠ h → list'.getMN k = list.getMN k := by
  have hprops : { dmn with pdmnState := st }.uniqueProperties = dmn.uniqueProperties := by
    simp only [CDeterministicMN.uniqueProperties, haddr, howner, hkey]
  obtain ⟨list', hok, hinv, hset⟩ := inv.updateMN_spec get howner (by
    intro q hq k dmn' hk get' hq'
    rw [hprops] at hq
    exact hk (inv.holder_unique get' hq' get hq))
  refine ⟨list', hok, hinv, ⟨?_, hset.ids, hset.count⟩, fun k hk => (hset.getMN k).trans (if_neg hk)⟩
  intro k
  rw [hset.getMN]
  by_cases hk : k = h
  · rw [if_pos hk, hk, get]
    simp [core, haddr, howner, hkey]
  · rw [if_neg hk]

def IdInvariant (list : CDeterministicMNList) : Prop :=
  ∀ id h, list.mnInternalIdMap[id]? = some h ↔
    ∃ dmn, list.getMN h = some dmn ∧ dmn.internalId = id

namespace IdInvariant

variable (inv : IdInvariant list)

include inv

theorem id_unique {dmn' : CDeterministicMN} (get : list.getMN h = some dmn)
    (get' : list.getMN k = some dmn') (hid : dmn.internalId = dmn'.internalId) : h = k := by
  have hh := (inv dmn.internalId h).mpr ⟨dmn, get, rfl⟩
  have hk := (inv dmn.internalId k).mpr ⟨dmn', get', hid.symm⟩
  exact Option.some.inj (hh.symm.trans hk)

theorem getMNByInternalId (get : list.getMN h = some dmn) :
    list.getMNByInternalId dmn.internalId = some dmn := by
  rw [CDeterministicMNList.getMNByInternalId, (inv dmn.internalId h).mpr ⟨dmn, get, rfl⟩]
  exact get

theorem keeps (hkeeps : Keeps list list') : IdInvariant list' := by
  intro id h
  rw [hkeeps.ids, inv id h]
  have hcore := hkeeps.core h
  cases get : list.getMN h <;> cases get' : list'.getMN h <;> simp_all [core]

theorem erase (get : list.getMN h = some dmn)
    (set : EntrySet list h none (list.mnInternalIdMap.erase dmn.internalId) list') :
    IdInvariant list' := by
  intro id k
  rw [set.ids, Keyed.getElem?_erase_eq, set.getMN]
  by_cases hid : id = dmn.internalId
  · rw [if_pos hid]
    constructor
    · intro hnone
      cases hnone
    · rintro ⟨dmn', get', rfl⟩
      by_cases hk : k = h
      · rw [if_pos hk] at get'
        cases get'
      · rw [if_neg hk] at get'
        exact absurd (inv.id_unique get' get hid) hk
  · rw [if_neg hid, inv id k]
    by_cases hk : k = h
    · rw [if_pos hk, hk, get]
      constructor
      · rintro ⟨_, ⟨⟩, rfl⟩
        exact absurd rfl hid
      · rintro ⟨_, ⟨⟩, -⟩
    · rw [if_neg hk]

theorem insert (new : list.getMN h = none)
    (fresh : ∀ k dmn', list.getMN k = some dmn' → dmn'.internalId ≠ dmn.internalId)
    (set : EntrySet list h (some dmn) (list.mnInternalIdMap.insert dmn.internalId h) list') :
    IdInvariant list' := by
  intro id k
  rw [set.ids, Keyed.getElem?_insert_eq, set.getMN]
  by_cases hid : id = dmn.internalId
  · rw [if_pos hid]
    by_cases hk : k = h
    · simp [hk, hid]
    · rw [if_neg hk]
      constructor
      · intro heq
        exact absurd (Option.some.inj heq).symm hk
      · rintro ⟨dmn', get', rfl⟩
        exact absurd hid (fresh k dmn' get')
  · rw [if_neg hid, inv id k]
    by_cases hk : k = h
    · rw [if_pos hk, hk, new]
      constructor
      · rintro ⟨_, ⟨⟩, -⟩
      · rintro ⟨_, ⟨⟩, rfl⟩
        exact absurd rfl hid
    · rw [if_neg hk]

theorem update {st : CDeterministicMNState} (get : list.getMN h = some dmn)
    (set : EntrySet list h (some { dmn with pdmnState := st }) list.mnInternalIdMap list') :
    IdInvariant list' := by
  intro id k
  rw [set.ids, inv id k, set.getMN]
  by_cases hk : k = h
  · rw [if_pos hk, hk, get]
    simp
  · rw [if_neg hk]

end IdInvariant

section

variable {ownerOf : Uint256 → CKeyID}

def Titled (list : CDeterministicMNList) : Prop :=
  ∀ ⦃h dmn⦄, list.getMN h = some dmn → dmn.proTxHash = h

theorem Titled.mem_allMNs (titled : list.Titled) {dmn : CDeterministicMN} :
    dmn ∈ list.allMNs ↔ list.getMN dmn.proTxHash = some dmn := by
  simp only [allMNs, List.mem_map, Prod.exists, exists_eq_right,
    Std.ExtTreeMap.mem_toList_iff_getElem?_eq_some]
  constructor
  · rintro ⟨h, get⟩
    rwa [titled (show list.getMN h = some dmn from get)]
  · intro get
    exact ⟨_, get⟩

theorem Titled.nodup_allMNs (titled : list.Titled) :
    (list.allMNs.map CDeterministicMN.proTxHash).Nodup := by
  have hkeys : list.allMNs.map CDeterministicMN.proTxHash = list.mnMap.toList.map Prod.fst := by
    rw [allMNs, List.map_map]
    apply List.map_congr_left
    rintro ⟨h, dmn⟩ hmem
    exact titled (Std.ExtTreeMap.mem_toList_iff_getElem?_eq_some.mp hmem)
  rw [hkeys]
  exact Keyed.nodup_keys _

theorem mem_allMNs (inv : list.UniqueInvariant ownerOf) {dmn : CDeterministicMN} :
    dmn ∈ list.allMNs ↔ list.getMN dmn.proTxHash = some dmn :=
  Titled.mem_allMNs fun _ _ => inv.hash

theorem nodup_allMNs (inv : list.UniqueInvariant ownerOf) :
    (list.allMNs.map CDeterministicMN.proTxHash).Nodup :=
  Titled.nodup_allMNs fun _ _ => inv.hash

theorem UniqueInvariant.collateral_inj (inv : list.UniqueInvariant ownerOf)
    {a b : CDeterministicMN} (ha : a ∈ list.allMNs) (hb : b ∈ list.allMNs)
    (same : a.collateralOutpoint = b.collateralOutpoint) : a.proTxHash = b.proTxHash := by
  have held : ∀ c ∈ list.allMNs,
      list.mnUniquePropertyMap (.collateral c.collateralOutpoint) = some (c.proTxHash, 1) := by
    intro c hc
    exact inv.held.mpr ⟨rfl, c, (mem_allMNs inv).mp hc, by simp [CDeterministicMN.uniqueProperties]⟩
  have h := held a ha
  rw [same, held b hb] at h
  simpa using h.symm

end

end CDeterministicMNList

end ButCore.Evo
