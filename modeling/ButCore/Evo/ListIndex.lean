import ButCore.Lib.Steps
import ButCore.Evo.BuildSafety
import ButCore.Evo.ListDiff

/-!
# The index maps of a list

What `mnUniquePropertyMap` and `mnInternalIdMap` hold in every list that is made from the empty one,
whatever the arguments of the calls are, as long as no assertion fails.
-/
namespace ButCore.Evo

open Checked

section

variable {m m' : MnUniquePropertyMap} {h : Uint256}

theorem addUniqueProperty_ok {v : UniqueProperty} (unheld : ∀ c, m v ≠ some (h, c))
    (ok : addUniqueProperty m h v = .ok m') : v.isNull = false ∧ m v = none := by
  obtain ⟨_, nonNull, ok⟩ := bind_eq_ok.mp ok
  refine ⟨assertThat_eq_ok.mp nonNull, ?_⟩
  cases found : m v with
  | none => rfl
  | some entry =>
    obtain ⟨holder, count⟩ := entry
    rw [found] at ok
    obtain ⟨_, own, -⟩ := bind_eq_ok.mp ok
    obtain rfl : holder = h := assertThat_eq_ok.mp own
    exact absurd found (unheld count)

variable {ps : List UniqueProperty}

theorem addUniqueProperties_ok (nodup : ps.Nodup) (unheld : ∀ p ∈ ps, ∀ c, m p ≠ some (h, c))
    (ok : ps.foldlM (addUniqueProperty · h) m = .ok m') :
    (∀ p ∈ ps, p.isNull = false) ∧ ∀ p ∈ ps, m p = none := by
  induction ps generalizing m with
  | nil => simp
  | cons p ps ih =>
    obtain ⟨hp, hps⟩ := List.nodup_cons.mp nodup
    obtain ⟨held, others⟩ := List.forall_mem_cons.mp unheld
    obtain ⟨m₁, first, rest⟩ := foldlM_cons_ok.mp ok
    obtain ⟨nonNull, free⟩ := addUniqueProperty_ok held first
    obtain rfl := Except.ok.inj ((addUniqueProperty_free nonNull free).symm.trans first)
    have same : ∀ q ∈ ps, Function.update m p (some (h, 1)) q = m q :=
      fun q hq => Function.update_of_ne (fun e : q = p => hp (e ▸ hq)) _ _
    obtain ⟨nonNull', free'⟩ := ih hps (fun q hq => same q hq ▸ others q hq) rest
    exact ⟨List.forall_mem_cons.mpr ⟨nonNull, nonNull'⟩,
      List.forall_mem_cons.mpr ⟨free, fun q hq => same q hq ▸ free' q hq⟩⟩

theorem deleteUniqueProperties_ok (ok : ps.foldlM (deleteUniqueProperty · h) m = .ok m') : ∀ p ∈ ps, p.isNull = false := by
  induction ps generalizing m with
  | nil => simp
  | cons p ps ih =>
    obtain ⟨m₁, first, rest⟩ := foldlM_cons_ok.mp ok
    obtain ⟨_, nonNull, -⟩ := bind_eq_ok.mp first
    exact List.forall_mem_cons.mpr ⟨assertThat_eq_ok.mp nonNull, ih rest⟩

theorem updateUniqueProperty_ok {old new : UniqueProperty} (holds : m old = slot h old)
    (own : ∀ c, m new = some (h, c) → old = new) (null : new.isNull = true → m new = none)
    (ok : updateUniqueProperty m h old new = .ok m') :
    (old ≠ new → m new = none) ∧ ∀ q, q ≠ old → q ≠ new → m' q = m q := by
  have free : old ≠ new → m new = none := by
    intro changed
    cases found : m new with
    | none => rfl
    | some entry =>
      have nonNull : new.isNull = false := by
        by_contra hnull
        rw [null (by simpa using hnull)] at found
        cases found
      have other : entry.1 ≠ h := fun e => changed (own entry.2 (e ▸ found))
      rw [updateUniqueProperty_taken holds nonNull found other] at ok
      cases ok
  obtain rfl := Except.ok.inj ((updateUniqueProperty_free old new holds free).symm.trans ok)
  exact ⟨free, fun q hold hnew => by simp [hold, hnew]⟩

theorem updateUniqueProperties_ok {old new : CDeterministicMNState}
    (holds : ∀ q ∈ [UniqueProperty.addr old.addr, .keyIDOwner old.keyIDOwner,
      .pubKeyOperator old.pubKeyOperator], m q = slot h q)
    (null : ∀ q : UniqueProperty, q.isNull = true → m q = none)
    (addr : ∀ c, m (.addr new.addr) = some (h, c) → old.addr = new.addr)
    (owner : ∀ c, m (.keyIDOwner new.keyIDOwner) = some (h, c) → old.keyIDOwner = new.keyIDOwner)
    (key : ∀ c, m (.pubKeyOperator new.pubKeyOperator) = some (h, c) →
      old.pubKeyOperator = new.pubKeyOperator)
    (ok : updateUniqueProperties m h old new = .ok m') :
    m' = updatedProperties m h old new ∧
      (old.addr ≠ new.addr → m (.addr new.addr) = none) ∧
      (old.keyIDOwner ≠ new.keyIDOwner → m (.keyIDOwner new.keyIDOwner) = none) ∧
      (old.pubKeyOperator ≠ new.pubKeyOperator → m (.pubKeyOperator new.pubKeyOperator) = none) := by
  simp only [List.forall_mem_cons, List.not_mem_nil, false_imp_iff, implies_true, and_true] at holds
  obtain ⟨holdAddr, holdOwner, holdKey⟩ := holds
  obtain ⟨m₁, first, rest⟩ := bind_eq_ok.mp ok
  obtain ⟨m₂, second, third⟩ := bind_eq_ok.mp rest
  obtain ⟨freeAddr, same⟩ :=
    updateUniqueProperty_ok holdAddr (fun c found => congrArg _ (addr c found)) (null _) first
  have sameOwner : ∀ k, m₁ (.keyIDOwner k) = m (.keyIDOwner k) := fun k => same _ (by simp) (by simp)
  obtain ⟨freeOwner, same'⟩ := updateUniqueProperty_ok ((sameOwner _).trans holdOwner)
    (fun c found => congrArg _ (owner c (sameOwner _ ▸ found)))
    (fun hnull => (sameOwner _).trans (null _ hnull)) second
  have sameKey : ∀ k, m₂ (.pubKeyOperator k) = m (.pubKeyOperator k) := fun k =>
    (same' _ (by simp) (by simp)).trans (same _ (by simp) (by simp))
  obtain ⟨freeKey, -⟩ := updateUniqueProperty_ok ((sameKey _).trans holdKey)
    (fun c found => congrArg _ (key c (sameKey _ ▸ found)))
    (fun hnull => (sameKey _).trans (null _ hnull)) third
  have freeAddr' := fun changed : old.addr ≠ new.addr =>
    freeAddr fun e => changed (UniqueProperty.addr.inj e)
  have freeOwner' := fun changed : old.keyIDOwner ≠ new.keyIDOwner =>
    (sameOwner _).symm.trans (freeOwner fun e => changed (UniqueProperty.keyIDOwner.inj e))
  have freeKey' := fun changed : old.pubKeyOperator ≠ new.pubKeyOperator =>
    (sameKey _).symm.trans (freeKey fun e => changed (UniqueProperty.pubKeyOperator.inj e))
  have updated := updateUniqueProperties_free holdAddr holdOwner holdKey freeAddr' freeOwner' freeKey'
  exact ⟨Except.ok.inj (ok.symm.trans updated), freeAddr', freeOwner', freeKey'⟩

end

namespace CDeterministicMNList

variable {list list' : CDeterministicMNList} {h : Uint256} {dmn : CDeterministicMN}

def heldProperties [LazyKeys] (dmn : CDeterministicMN) : List UniqueProperty :=
  dmn.uniqueProperties.filter fun q => !q.isNull

structure Indexed (list : CDeterministicMNList) : Prop where
  hash : ∀ {h dmn}, list.getMN h = some dmn → dmn.proTxHash = h
  held : ∀ {q h c}, list.mnUniquePropertyMap q = some (h, c) ↔
    c = 1 ∧ ∃ dmn, list.getMN h = some dmn ∧ q ∈ heldProperties dmn
  ids : list.IdInvariant

variable {q : UniqueProperty}

theorem mem_heldProperties :
    q ∈ heldProperties dmn ↔ q ∈ dmn.uniqueProperties ∧ q.isNull = false := by
  simp [heldProperties]

variable {st : CDeterministicMNState}

namespace Indexed

variable (inv : Indexed list)

include inv

theorem null (q : UniqueProperty) (hq : q.isNull = true) : list.mnUniquePropertyMap q = none := by
  refine Option.eq_none_iff_forall_ne_some.mpr fun entry found => ?_
  obtain ⟨-, _, -, mem⟩ := inv.held.mp (show _ = some (entry.1, entry.2) from found)
  rw [(mem_heldProperties.mp mem).2] at hq
  cases hq

variable {k : Uint256}

theorem unheld {other : CDeterministicMN} (free : list.mnUniquePropertyMap q = none)
    (get : list.getMN k = some other) :
    q ∉ heldProperties other := by
  intro mem
  rw [inv.held.mpr ⟨rfl, other, get, mem⟩] at free
  cases free

theorem hash_entrySet {o : Option CDeterministicMN} (own : ∀ dmn, o = some dmn → dmn.proTxHash = h)
    (get : ∀ k, list'.getMN k = if k = h then o else list.getMN k)
    (found : list'.getMN k = some dmn) : dmn.proTxHash = k := by
  rw [get k] at found
  split at found
  · next same => exact (own dmn found).trans same.symm
  · exact inv.hash found

theorem addMN (fresh : ∀ k other, list.getMN k = some other → other.internalId ≠ dmn.internalId)
    (ok : list.addMN dmn = .ok list') : Indexed list' ∧ list.getMN dmn.proTxHash = none ∧
      EntrySet list dmn.proTxHash (some dmn)
        (list.mnInternalIdMap.insert dmn.internalId dmn.proTxHash) list' := by
  obtain ⟨new, set⟩ := addMN_entrySet ok
  obtain ⟨_, -, ok⟩ := bind_eq_ok.mp ok
  obtain ⟨props, added, ok⟩ := bind_eq_ok.mp ok
  obtain rfl := pure_eq_ok.mp ok
  obtain ⟨nonNull, free⟩ := addUniqueProperties_ok (nodup_uniqueProperties dmn) (fun q _ c found => by
    obtain ⟨-, _, get, -⟩ := inv.held.mp found
    rw [new] at get
    cases get) added
  rw [addUniqueProperties_free (nodup_uniqueProperties dmn) nonNull free] at added
  obtain rfl := Except.ok.inj added
  have listed : ∀ {q : UniqueProperty}, q ∉ heldProperties dmn → q ∉ dmn.uniqueProperties :=
    fun unheld mem => unheld (mem_heldProperties.mpr ⟨mem, nonNull _ mem⟩)
  refine ⟨⟨inv.hash_entrySet (fun _ e => by cases e; rfl) set.getMN, fun {q k c} => ?_,
    inv.ids.insert new fresh set⟩, new, set⟩
  refine held_entrySet inv.held set.getMN ?_ ?_ ?_ ?_ q k c
  · rintro _ ⟨⟩ q mem
    exact if_pos (mem_heldProperties.mp mem).1
  · rintro q - ⟨_, get, -⟩
    rw [new] at get
    cases get
  · intro q unheld _
    exact if_neg (listed (unheld dmn rfl))
  · rintro _ ⟨⟩ q mem k other - get
    exact inv.unheld (free q (mem_heldProperties.mp mem).1) get

theorem removeMN (ok : list.removeMN h = .ok list') : Indexed list' ∧ ∃ dmn,
    list.getMN h = some dmn ∧ EntrySet list h none (list.mnInternalIdMap.erase dmn.internalId) list' := by
  obtain ⟨dmn, get, set⟩ := removeMN_entrySet ok
  rw [CDeterministicMNList.removeMN, deref_eq_ok.mpr get, ok_bind] at ok
  obtain ⟨props, removed, ok⟩ := bind_eq_ok.mp ok
  obtain rfl := pure_eq_ok.mp ok
  obtain rfl := inv.hash get
  have nonNull := deleteUniqueProperties_ok removed
  rw [deleteUniqueProperties_held (nodup_uniqueProperties dmn) nonNull fun q mem =>
    inv.held.mpr ⟨rfl, dmn, get, mem_heldProperties.mpr ⟨mem, nonNull q mem⟩⟩] at removed
  obtain rfl := Except.ok.inj removed
  refine ⟨⟨inv.hash_entrySet (fun _ e => by cases e) set.getMN, fun {q k c} => ?_,
    inv.ids.erase get set⟩, dmn, get, set⟩
  refine held_entrySet inv.held set.getMN (fun _ e => by cases e) ?_ ?_ (fun _ e => by cases e) q k c
  · rintro q - ⟨_, found, mem⟩
    cases get.symm.trans found
    exact if_pos (mem_heldProperties.mp mem).1
  · intro q _ unheld
    refine if_neg fun mem => unheld ⟨dmn, get, mem_heldProperties.mpr ⟨mem, nonNull q mem⟩⟩

theorem updateMNEntry (get : list.getMN h = some dmn) (ok : list.updateMNEntry dmn st = .ok list') : Indexed list' ∧
      EntrySet list h (some { dmn with pdmnState := st }) list.mnInternalIdMap list' := by
  obtain rfl := inv.hash get
  have set := updateMNEntry_entrySet ok
  obtain ⟨props, updated, ok⟩ := bind_eq_ok.mp ok
  obtain rfl := pure_eq_ok.mp ok
  have own : ∀ {q : UniqueProperty} {c : ℕ}, list.mnUniquePropertyMap q = some (dmn.proTxHash, c) →
      q ∈ dmn.uniqueProperties := by
    intro q c found
    obtain ⟨-, other, get', mem⟩ := inv.held.mp found
    cases get.symm.trans get'
    exact (mem_heldProperties.mp mem).1
  have holds : ∀ q : UniqueProperty, (q.isNull = false → q ∈ dmn.uniqueProperties) →
      list.mnUniquePropertyMap q = slot dmn.proTxHash q := by
    intro q mem
    cases hnull : q.isNull with
    | true => rw [inv.null q hnull, slot, if_pos hnull]
    | false =>
      rw [slot, if_neg (by simp [hnull])]
      exact inv.held.mpr ⟨rfl, dmn, get, mem_heldProperties.mpr ⟨mem hnull, hnull⟩⟩
  obtain ⟨rfl, freeAddr, freeOwner, freeKey⟩ := updateUniqueProperties_ok (by
      simp only [List.forall_mem_cons, List.not_mem_nil, false_imp_iff, implies_true, and_true]
      exact ⟨holds _ (by simp [UniqueProperty.isNull]), holds _ (by simp),
        holds _ (by simp [UniqueProperty.isNull])⟩) inv.null
    (fun c found => ((addr_mem.mp (own found)).2).symm)
    (fun c found => (keyIDOwner_mem.mp (own found)).symm)
    (fun c found => ((pubKeyOperator_mem.mp (own found)).2).symm) updated
  refine ⟨⟨inv.hash_entrySet (fun _ e => by cases e; rfl) set.getMN, fun {q k c} => ?_,
    inv.ids.update get set⟩, set⟩
  refine held_entrySet inv.held set.getMN ?_ ?_ ?_ ?_ q k c
  · rintro _ ⟨⟩ q mem
    obtain ⟨mem, hnull⟩ := mem_heldProperties.mp mem
    refine updatedProperties_new mem hnull fun e => inv.held.mpr ⟨rfl, dmn, get, ?_⟩
    exact mem_heldProperties.mpr ⟨e ▸ collateral_mem.mpr rfl, hnull⟩
  · rintro q unheld ⟨_, found, mem⟩
    cases get.symm.trans found
    obtain ⟨mem, hnull⟩ := mem_heldProperties.mp mem
    exact updatedProperties_old mem fun mem' => unheld _ rfl (mem_heldProperties.mpr ⟨mem', hnull⟩)
  · intro q unheld unheld'
    cases hnull : q.isNull with
    | true =>
      rw [inv.null q hnull]
      exact updatedProperties_null hnull (inv.null q hnull)
    | false =>
      refine updatedProperties_other (fun mem => ?_) (fun mem => ?_) (inv.null q)
      · exact unheld _ rfl (mem_heldProperties.mpr ⟨mem, hnull⟩)
      · exact unheld' ⟨dmn, get, mem_heldProperties.mpr ⟨mem, hnull⟩⟩
  · rintro _ ⟨⟩ q mem k other different found mem'
    obtain ⟨mem, hnull⟩ := mem_heldProperties.mp mem
    -- what the smartnode had before it has alone, and what is new nobody has
    by_cases old : q ∈ dmn.uniqueProperties
    · have own := inv.held.mpr ⟨rfl, dmn, get, mem_heldProperties.mpr ⟨old, hnull⟩⟩
      have held := inv.held.mpr ⟨rfl, other, found, mem'⟩
      exact different (Prod.mk.inj (Option.some.inj (held.symm.trans own))).1
    · refine inv.unheld ?_ found mem'
      cases q with
      | collateral o => exact absurd (by simpa using mem) old
      | addr a =>
        obtain ⟨hne, rfl⟩ := addr_mem.mp mem
        exact freeAddr fun e => old (addr_mem.mpr ⟨hne, e.symm⟩)
      | keyIDOwner id =>
        obtain rfl := keyIDOwner_mem.mp mem
        exact freeOwner fun e => old (keyIDOwner_mem.mpr e.symm)
      | pubKeyOperator key =>
        obtain ⟨hne, rfl⟩ := pubKeyOperator_mem.mp mem
        exact freeKey fun e => old (pubKeyOperator_mem.mpr ⟨hne, e.symm⟩)

end Indexed

/-! ### Runs -/

section

variable [keys : LazyKeys]

/-- The bytes are those of a key, or zero. -/
def Decoded (key : CBLSPublicKey) : Prop := keys.isValid key = key.isSome

instance (key : CBLSPublicKey) : Decidable (Decoded key) := inferInstanceAs (Decidable (_ = _))

theorem uniqueProperties_eq (decoded : Decoded dmn.pdmnState.pubKeyOperator) :
    @CDeterministicMN.uniqueProperties keys dmn = @CDeterministicMN.uniqueProperties decodedKeys dmn := by
  unfold CDeterministicMN.uniqueProperties
  rw [show keys.isValid _ = _ from decoded]
  rfl

theorem addMN_eq (decoded : Decoded dmn.pdmnState.pubKeyOperator) :
    @addMN list keys dmn = @addMN list decodedKeys dmn := by
  unfold addMN
  rw [uniqueProperties_eq decoded]

theorem removeMN_eq
    (decoded : ∀ dmn, list.getMN h = some dmn → Decoded dmn.pdmnState.pubKeyOperator) :
    @removeMN list keys h = @removeMN list decodedKeys h := by
  unfold removeMN
  cases get : list.getMN h with
  | none => rfl
  | some dmn =>
    rw [deref_some rfl, ok_bind, ok_bind, uniqueProperties_eq (decoded dmn get)]

/-- The operations on lists. `AddMN` comes with the registration counted, and the order of `mns` is
the one in which the list was written. -/
inductive ListOp where
  | addMN (dmn : CDeterministicMN)
  | updateMN (proTxHash : Uint256) (pdmnState : CDeterministicMNState)
  | removeMN (proTxHash : Uint256)
  | applyDiff (blockHash : Uint256) (nHeight : ℤ) (diff : CDeterministicMNListDiff)
  | unserialize (mns : List CDeterministicMN)

def register (list : CDeterministicMNList) (dmn : CDeterministicMN) :
    Except Fault CDeterministicMNList := do
  let list ← list.addMN dmn
  pure { list with nTotalRegisteredCount := list.nTotalRegisteredCount + 1 }

/-- The heights and counts of the list, with maps that are filled anew. -/
def unserialize (list : CDeterministicMNList) (mns : List CDeterministicMN) :
    Except Fault CDeterministicMNList :=
  mns.foldlM (fun list dmn => list.addMN dmn)
    ⟨list.blockHash, list.nHeight, list.nTotalRegisteredCount, ∅, ∅, fun _ => none⟩

def ListOp.apply (list : CDeterministicMNList) : ListOp → Except Fault CDeterministicMNList
  | .addMN dmn => list.register dmn
  | .updateMN proTxHash pdmnState => list.updateMN proTxHash pdmnState
  | .removeMN proTxHash => list.removeMN proTxHash
  | .applyDiff blockHash nHeight diff => list.applyDiff blockHash nHeight diff
  | .unserialize mns => list.unserialize mns

/-- The operations as they are called: a smartnode that is added has the next internal id, the counter
does not wrap around, and the keys that come in have been decoded. -/
def AsCalled (list : CDeterministicMNList) : ListOp → Prop
  | .addMN dmn => dmn.internalId = list.nTotalRegisteredCount.toNat ∧
      list.nTotalRegisteredCount.toNat + 1 < 2 ^ 32 ∧ Decoded dmn.pdmnState.pubKeyOperator
  | .updateMN _ pdmnState => Decoded pdmnState.pubKeyOperator
  | .removeMN _ => True
  | .applyDiff _ _ diff => list.nTotalRegisteredCount.toNat + diff.addedMNs.length < 2 ^ 32 ∧
      (∀ dmn ∈ diff.addedMNs, Decoded dmn.pdmnState.pubKeyOperator) ∧
      ∀ p ∈ diff.updatedMNs.toList, ∀ key ∈ p.2.pubKeyOperator, Decoded key
  | .unserialize mns => mns.Perm list.allMNs

/-- The internal ids of the list are below the counter, and its keys have been decoded. -/
structure Counted (list : CDeterministicMNList) : Prop extends Indexed list where
  below : ∀ {h dmn}, list.getMN h = some dmn → dmn.internalId < list.nTotalRegisteredCount.toNat
  decoded : ∀ {h dmn}, list.getMN h = some dmn → Decoded dmn.pdmnState.pubKeyOperator

variable {blockHash : Uint256} {nHeight : ℤ} {count : BitVec 32}

omit keys in
theorem getMN_maps_empty :
    getMN ⟨blockHash, nHeight, count, ∅, ∅, fun _ => none⟩ h = none := Std.ExtTreeMap.getElem?_empty

theorem counted_maps_empty :
    Counted ⟨blockHash, nHeight, count, ∅, ∅, fun _ => none⟩ := by
  refine ⟨⟨?_, ?_, ?_⟩, ?_, ?_⟩
  · simp [getMN_maps_empty]
  · simp [getMN_maps_empty]
  · intro id h
    simp [getMN_maps_empty]
  · simp [getMN_maps_empty]
  · simp [getMN_maps_empty]

namespace Counted

variable (inv : Counted list)

include inv

theorem removeMN (ok : list.removeMN h = .ok list') :
    Counted list' ∧ list'.nTotalRegisteredCount = list.nTotalRegisteredCount := by
  rw [removeMN_eq fun _ => inv.decoded] at ok
  obtain ⟨indexed, dmn, get, set⟩ := inv.toIndexed.removeMN ok
  refine ⟨⟨indexed, fun found => ?_, fun found => ?_⟩, set.count⟩
  · rw [set.count]
    exact inv.below ((set.cases found).resolve_left (by simp))
  · exact inv.decoded ((set.cases found).resolve_left (by simp))

theorem updateMNEntry (get : list.getMN h = some dmn) (decoded : Decoded st.pubKeyOperator)
    (ok : list.updateMNEntry dmn st = .ok list') :
    Counted list' ∧ list'.nTotalRegisteredCount = list.nTotalRegisteredCount := by
  obtain ⟨indexed, set⟩ := inv.toIndexed.updateMNEntry get ok
  refine ⟨⟨indexed, fun found => ?_, fun found => ?_⟩, set.count⟩
  · rw [set.count]
    rcases set.cases found with ⟨⟨⟩⟩ | old
    · exact show dmn.internalId < _ from inv.below get
    · exact inv.below old
  · rcases set.cases found with ⟨⟨⟩⟩ | old
    · exact decoded
    · exact inv.decoded old

theorem register (next : dmn.internalId = list.nTotalRegisteredCount.toNat)
    (small : list.nTotalRegisteredCount.toNat + 1 < 2 ^ 32)
    (decoded : Decoded dmn.pdmnState.pubKeyOperator) (ok : list.register dmn = .ok list') :
    Counted list' ∧ list'.nTotalRegisteredCount.toNat = list.nTotalRegisteredCount.toNat + 1 := by
  obtain ⟨added, hadd, ok⟩ := bind_eq_ok.mp ok
  obtain rfl := pure_eq_ok.mp ok
  rw [addMN_eq decoded] at hadd
  obtain ⟨indexed, new, set⟩ := inv.toIndexed.addMN
    (fun k other found e => by have := inv.below found; omega) hadd
  have count : (added.nTotalRegisteredCount + 1).toNat = list.nTotalRegisteredCount.toNat + 1 := by
    rw [set.count, BitVec.toNat_add]
    exact Nat.mod_eq_of_lt small
  refine ⟨⟨⟨indexed.hash, indexed.held, indexed.ids⟩, fun {k other} found => ?_,
    fun found => ?_⟩, count⟩
  · show other.internalId < (added.nTotalRegisteredCount + 1).toNat
    rw [count]
    rcases set.cases found with ⟨⟨⟩⟩ | old
    · omega
    · have := inv.below old
      omega
  · rcases set.cases found with ⟨⟨⟩⟩ | old
    · exact decoded
    · exact inv.decoded old

theorem getMNByInternalId {id : ℕ} (found : list.getMNByInternalId id = some dmn) :
    list.getMN dmn.proTxHash = some dmn := by
  obtain ⟨k, -, get⟩ := Option.bind_eq_some_iff.mp found
  rwa [inv.hash get]

theorem applyDiff {diff : CDeterministicMNListDiff}
    (small : list.nTotalRegisteredCount.toNat + diff.addedMNs.length < 2 ^ 32)
    (additions : ∀ dmn ∈ diff.addedMNs, Decoded dmn.pdmnState.pubKeyOperator)
    (updates : ∀ p ∈ diff.updatedMNs.toList, ∀ key ∈ p.2.pubKeyOperator, Decoded key)
    (ok : list.applyDiff blockHash nHeight diff = .ok list') : Counted list' := by
  obtain ⟨removed, hremove, ok⟩ := bind_eq_ok.mp ok
  obtain ⟨added, hadd, hupdate⟩ := bind_eq_ok.mp ok
  have afterRemove : Counted removed ∧
      removed.nTotalRegisteredCount = list.nTotalRegisteredCount := by
    refine foldlM_inv replayRemoval (fun _ t => Counted t ∧
      t.nTotalRegisteredCount = list.nTotalRegisteredCount) ?_ ?_ hremove
    · exact ⟨⟨⟨inv.hash, inv.held, inv.ids⟩, inv.below, inv.decoded⟩, rfl⟩
    · intro _ _ _ t t' _ ht step
      obtain ⟨dmn, -, step⟩ := bind_eq_ok.mp step
      obtain ⟨counted, count⟩ := ht.1.removeMN step
      exact ⟨counted, count.trans ht.2⟩
  have afterAdd : Counted added ∧ added.nTotalRegisteredCount.toNat =
      list.nTotalRegisteredCount.toNat + diff.addedMNs.length := by
    refine foldlM_inv replayAddition (fun done t => Counted t ∧
      t.nTotalRegisteredCount.toNat = list.nTotalRegisteredCount.toNat + done.length) ?_ ?_ hadd
    · exact ⟨afterRemove.1, by rw [afterRemove.2]; rfl⟩
    · intro done x rest t t' split ht step
      obtain ⟨_, next, step⟩ := bind_eq_ok.mp step
      have length := congrArg List.length split
      rw [List.length_append, List.length_cons] at length
      obtain ⟨counted, count⟩ := ht.1.register (assertThat_eq_ok.mp next) (by omega)
        (additions x (split ▸ List.mem_append_right _ List.mem_cons_self)) step
      exact ⟨counted, by rw [count, ht.2, List.length_append, List.length_singleton, add_assoc]⟩
  refine foldlM_inv replayUpdate (fun _ t => Counted t) afterAdd.1 ?_ hupdate
  intro done p rest t t' split ht step
  obtain ⟨dmn, found, step⟩ := bind_eq_ok.mp step
  have get := ht.getMNByInternalId (deref_eq_ok.mp found)
  refine (ht.updateMNEntry get ?_ step).1
  have update := updates p (split ▸ List.mem_append_right _ List.mem_cons_self)
  -- the difference has a key, or the old one stays
  unfold CDeterministicMNStateDiff.applyToState applyLine
  cases key : p.2.pubKeyOperator with
  | none => exact ht.decoded get
  | some key' => exact update key' key

theorem unserialize {mns : List CDeterministicMN} (written : mns.Perm list.allMNs)
    (ok : list.unserialize mns = .ok list') : Counted list' := by
  have listed : ∀ dmn ∈ mns, list.getMN dmn.proTxHash = some dmn := by
    intro dmn mem
    obtain ⟨⟨k, dmn⟩, found, rfl⟩ := List.mem_map.mp (written.mem_iff.mp mem)
    have get : list.getMN k = some dmn := Std.ExtTreeMap.mem_toList_iff_getElem?_eq_some.mp found
    rwa [inv.hash get]
  unfold CDeterministicMNList.unserialize at ok
  have filled : Counted list' ∧ list'.nTotalRegisteredCount = list.nTotalRegisteredCount ∧
      ∀ k dmn, list'.getMN k = some dmn → dmn ∈ mns := by
    refine foldlM_inv (fun list dmn => list.addMN dmn) (fun _ t => Counted t ∧
      t.nTotalRegisteredCount = list.nTotalRegisteredCount ∧
      ∀ k dmn, t.getMN k = some dmn → dmn ∈ mns) ?_ ?_ ok
    · exact ⟨counted_maps_empty, rfl, fun k dmn found => by rw [getMN_maps_empty] at found; cases found⟩
    · rintro done dmn rest t t' split ⟨counted, count, old⟩ step
      have mem : dmn ∈ mns := by
        rw [split]
        exact List.mem_append_right _ List.mem_cons_self
      have get := listed dmn mem
      have fresh : ∀ k other, t.getMN k = some other → other.internalId ≠ dmn.internalId := by
        intro k other found same
        have getOther := listed other (old k other found)
        have hash := inv.ids.id_unique getOther get same
        obtain ⟨_, new, -⟩ := bind_eq_ok.mp step
        rw [counted.hash found] at hash
        rw [hash, assertThat_eq_ok.mp new] at found
        cases found
      rw [addMN_eq (inv.decoded get)] at step
      obtain ⟨indexed, -, set⟩ := counted.toIndexed.addMN fresh step
      have written : ∀ k other, t'.getMN k = some other → other ∈ mns := by
        intro k other found
        rcases set.cases found with ⟨⟨⟩⟩ | found
        · exact mem
        · exact old k other found
      refine ⟨⟨indexed, fun found => ?_, fun found => ?_⟩, set.count.trans count, written⟩
      · rw [set.count, count]
        exact inv.below (listed _ (written _ _ found))
      · exact inv.decoded (listed _ (written _ _ found))
  exact filled.1

end Counted

/-- What the two maps hold: the properties of the smartnodes with their numbers, and the ids. -/
structure ExactIndex (list : CDeterministicMNList) : Prop where
  properties : ∀ q h c, list.mnUniquePropertyMap q = some (h, c) ↔
    ∃ dmn, list.getMN h = some dmn ∧ q ∈ heldProperties dmn ∧ c = (heldProperties dmn).count q
  ids : ∀ id h, list.mnInternalIdMap[id]? = some h ↔
    ∃ dmn, list.getMN h = some dmn ∧ dmn.proTxHash = h ∧ dmn.internalId = id

theorem Counted.exactIndex (inv : Counted list) : ExactIndex list := by
  constructor
  · intro q h c
    rw [inv.held, ← exists_and_left]
    refine exists_congr fun dmn => ?_
    rw [and_left_comm]
    refine and_congr_right fun get => ?_
    have same : @heldProperties keys dmn = @heldProperties decodedKeys dmn := by
      unfold heldProperties
      rw [uniqueProperties_eq (inv.decoded get)]
    rw [same, and_comm]
    refine and_congr_right fun mem => ?_
    have once : (@heldProperties decodedKeys dmn).count q = 1 :=
      List.count_eq_one_of_mem ((nodup_uniqueProperties dmn).filter _) mem
    rw [once]
  · intro id h
    rw [inv.ids]
    exact exists_congr fun dmn => and_congr_right fun get => by simp [inv.hash get]

end

theorem run_exactIndex [LazyKeys] (blockHash : Uint256) (ops : List ListOp)
    (list : CDeterministicMNList)
    (called : Steps.Permitted ListOp.apply AsCalled (empty blockHash) ops)
    (run : ops.foldlM ListOp.apply (empty blockHash) = .ok list) : ExactIndex list := by
  refine ((called.outcome (I := Counted) (E := fun _ => True) ?_ (fun _ _ _ => trivial)
    counted_maps_empty).1 list run).exactIndex
  intro list op list' inv condition ok
  cases op with
  | addMN dmn => exact (inv.register condition.1 condition.2.1 condition.2.2 ok).1
  | updateMN proTxHash pdmnState =>
    obtain ⟨dmn, get, ok⟩ := bind_eq_ok.mp ok
    exact (inv.updateMNEntry (deref_eq_ok.mp get) condition ok).1
  | removeMN proTxHash => exact (inv.removeMN ok).1
  | applyDiff blockHash nHeight diff =>
    exact inv.applyDiff condition.1 condition.2.1 condition.2.2 ok
  | unserialize mns => exact inv.unserialize condition ok

/-! ### Short runs -/

instance decidableAsCalled [LazyKeys] (list : CDeterministicMNList) :
    ∀ op, Decidable (AsCalled list op)
  | .addMN _ => inferInstanceAs (Decidable (_ ∧ _))
  | .updateMN _ _ => inferInstanceAs (Decidable (Decoded _))
  | .removeMN _ => isTrue trivial
  | .applyDiff _ _ _ => inferInstanceAs (Decidable (_ ∧ _))
  | .unserialize _ => inferInstanceAs (Decidable (List.Perm _ _))

section

/-- Of the keys of the smartnodes below, the one of 9 does not decode. -/
local instance toyKeys : LazyKeys := ⟨fun key => key.isSome && decide (key ≠ some 9)⟩

def toyOps : List ListOp :=
  [.addMN (toyMN 1 0), .addMN (toyMN 2 1), .updateMN 1 (toyMN 3 0).pdmnState, .removeMN 2,
    .unserialize [{ toyMN 1 0 with pdmnState := (toyMN 3 0).pdmnState }]]

theorem run_exactIndex_toyOps :
    ∃ list, toyOps.foldlM ListOp.apply (empty 0) = .ok list ∧ ExactIndex list := by
  have called : Steps.Permitted ListOp.apply AsCalled (empty 0) toyOps := by decide +kernel
  have passes : ∃ list, toyOps.foldlM ListOp.apply (empty 0) = .ok list := ⟨_, rfl⟩
  obtain ⟨list, run⟩ := passes
  exact ⟨list, run, run_exactIndex 0 toyOps list called run⟩

/-- Two smartnodes with one internal id, on which `AddMN` has no assertion; and a key that does not
decode, which `UpdateMN` adds and `RemoveMN` leaves. -/
theorem run_not_exactIndex :
    (∃ list, [ListOp.addMN (toyMN 1 0), .addMN (toyMN 2 0)].foldlM ListOp.apply (empty 0) =
      .ok list ∧ ¬ ExactIndex list) ∧
    ∃ list, [ListOp.addMN (toyMN 1 0), .updateMN 1 (toyMN 9 0).pdmnState, .removeMN 1].foldlM
      ListOp.apply (empty 0) = .ok list ∧ ¬ ExactIndex list := by
  refine ⟨⟨_, rfl, fun exact => ?_⟩, ⟨_, rfl, fun exact => ?_⟩⟩
  · have found := (exact.ids 0 1).mpr ⟨toyMN 1 0, by decide +kernel, rfl, rfl⟩
    exact absurd found (by decide +kernel)
  · obtain ⟨dmn, get, -⟩ := (exact.properties (.pubKeyOperator (some 9)) 1 1).mp (by decide +kernel)
    exact absurd (Option.isSome_iff_exists.mpr ⟨dmn, get⟩) (by decide +kernel)

end

end CDeterministicMNList

end ButCore.Evo
