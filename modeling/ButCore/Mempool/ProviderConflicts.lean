import Mathlib.Data.List.Nodup
import ButCore.Lib.Steps
import ButCore.Primitives

/-!
# Conflicts between provider transactions in the mempool

The mempool keeps which transaction uses an address, a key or a collateral, one for each, and
forgets it by key when a transaction leaves.
-/
namespace ButCore.Mempool

/-- The keys of `mapProTxAddresses`, `mapProTxPubKeyIDs`, `mapProTxBlsPubKeyHashes`,
`mapProTxCollaterals` and `mapNextTx`. An operator key stands for its hash. -/
inductive PoolKey where
  | address (addr : CService)
  | owner (keyIDOwner : CKeyID)
  | operator (pubKeyOperator : CBLSPublicKey)
  | collateral (outpoint : COutPoint)
  | spent (outpoint : COutPoint)
  deriving DecidableEq

/-- The payloads of provider transactions; the special transaction checks decode them. -/
inductive ProviderPayload where
  | register (proTx : CProRegTx)
  | updateService (proTx : CProUpServTx)
  | updateRegistrar (proTx : CProUpRegTx)
  | updateRevoke (proTxHash : Uint256)
  | none

structure PoolTx where
  hash : Uint256
  prevouts : List COutPoint
  payload : ProviderPayload

structure ProviderPool where
  mapTx : List PoolTx := []
  index : PoolKey → Option Uint256 := fun _ => none

structure ConflictEnv where
  /-- The operator key of a smartnode of the tip. -/
  operatorKey : Uint256 → Option CBLSPublicKey
  hasKeyChangeInMempool : Uint256 → Bool

def PoolTx.keys (tx : PoolTx) : List PoolKey :=
  tx.prevouts.map .spent ++
    match tx.payload with
    | .register proTx => [.address proTx.addr, .owner proTx.keyIDOwner,
        .operator proTx.pubKeyOperator] ++
      if proTx.collateralOutpoint.hash ≠ 0 then [.collateral proTx.collateralOutpoint] else []
    | .updateService proTx => [.address proTx.addr]
    | .updateRegistrar proTx => [.operator proTx.pubKeyOperator]
    | .updateRevoke _ | .none => []

/-- On removal the collateral is erased without a test. -/
def PoolTx.erasedKeys (tx : PoolTx) : List PoolKey :=
  tx.keys ++
    match tx.payload with
    | .register proTx => [.collateral proTx.collateralOutpoint]
    | _ => []

def PoolTx.refersTo (tx : PoolTx) : Option Uint256 :=
  match tx.payload with
  | .updateService proTx => some proTx.proTxHash
  | .updateRegistrar proTx => some proTx.proTxHash
  | .updateRevoke proTxHash => some proTxHash
  | .register _ | .none => none

namespace ProviderPool

variable (pool : ProviderPool) (env : ConflictEnv)

def registrationConflict (proTx : CProRegTx) : Bool :=
  (pool.index (.address proTx.addr)).isSome || (pool.index (.owner proTx.keyIDOwner)).isSome ||
    (pool.index (.operator proTx.pubKeyOperator)).isSome ||
    decide (proTx.collateralOutpoint.hash ≠ 0) &&
      ((pool.index (.collateral proTx.collateralOutpoint)).isSome ||
        (pool.index (.spent proTx.collateralOutpoint)).isSome)

def heldByOther (key : PoolKey) (proTxHash : Uint256) : Bool :=
  match pool.index key with
  | some holder => decide (holder ≠ proTxHash)
  | none => false

def keyChangeConflict (proTxHash : Uint256) (key : CBLSPublicKey) : Bool :=
  match env.operatorKey proTxHash with
  | none => true
  | some current => decide (current ≠ key) && env.hasKeyChangeInMempool proTxHash

def existsProviderTxConflict (tx : PoolTx) : Bool :=
  match tx.payload with
  | .register proTx => pool.registrationConflict proTx
  | .updateService proTx => pool.heldByOther (.address proTx.addr) proTx.proTxHash
  | .updateRegistrar proTx => keyChangeConflict env proTx.proTxHash proTx.pubKeyOperator ||
      pool.heldByOther (.operator proTx.pubKeyOperator) proTx.proTxHash
  | .updateRevoke proTxHash => keyChangeConflict env proTxHash none
  | .none => false

def addUnchecked (tx : PoolTx) : ProviderPool where
  mapTx := tx :: pool.mapTx
  index key := (pool.index key).or (if key ∈ tx.keys then some tx.hash else none)

def removeUnchecked (tx : PoolTx) : ProviderPool where
  mapTx := pool.mapTx.filter fun t => decide (t.hash ≠ tx.hash)
  index key := if key ∈ tx.erasedKeys then none else pool.index key

inductive PoolStep where
  | accept (env : ConflictEnv) (tx : PoolTx)
  | remove (tx : PoolTx)

def step : PoolStep → ProviderPool
  | .accept _ tx => pool.addUnchecked tx
  | .remove tx => pool.removeUnchecked tx

/-- What is accepted is new, has no conflict and spends nothing that is spent, and an update refers to
a smartnode of the list, whose registration has left the mempool. -/
def Admitted (pool : ProviderPool) : PoolStep → Prop
  | .accept env tx => pool.existsProviderTxConflict env tx = false ∧
      (∀ t ∈ pool.mapTx, t.hash ≠ tx.hash) ∧
      (∀ o ∈ tx.prevouts, pool.index (.spent o) = none) ∧
      ∀ h, tx.refersTo = some h → ∀ t ∈ pool.mapTx, t.hash ≠ h
  | .remove tx => tx ∈ pool.mapTx

structure Exact (pool : ProviderPool) : Prop where
  distinct : (pool.mapTx.map (·.hash)).Nodup
  index : ∀ key h, pool.index key = some h ↔ ∃ t ∈ pool.mapTx, t.hash = h ∧ key ∈ t.keys

variable {pool env}

theorem Exact.isSome_iff (inv : pool.Exact) (key : PoolKey) :
    (pool.index key).isSome = true ↔ ∃ t ∈ pool.mapTx, key ∈ t.keys := by
  rw [Option.isSome_iff_exists]
  simp only [inv.index]
  exact ⟨fun ⟨_, t, mem, _, hk⟩ => ⟨t, mem, hk⟩, fun ⟨t, mem, hk⟩ => ⟨_, t, mem, rfl, hk⟩⟩

theorem Exact.eq_of_hash (inv : pool.Exact) {t u : PoolTx} (ht : t ∈ pool.mapTx)
    (hu : u ∈ pool.mapTx) (same : t.hash = u.hash) : t = u :=
  List.inj_on_of_nodup_map inv.distinct ht hu same

theorem Exact.index_of_heldByOther (inv : pool.Exact) {key : PoolKey} {h : Uint256}
    (free : pool.heldByOther key h = false) (mined : ∀ t ∈ pool.mapTx, t.hash ≠ h) :
    pool.index key = none := by
  unfold heldByOther at free
  cases found : pool.index key with
  | none => rfl
  | some holder =>
    rw [found] at free
    obtain ⟨t, mem, rfl, -⟩ := (inv.index key holder).mp found
    exact absurd (of_decide_eq_false free) (not_not.mpr (mined t mem))

/-- Nothing in the pool uses a key of a transaction that is accepted. -/
theorem Exact.index_of_admitted (inv : pool.Exact) {tx : PoolTx}
    (ok : pool.Admitted (.accept env tx)) {key : PoolKey} (mem : key ∈ tx.keys) :
    pool.index key = none := by
  obtain ⟨free, -, unspent, mined⟩ := ok
  rcases List.mem_append.mp mem with spends | used
  · obtain ⟨o, ho, rfl⟩ := List.mem_map.mp spends
    exact unspent o ho
  · unfold existsProviderTxConflict at free
    unfold PoolTx.refersTo at mined
    cases payload : tx.payload with
    | register proTx =>
      simp only [payload, registrationConflict, Bool.or_eq_false_iff, Option.isSome_eq_false_iff,
        Option.isNone_iff_eq_none, Bool.and_eq_false_iff, decide_eq_false_iff_not] at free used
      obtain ⟨⟨⟨address, owner⟩, operator⟩, collateral⟩ := free
      simp only [List.mem_append, List.mem_cons, List.not_mem_nil, or_false] at used
      rcases used with (rfl | rfl | rfl) | used
      · exact address
      · exact owner
      · exact operator
      · split at used
        case isTrue external =>
          obtain rfl := List.mem_singleton.mp used
          exact (collateral.resolve_left (not_not.mpr external)).1
        case isFalse => cases used
    | updateService proTx =>
      simp only [payload] at free used mined
      obtain rfl := List.mem_singleton.mp used
      exact inv.index_of_heldByOther free (mined _ rfl)
    | updateRegistrar proTx =>
      simp only [payload, Bool.or_eq_false_iff] at free used mined
      obtain rfl := List.mem_singleton.mp used
      exact inv.index_of_heldByOther free.2 (mined _ rfl)
    | updateRevoke proTxHash => simp [payload] at used
    | none => simp [payload] at used

theorem Exact.accept (inv : pool.Exact) {tx : PoolTx} (ok : pool.Admitted (.accept env tx)) :
    (pool.addUnchecked tx).Exact := by
  have new : tx.hash ∉ pool.mapTx.map (·.hash) := fun mem =>
    let ⟨t, ht, same⟩ := List.mem_map.mp mem
    ok.2.1 t ht same
  refine ⟨List.nodup_cons.mpr ⟨new, inv.distinct⟩, fun key h => ?_⟩
  simp only [addUnchecked, List.mem_cons, exists_eq_or_imp]
  by_cases mem : key ∈ tx.keys
  · rw [inv.index_of_admitted ok mem, Option.none_or, if_pos mem, Option.some.injEq]
    refine ⟨fun heq => Or.inl ⟨heq, mem⟩, ?_⟩
    rintro (⟨heq, -⟩ | other)
    · exact heq
    · rw [← inv.index, inv.index_of_admitted ok mem] at other
      cases other
  · rw [if_neg mem, Option.or_none, inv.index]
    exact ⟨Or.inr, fun h => h.resolve_left fun h => mem h.2⟩

theorem collateral_external {t : PoolTx} {o : COutPoint} (mem : .collateral o ∈ t.keys) :
    o.hash ≠ 0 := by
  unfold PoolTx.keys at mem
  cases payload : t.payload with
  | register proTx =>
    simp only [payload, ne_eq, List.mem_append, List.mem_map, reduceCtorEq, and_false, exists_false,
      List.mem_cons, List.not_mem_nil, or_self, false_or] at mem
    split at mem
    case isTrue external =>
      obtain rfl := PoolKey.collateral.inj (List.mem_singleton.mp mem)
      exact external
    case isFalse => cases mem
  | _ => simp [payload] at mem

theorem Exact.remove (inv : pool.Exact) {tx : PoolTx} (mem : tx ∈ pool.mapTx) :
    (pool.removeUnchecked tx).Exact := by
  refine ⟨inv.distinct.sublist (List.filter_sublist.map _), fun key h => ?_⟩
  simp only [removeUnchecked, List.mem_filter, decide_eq_true_eq]
  constructor
  · intro found
    split at found
    case isTrue => cases found
    case isFalse kept =>
      obtain ⟨t, ht, rfl, hk⟩ := (inv.index key h).mp found
      refine ⟨t, ⟨ht, fun same => kept ?_⟩, rfl, hk⟩
      obtain rfl := inv.eq_of_hash ht mem same
      exact List.mem_append_left _ hk
  · rintro ⟨t, ⟨ht, other⟩, rfl, hk⟩
    have found := (inv.index key t.hash).mpr ⟨t, ht, rfl, hk⟩
    have unused : key ∉ tx.keys := by
      intro own
      have := (inv.index key tx.hash).mpr ⟨tx, mem, rfl, own⟩
      exact other (Option.some.inj (found.symm.trans this))
    rw [if_neg, found]
    intro erased
    rcases List.mem_append.mp erased with own | own
    · exact unused own
    · cases payload : tx.payload with
      | register proTx =>
        simp only [payload, List.mem_singleton] at own
        subst own
        refine unused (List.mem_append_right _ ?_)
        simp only [payload, if_pos (collateral_external hk)]
        simp
      | _ => simp [payload] at own

theorem exact_run (steps : List PoolStep) (admitted : Steps.Meets step Admitted {} steps) :
    (Steps.run step {} steps).Exact := by
  refine Steps.run_inv (I := Exact) (fun pool s inv ok => ?_)
    ⟨List.nodup_nil, by simp⟩ admitted
  cases s with
  | accept env tx => exact inv.accept ok
  | remove tx => exact inv.remove ok

/-- The transaction uses something of the registration; the null address is nobody's. -/
def Shares (proTx : CProRegTx) (t : PoolTx) : Prop :=
  (proTx.addr ≠ CService.null ∧ .address proTx.addr ∈ t.keys) ∨ .owner proTx.keyIDOwner ∈ t.keys ∨
    .operator proTx.pubKeyOperator ∈ t.keys ∨ proTx.collateralOutpoint.hash ≠ 0 ∧
      (.collateral proTx.collateralOutpoint ∈ t.keys ∨ .spent proTx.collateralOutpoint ∈ t.keys)

theorem Exact.registrationConflict_iff (inv : pool.Exact) (proTx : CProRegTx) :
    pool.registrationConflict proTx = true ↔ (∃ t ∈ pool.mapTx, Shares proTx t) ∨
      proTx.addr = CService.null ∧ ∃ t ∈ pool.mapTx, .address CService.null ∈ t.keys := by
  simp only [registrationConflict, Bool.or_eq_true, Bool.and_eq_true, decide_eq_true_eq,
    inv.isSome_iff]
  constructor
  · rintro (((⟨t, mem, hk⟩ | ⟨t, mem, hk⟩) | ⟨t, mem, hk⟩) | ⟨external, ⟨t, mem, hk⟩ | ⟨t, mem, hk⟩⟩)
    · by_cases null : proTx.addr = CService.null
      · exact Or.inr ⟨null, t, mem, null ▸ hk⟩
      · exact Or.inl ⟨t, mem, Or.inl ⟨null, hk⟩⟩
    · exact Or.inl ⟨t, mem, Or.inr (Or.inl hk)⟩
    · exact Or.inl ⟨t, mem, Or.inr (Or.inr (Or.inl hk))⟩
    · exact Or.inl ⟨t, mem, Or.inr (Or.inr (Or.inr ⟨external, Or.inl hk⟩))⟩
    · exact Or.inl ⟨t, mem, Or.inr (Or.inr (Or.inr ⟨external, Or.inr hk⟩))⟩
  · rintro (⟨t, mem, ⟨-, hk⟩ | hk | hk | ⟨external, hk | hk⟩⟩ | ⟨null, t, mem, hk⟩)
    · exact Or.inl (Or.inl (Or.inl ⟨t, mem, hk⟩))
    · exact Or.inl (Or.inl (Or.inr ⟨t, mem, hk⟩))
    · exact Or.inl (Or.inr ⟨t, mem, hk⟩)
    · exact Or.inr ⟨external, Or.inl ⟨t, mem, hk⟩⟩
    · exact Or.inr ⟨external, Or.inr ⟨t, mem, hk⟩⟩
    · exact Or.inl (Or.inl (Or.inl ⟨t, mem, null ▸ hk⟩))

/-- The conflict of a registration is exact unless it and one in the pool leave the address unset. -/
theorem existsProviderTxConflict_iff (steps : List PoolStep)
    (admitted : Steps.Meets step Admitted {} steps) (env : ConflictEnv) (tx : PoolTx)
    (proTx : CProRegTx) (registration : tx.payload = .register proTx) :
    ((Steps.run step {} steps).existsProviderTxConflict env tx = true ↔
        ∃ t ∈ (Steps.run step {} steps).mapTx, Shares proTx t) ↔
      (proTx.addr = CService.null → (∃ t ∈ (Steps.run step {} steps).mapTx,
        .address CService.null ∈ t.keys) →
        ∃ t ∈ (Steps.run step {} steps).mapTx, Shares proTx t) := by
  have conflict := (exact_run steps admitted).registrationConflict_iff proTx
  rw [existsProviderTxConflict, registration]
  constructor
  · intro h null other
    exact h.mp (conflict.mpr (Or.inr ⟨null, other⟩))
  · intro h
    refine conflict.trans ⟨?_, Or.inl⟩
    rintro (shared | ⟨null, other⟩)
    · exact shared
    · exact h null other

def toyProTx (key : Uint256) (addr : CService) : CProRegTx :=
  ⟨1, 0, 0, ⟨0, 0⟩, addr, key.setWidth 160, some (key.setWidth 384), 5, 0, [], 0, []⟩

def toyRegistration (hash key : Uint256) (addr : CService) : PoolTx :=
  ⟨hash, [⟨hash, 0⟩], .register (toyProTx key addr)⟩

def toyConflictEnv : ConflictEnv := ⟨fun _ => none, fun _ => false⟩

/-- Two registrations come, one of them without an address, and the one with an address goes. -/
def toySteps : List PoolStep :=
  [.accept toyConflictEnv (toyRegistration 1 1 ⟨8, 8⟩),
    .accept toyConflictEnv (toyRegistration 2 2 CService.null),
    .remove (toyRegistration 1 1 ⟨8, 8⟩)]

theorem toySteps_admitted : Steps.Meets step Admitted {} toySteps := by
  refine ⟨⟨rfl, by simp, by simp, by simp [toyRegistration, PoolTx.refersTo]⟩,
    ⟨by decide +kernel, ?_, by decide +kernel, by simp [toyRegistration, PoolTx.refersTo]⟩, ?_,
    trivial⟩
  · intro t mem
    obtain rfl := List.mem_singleton.mp mem
    decide
  · exact List.mem_cons_of_mem _ (List.mem_singleton.mpr rfl)

/-- The address is free again, the keys of the other registration are not. -/
theorem existsProviderTxConflict_toySteps :
    (¬ ∃ t ∈ (Steps.run step {} toySteps).mapTx, Shares (toyProTx 3 ⟨8, 8⟩) t) ∧
      (Steps.run step {} toySteps).existsProviderTxConflict toyConflictEnv
        (toyRegistration 3 2 ⟨8, 8⟩) = true := by
  constructor
  · intro shared
    have := ((existsProviderTxConflict_iff toySteps toySteps_admitted toyConflictEnv
      (toyRegistration 3 3 ⟨8, 8⟩) _ rfl).mpr fun null => absurd null (by decide)).mpr shared
    exact absurd this (by decide +kernel)
  · refine ((existsProviderTxConflict_iff toySteps toySteps_admitted toyConflictEnv
      (toyRegistration 3 2 ⟨8, 8⟩) _ rfl).mpr fun null => absurd null (by decide)).mpr ?_
    exact ⟨toyRegistration 2 2 CService.null, List.mem_singleton.mpr rfl,
      Or.inr (Or.inl (by simp [toyRegistration, PoolTx.keys, toyProTx]))⟩

/-- Two registrations without an address share nothing, and the second is a conflict. -/
theorem existsProviderTxConflict_nullAddress :
    let steps := [.accept toyConflictEnv (toyRegistration 1 1 CService.null)]
    Steps.Meets step Admitted {} steps ∧
      (Steps.run step {} steps).existsProviderTxConflict toyConflictEnv
        (toyRegistration 2 2 CService.null) = true ∧
      ¬ ∃ t ∈ (Steps.run step {} steps).mapTx, Shares (toyProTx 2 CService.null) t := by
  refine ⟨⟨⟨rfl, by simp, by simp, by simp [toyRegistration, PoolTx.refersTo]⟩, trivial⟩,
    by decide +kernel, ?_⟩
  rintro ⟨t, mem, shares⟩
  obtain rfl := List.mem_singleton.mp mem
  revert shares
  simp [Shares, toyRegistration, toyProTx, PoolTx.keys]

end ProviderPool

end ButCore.Mempool
