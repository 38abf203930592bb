import ButCore.Evo.BuildNewList

/-!
# What one transaction does to the list

For a transaction that passed its check against the parent's list: it is accepted by the registry
and applied, or rejected, or it is a registrar update with the operator key of another smartnode,
which stops in the assertion of `AddUniqueProperty`.
-/
namespace ButCore.Evo

open Checked CDeterministicMNList

/-- A transaction of the block. Its hash is not null and fixes the owner key that it registers. -/
structure CheckedTx (env : Env) (oldList : CDeterministicMNList) (ownerOf : Uint256 → CKeyID)
    (tx : CTransaction) : Prop where
  passed : checkSpecialTx env oldList tx = .ok ()
  hash_ne : tx.hash ≠ 0
  owner : ∀ ptx, tx.proRegPayload = some ptx → ptx.keyIDOwner = ownerOf tx.hash

variable {env : Env} {ownerOf : Uint256 → CKeyID} {oldList list list' : CDeterministicMNList}
variable {tx : CTransaction}

structure Dropped (list : CDeterministicMNList) (c : COutPoint) (list' : CDeterministicMNList) :
    Prop where
  getMN : ∀ k, list'.getMN k = (list.getMN k).filter fun dmn => decide (dmn.collateralOutpoint ≠ c)
  count : list'.nTotalRegisteredCount = list.nTotalRegisteredCount
  ids : list.IdInvariant → list'.IdInvariant

variable {dmn : CDeterministicMN} {k : Uint256} {c : COutPoint}

theorem Dropped.mem (dropped : Dropped list c list') :
    list'.getMN k = some dmn ↔ list.getMN k = some dmn ∧ dmn.collateralOutpoint ≠ c := by
  rw [dropped.getMN, Option.filter_eq_some_iff, decide_eq_true_eq]

theorem replaceByCollateral_spec (inv : list.UniqueInvariant ownerOf) (c : COutPoint) :
    ∃ list', replaceByCollateral list c = .ok list' ∧ list'.UniqueInvariant ownerOf ∧
      Dropped list c list' := by
  unfold replaceByCollateral
  cases hget : list.getMNByCollateral c with
  | none =>
    have hfree : ∀ k dmn, list.getMN k = some dmn → dmn.collateralOutpoint ≠ c := by
      rintro k dmn get rfl
      rw [getMNByCollateral, inv.getUniquePropertyMN_of_mem get (collateral_mem.mpr rfl)] at hget
      cases hget
    refine ⟨list, rfl, inv, ?_, rfl, id⟩
    intro k
    cases get : list.getMN k with
    | none => rfl
    | some dmn => exact (Option.filter_some_pos (by simpa using hfree k dmn get)).symm
  | some dmn =>
    obtain ⟨get, hmem⟩ := inv.mem_of_getUniquePropertyMN hget
    obtain ⟨list', hok, hinv, hset⟩ := inv.removeMN_spec get
    refine ⟨list', hok, hinv, ?_, hset.count, fun ids => ids.erase get hset⟩
    intro k
    rw [hset.getMN]
    by_cases hk : k = dmn.proTxHash
    · rw [if_pos hk, hk, get]
      exact (Option.filter_some_neg (by simp [← collateral_mem.mp hmem])).symm
    · rw [if_neg hk]
      cases get' : list.getMN k with
      | none => rfl
      | some dmn' =>
        have hne : dmn'.collateralOutpoint ≠ c := by
          rintro rfl
          exact hk (inv.holder_unique get' (collateral_mem.mpr rfl) get hmem)
        exact (Option.filter_some_pos (by simpa using hne)).symm

theorem removeSpentBy_eq (inv : list.UniqueInvariant ownerOf) (c : COutPoint) :
    removeSpentBy list c = replaceByCollateral list c := by
  unfold removeSpentBy replaceByCollateral
  cases hget : list.getMNByCollateral c with
  | none => rfl
  | some dmn => exact if_pos (collateral_mem.mp (inv.mem_of_getUniquePropertyMN hget).2).symm

theorem collateralOf_ne_null (hhash : tx.hash ≠ 0) (ptx : CProRegTx) :
    collateralOf tx ptx ≠ COutPoint.null := by
  unfold collateralOf
  intro heq
  split_ifs at heq with hint
  · exact hhash (congrArg COutPoint.hash heq)
  · exact hint (congrArg COutPoint.hash heq)

structure Registered (env : Env) (list : CDeterministicMNList) (tx : CTransaction) (ptx : CProRegTx)
    (list' : CDeterministicMNList) : Prop where
  getMN : ∀ k, list'.getMN k = if k = tx.hash then some (registeredMN env list tx ptx)
    else (list.getMN k).filter fun dmn => decide (dmn.collateralOutpoint ≠ collateralOf tx ptx)
  replaced : ∀ dmn, list.getMN tx.hash = some dmn → dmn.collateralOutpoint = collateralOf tx ptx
  count : list'.nTotalRegisteredCount = list.nTotalRegisteredCount + 1
  ids : list.IdInvariant →
    (∀ k dmn, list.getMN k = some dmn → dmn.internalId ≠ list.nTotalRegisteredCount.toNat) →
    list'.IdInvariant

theorem entry_filter (o : Option CDeterministicMN) (c : COutPoint) :
    (o.filter fun dmn => decide (dmn.collateralOutpoint ≠ c)).map CDeterministicMN.entry =
      (o.map CDeterministicMN.entry).filter fun e => decide (e.collateral ≠ c) := by
  cases o with
  | none => rfl
  | some dmn =>
    by_cases hc : dmn.collateralOutpoint = c <;>
      simp [Option.filter, CDeterministicMN.entry, hc]

theorem registry_dropped (dropped : Dropped list c list') :
    list'.registry = list.registry.dropCollateral c := by
  funext k
  rw [registry, dropped.getMN]
  exact entry_filter (list.getMN k) c

variable {ptx : CProRegTx}

theorem addRegistered_spec (inv : list.UniqueInvariant ownerOf) (dmn : CDeterministicMN)
    (hentry : dmn.entry = newEntry tx ptx) (hhash : dmn.proTxHash = tx.hash)
    (hcollateral : collateralOf tx ptx ≠ COutPoint.null) (hnull : ptx.keyIDOwner ≠ 0)
    (howner : ptx.keyIDOwner = ownerOf tx.hash)
    (hfree : ∀ k dmn', list.getMN k = some dmn' → dmn'.collateralOutpoint ≠ collateralOf tx ptx) :
    ((∀ q, (newEntry tx ptx).Has q → ¬ list.registry.Taken q) ∧ list.getMN tx.hash = none ∧
      ∃ list', addRegistered list ptx dmn = .ok list' ∧ list'.UniqueInvariant ownerOf ∧
        EntrySet list tx.hash (some dmn) (list.mnInternalIdMap.insert dmn.internalId tx.hash) list') ∨
    ((∃ q, (newEntry tx ptx).Has q ∧ list.registry.Taken q) ∧
      ∃ r, addRegistered list ptx dmn = .error (.reject r)) := by
  unfold addRegistered
  by_cases ha : list.hasUniqueProperty (.addr ptx.addr) = true
  · have taken := (hasUniqueProperty_iff_taken inv).mp ha
    right
    exact ⟨⟨.addr ptx.addr, ⟨taken.addr_ne, rfl⟩, taken⟩, _, bind_eq_error.mpr (Or.inl (rejectIf_pos ha _ _ _))⟩
  by_cases hk : list.hasUniqueProperty (.keyIDOwner ptx.keyIDOwner) = true ∨
      list.hasUniqueProperty (.pubKeyOperator ptx.pubKeyOperator) = true
  · right
    refine ⟨?_, _, bind_eq_error.mpr (Or.inr ⟨(), rejectIf_eq_ok.mpr ha, bind_eq_error.mpr
      (Or.inl (rejectIf_pos hk _ _ _))⟩)⟩
    rcases hk with hk | hk
    · exact ⟨.keyIDOwner ptx.keyIDOwner, rfl, (hasUniqueProperty_iff_taken inv).mp hk⟩
    · have taken := (hasUniqueProperty_iff_taken inv).mp hk
      exact ⟨.pubKeyOperator ptx.pubKeyOperator, ⟨taken.operator_ne, rfl⟩, taken⟩
  · left
    rw [not_or] at hk
    simp only [hasUniqueProperty_iff_taken inv] at ha hk
    have free : ∀ q, (newEntry tx ptx).Has q → ¬ list.registry.Taken q := by
      intro q hq
      cases q with
      | collateral o =>
        rw [taken_registry]
        rintro ⟨k, dmn', get, hmem⟩
        exact hfree k dmn' get ((collateral_mem.mp hmem).symm.trans hq)
      | addr a => exact hq.2 ▸ ha
      | keyIDOwner k => exact (show k = ptx.keyIDOwner from hq) ▸ hk.1
      | pubKeyOperator k => exact hq.2 ▸ hk.2
    have new : list.getMN tx.hash = none := by
      by_contra hsome
      obtain ⟨dmn', get⟩ := Option.ne_none_iff_exists'.mp hsome
      refine hk.1 (taken_registry.mpr ⟨_, dmn', get, keyIDOwner_mem.mpr ?_⟩)
      rw [inv.owner get, howner]
    refine ⟨free, new, ?_⟩
    have hcoll : dmn.collateralOutpoint = collateralOf tx ptx := congrArg Entry.collateral hentry
    have hown : dmn.pdmnState.keyIDOwner = ptx.keyIDOwner := congrArg Entry.owner hentry
    obtain ⟨list', hok, hinv, hset⟩ := inv.addMN_spec dmn (hhash ▸ new)
      (hcoll ▸ hcollateral) (hown ▸ hnull) (hown.trans (hhash ▸ howner)) (by
        intro q hq
        rw [inv.property_none_iff]
        intro k dmn' get hq'
        exact free q (hentry ▸ entry_has.mpr hq) (taken_registry.mpr ⟨k, dmn', get, hq'⟩))
    rw [hhash] at hset
    refine ⟨list', bind_eq_ok.mpr ⟨(), ?_, bind_eq_ok.mpr ⟨(), ?_, hok⟩⟩, hinv, hset⟩
    · simpa [hasUniqueProperty_iff_taken inv] using ha
    · simpa [hasUniqueProperty_iff_taken inv] using hk

theorem applyProRegTx_spec (inv : list.UniqueInvariant ownerOf)
    (hptx : ProRegTxPassed env oldList tx ptx) (hhash : tx.hash ≠ 0)
    (howner : ptx.keyIDOwner = ownerOf tx.hash) :
    (list.registry.Accepts (.register tx.hash (newEntry tx ptx)) ∧
      ∃ list', applyProRegTx env list tx = .ok list' ∧ list'.UniqueInvariant ownerOf ∧
        Registered env list tx ptx list') ∨
    (¬ list.registry.Accepts (.register tx.hash (newEntry tx ptx)) ∧
      ∃ r, applyProRegTx env list tx = .error (.reject r)) := by
  have counted : (countRegistration list).UniqueInvariant ownerOf :=
    ⟨inv.hash, inv.held, inv.collateral_ne, inv.owner_ne, inv.owner⟩
  obtain ⟨list₁, hdrop, inv₁, dropped⟩ := replaceByCollateral_spec counted (collateralOf tx ptx)
  have hreg : list₁.registry = list.registry.dropCollateral (collateralOf tx ptx) :=
    (registry_dropped dropped).trans rfl
  have hcoin : ¬ (ptx.collateralOutpoint.hash ≠ 0 ∧ badCollateral env ptx = true) := by
    rintro ⟨hext, hbad⟩
    obtain ⟨coin, hcoin, hvalid⟩ := hptx.coin hext
    simp [badCollateral, hcoin, hvalid] at hbad
  have hbody : applyProRegTx env list tx =
      addRegistered list₁ ptx (registeredMN env list tx ptx) := by
    unfold applyProRegTx
    rw [deref_some hptx.payload]
    simp only [ok_bind]
    rw [rejectIf_neg hcoin, ok_bind]
    rw [show (registeredMN env list tx ptx).collateralOutpoint = collateralOf tx ptx from rfl, hdrop,
      ok_bind]
  rw [hbody]
  rcases addRegistered_spec inv₁ (registeredMN env list tx ptx) rfl rfl
    (collateralOf_ne_null hhash ptx) hptx.owner_ne howner
    (fun k dmn' get => (dropped.mem.mp get).2) with
    ⟨free, new, list', hok, hinv, hset⟩ | ⟨⟨q, hq, taken⟩, hreject⟩
  · rw [hreg] at free
    refine Or.inl ⟨free, list', hok, hinv, ?_, ?_, ?_, ?_⟩
    · intro k
      rw [hset.getMN, dropped.getMN]
      rfl
    · intro dmn get
      by_contra hne
      rw [dropped.mem.mpr ⟨get, hne⟩] at new
      cases new
    · rw [hset.count, dropped.count]
      rfl
    · intro ids fresh
      refine (dropped.ids ids).insert new ?_ hset
      intro k dmn' get
      exact fresh k dmn' (dropped.mem.mp get).1
  · rw [hreg] at taken
    exact Or.inr ⟨fun accepts => accepts q hq taken, hreject⟩

def Updated (list : CDeterministicMNList) (h : Uint256) (dmn : CDeterministicMN)
    (st : CDeterministicMNState) (list' : CDeterministicMNList) : Prop :=
  EntrySet list h (some { dmn with pdmnState := st }) list.mnInternalIdMap list'

variable {h : Uint256} {st : CDeterministicMNState}

theorem registry_updated (updated : Updated list h dmn st list') :
    list'.registry = Function.update list.registry h
      (some { dmn with pdmnState := st }.entry) := by
  funext k
  rw [registry, updated.getMN, Function.update_apply]
  by_cases hk : k = h <;> simp [hk, registry]

theorem registry_some (get : list.getMN h = some dmn) :
    list.registry h = some dmn.entry := by
  rw [registry, get]
  rfl

theorem registry_none (get : list.getMN h = none) : list.registry h = none := by
  rw [registry, get]
  rfl

theorem servicedState_properties (env : Env) (st : CDeterministicMNState) (ptx : CProUpServTx) :
    (servicedState env st ptx).addr = ptx.addr ∧
      (servicedState env st ptx).keyIDOwner = st.keyIDOwner ∧
      (servicedState env st ptx).pubKeyOperator = st.pubKeyOperator := by
  simp only [servicedState]
  split_ifs <;> exact ⟨rfl, rfl, rfl⟩

variable {dmn' : CDeterministicMN}

theorem free_of_kept (inv : list.UniqueInvariant ownerOf) (get : list.getMN h = some dmn)
    {q : UniqueProperty} (hq : q ∈ dmn.uniqueProperties) (hk : k ≠ h)
    (get' : list.getMN k = some dmn') :
    q ∉ dmn'.uniqueProperties :=
  fun hq' => hk (inv.holder_unique get' hq' get hq)

theorem addr_kept (inv : list.UniqueInvariant ownerOf) (get : list.getMN h = some dmn) (hk : k ≠ h)
    (get' : list.getMN k = some dmn') : .addr dmn.pdmnState.addr ∉ dmn'.uniqueProperties := by
  intro hq
  exact free_of_kept inv get (addr_mem.mpr ⟨(addr_mem.mp hq).1, rfl⟩) hk get' hq

theorem operator_kept (inv : list.UniqueInvariant ownerOf) (get : list.getMN h = some dmn)
    (hk : k ≠ h) (get' : list.getMN k = some dmn') :
    .pubKeyOperator dmn.pdmnState.pubKeyOperator ∉ dmn'.uniqueProperties := by
  intro hq
  exact free_of_kept inv get (pubKeyOperator_mem.mpr ⟨(pubKeyOperator_mem.mp hq).1, rfl⟩) hk get' hq

theorem update_spec (inv : list.UniqueInvariant ownerOf) (get : list.getMN h = some dmn)
    (howner : st.keyIDOwner = dmn.pdmnState.keyIDOwner)
    (freeAddr : ∀ k dmn', k ≠ h → list.getMN k = some dmn' → .addr st.addr ∉ dmn'.uniqueProperties)
    (freeKey : ∀ k dmn', k ≠ h → list.getMN k = some dmn' → .pubKeyOperator st.pubKeyOperator ∉ dmn'.uniqueProperties) :
    ∃ list', list.updateMN h st = .ok list' ∧ list'.UniqueInvariant ownerOf ∧
      Updated list h dmn st list' := by
  apply inv.updateMN_spec get howner
  intro q hq k dmn' hk get'
  cases q with
  | collateral o => exact free_of_kept inv get (by simpa using hq) hk get'
  | addr a => exact (addr_mem.mp hq).2 ▸ freeAddr k dmn' hk get'
  | keyIDOwner o => exact free_of_kept inv get (by simpa [howner] using hq) hk get'
  | pubKeyOperator o => exact (pubKeyOperator_mem.mp hq).2 ▸ freeKey k dmn' hk get'

variable (env) in
theorem applyProUpServTx_spec (inv : list.UniqueInvariant ownerOf) {ptx : CProUpServTx}
    (hpayload : tx.proUpServPayload = some ptx) :
    (list.registry.Accepts (.updateService ptx.proTxHash ptx.addr) ∧
      ∃ dmn list', applyProUpServTx env list tx = .ok list' ∧ list'.UniqueInvariant ownerOf ∧
        list.getMN ptx.proTxHash = some dmn ∧
        Updated list ptx.proTxHash dmn (servicedState env dmn.pdmnState ptx) list') ∨
    (¬ list.registry.Accepts (.updateService ptx.proTxHash ptx.addr) ∧
      ∃ r, applyProUpServTx env list tx = .error (.reject r)) := by
  unfold applyProUpServTx
  rw [deref_some hpayload, ok_bind]
  by_cases taken : list.registry.TakenByOther ptx.proTxHash (.addr ptx.addr)
  · obtain ⟨k, dmn, hk, get, hmem⟩ := takenByOther_registry.mp taken
    obtain ⟨r, hr⟩ : ∃ r, rejectHolder list (.addr ptx.addr)
        (fun dmn => dmn.proTxHash != ptx.proTxHash) 100 "bad-protx-dup-addr" = .error (.reject r) := by
      apply reject_of_ne (fun _ => rejectHolder_ne_assertion inv)
      intro u hok
      have heq := (rejectHolder_eq_ok inv).mp hok k dmn get hmem
      exact hk ((inv.hash get).symm.trans (by simpa using heq))
    exact Or.inr ⟨fun accepts => accepts.2 taken, r, bind_eq_error.mpr (Or.inl hr)⟩
  · have others : ∀ k dmn, k ≠ ptx.proTxHash → list.getMN k = some dmn →
        .addr ptx.addr ∉ dmn.uniqueProperties := fun k dmn hk get hmem =>
      taken (takenByOther_registry.mpr ⟨k, dmn, hk, get, hmem⟩)
    have hholder : rejectHolder list (.addr ptx.addr) (fun dmn => dmn.proTxHash != ptx.proTxHash) 100
        "bad-protx-dup-addr" = .ok () := by
      rw [rejectHolder_eq_ok inv]
      intro k dmn get hmem
      by_contra hbad
      refine others k dmn (fun hk => hbad ?_) get hmem
      simp [inv.hash get, hk]
    rw [hholder, ok_bind]
    cases get : list.getMN ptx.proTxHash with
    | none =>
      right
      refine ⟨fun accepts => ?_, _, rfl⟩
      rw [Registry.Accepts, registry_none get] at accepts
      cases accepts.1
    | some dmn =>
      obtain ⟨haddr, howner, hkey⟩ := servicedState_properties env dmn.pdmnState ptx
      obtain ⟨list', hok, hinv, hset⟩ := update_spec inv get howner
        (fun k dmn' hk get' => haddr ▸ others k dmn' hk get')
        (fun k dmn' hk get' => hkey ▸ operator_kept inv get hk get')
      refine Or.inl ⟨⟨?_, taken⟩, dmn, list', hok, hinv, rfl, hset⟩
      rw [registry_some get]
      rfl

theorem registrarState_properties (env : Env) (st : CDeterministicMNState) (ptx : CProUpRegTx) :
    (registrarState env st ptx).addr =
        (if st.pubKeyOperator = ptx.pubKeyOperator then st.addr else CService.null) ∧
      (registrarState env st ptx).keyIDOwner = st.keyIDOwner ∧
      (registrarState env st ptx).pubKeyOperator = ptx.pubKeyOperator := by
  simp only [registrarState, CDeterministicMNState.banIfNotBanned,
    CDeterministicMNState.resetOperatorFields]
  split_ifs <;> simp_all

variable (env) in
theorem applyProUpRegTx_spec (inv : list.UniqueInvariant ownerOf) {ptx : CProUpRegTx}
    (hpayload : tx.proUpRegPayload = some ptx) (hkey : ptx.pubKeyOperator ≠ none) :
    (list.registry.Accepts (.updateRegistrar ptx.proTxHash ptx.pubKeyOperator) ∧
      ∃ dmn list', applyProUpRegTx env list tx = .ok list' ∧ list'.UniqueInvariant ownerOf ∧
        list.getMN ptx.proTxHash = some dmn ∧
        Updated list ptx.proTxHash dmn (registrarState env dmn.pdmnState ptx) list') ∨
    (list.registry.Clash (.updateRegistrar ptx.proTxHash ptx.pubKeyOperator) ∧
      applyProUpRegTx env list tx = .error (.assertion .addUniqueProperty)) ∨
    (list.registry ptx.proTxHash = none ∧ ∃ r, applyProUpRegTx env list tx = .error (.reject r)) := by
  unfold applyProUpRegTx
  rw [deref_some hpayload, ok_bind]
  cases get : list.getMN ptx.proTxHash with
  | none => exact Or.inr (Or.inr ⟨registry_none get, _, rfl⟩)
  | some dmn =>
    have hsome : (list.registry ptx.proTxHash).isSome := by
      rw [registry_some get]
      rfl
    obtain ⟨haddr, howner, hnew⟩ := registrarState_properties env dmn.pdmnState ptx
    by_cases taken : list.registry.TakenByOther ptx.proTxHash (.pubKeyOperator ptx.pubKeyOperator)
    · obtain ⟨k, other, hk, getOther, hmem⟩ := takenByOther_registry.mp taken
      have hother := (pubKeyOperator_mem.mp hmem).2
      -- the smartnode cannot have the key itself, so its address is reset first
      have hchange : dmn.pdmnState.pubKeyOperator ≠ ptx.pubKeyOperator := by
        intro heq
        exact free_of_kept inv get (pubKeyOperator_mem.mpr ⟨hkey, heq.symm⟩) hk getOther hmem
      refine Or.inr (Or.inl ⟨⟨hsome, taken⟩, ?_⟩)
      exact inv.updateMN_clash get howner (haddr.trans (if_neg hchange)) (hnew ▸ hkey) hk getOther
        (hother.symm.trans hnew.symm)
    · obtain ⟨list', hok, hinv, hset⟩ := update_spec inv get howner
        (by
          intro k dmn' hk get'
          rw [haddr]
          split_ifs
          · exact addr_kept inv get hk get'
          · exact fun hq => (addr_mem.mp hq).1 rfl)
        (fun k dmn' hk get' hq => taken (takenByOther_registry.mpr ⟨k, dmn', hk, get', hnew ▸ hq⟩))
      exact Or.inl ⟨⟨hsome, taken⟩, dmn, list', hok, hinv, rfl, hset⟩

theorem revokedState_properties (env : Env) (st : CDeterministicMNState) (ptx : CProUpRevTx) :
    (revokedState env st ptx).addr = CService.null ∧
      (revokedState env st ptx).keyIDOwner = st.keyIDOwner ∧
      (revokedState env st ptx).pubKeyOperator = none := by
  unfold revokedState CDeterministicMNState.banIfNotBanned CDeterministicMNState.resetOperatorFields
  by_cases hban : st.nPoSeBanHeight = -1 <;> simp [hban]

variable (env) in
theorem applyProUpRevTx_spec (inv : list.UniqueInvariant ownerOf) {ptx : CProUpRevTx}
    (hpayload : tx.proUpRevPayload = some ptx) :
    (∃ dmn list', applyProUpRevTx env list tx = .ok list' ∧ list'.UniqueInvariant ownerOf ∧
      list.getMN ptx.proTxHash = some dmn ∧
      Updated list ptx.proTxHash dmn (revokedState env dmn.pdmnState ptx) list') ∨
    (list.registry ptx.proTxHash = none ∧ ∃ r, applyProUpRevTx env list tx = .error (.reject r)) := by
  unfold applyProUpRevTx
  rw [deref_some hpayload, ok_bind]
  cases get : list.getMN ptx.proTxHash with
  | none => exact Or.inr ⟨registry_none get, _, rfl⟩
  | some dmn =>
    obtain ⟨haddr, howner, hkey⟩ := revokedState_properties env dmn.pdmnState ptx
    obtain ⟨list', hok, hinv, hset⟩ := update_spec inv get howner
      (fun k dmn' _ _ hq => (addr_mem.mp hq).1 haddr)
      (fun k dmn' _ _ hq => (pubKeyOperator_mem.mp hq).1 hkey)
    exact Or.inl ⟨dmn, list', hok, hinv, rfl, hset⟩

theorem applyQuorumCommitment_spec (inv : list.UniqueInvariant ownerOf)
    {qc : CFinalCommitmentTxPayload} (hqc : CommitmentPassed env tx qc) :
    (RightBlock env qc ∧ ∃ list', applyQuorumCommitment env list tx = .ok list' ∧
      Neutral ownerOf list list') ∨
    (¬ RightBlock env qc ∧ ∃ r, applyQuorumCommitment env list tx = .error (.reject r)) := by
  unfold applyQuorumCommitment
  rw [deref_some hqc.payload, ok_bind]
  by_cases hnull : isNullCommitment qc.commitment = true
  · rw [if_pos hnull]
    exact Or.inl ⟨Or.inl hnull, list, rfl, inv, Keeps.refl list⟩
  · obtain ⟨params, hparams⟩ := hqc.params
    rw [if_neg hnull, deref_some hparams, ok_bind]
    by_cases hblock : env.getAncestor (qc.nHeight - qc.nHeight % params.dkgInterval : ℕ) =
        some qc.commitment.quorumHash
    · obtain ⟨list', hok, hneutral⟩ := handleQuorumCommitment_neutral env qc.commitment inv
      refine Or.inl ⟨Or.inr ⟨params, hparams, hblock⟩, list', ?_, hneutral⟩
      exact bind_eq_ok.mpr ⟨(), rejectIf_neg (not_not.mpr hblock) _ _ _, hok⟩
    · refine Or.inr ⟨?_, _, bind_eq_error.mpr (Or.inl (rejectIf_pos hblock _ _ _))⟩
      rintro (h | ⟨params', hparams', h⟩)
      · exact hnull h
      · cases hparams.symm.trans hparams'
        exact hblock h

/-- How an accepted transaction changes the list, with what its check against `oldList` says about
the properties that it brings in. -/
inductive Effect (env : Env) (oldList list : CDeterministicMNList) (tx : CTransaction)
    (list' : CDeterministicMNList) : Prop where
  | registered (ptx : CProRegTx) (isReg : isRegistration tx = true)
      (passed : ProRegTxPassed env oldList tx ptx) (registered : Registered env list tx ptx list')
  | updated (h : Uint256) (dmn : CDeterministicMN) (st : CDeterministicMNState)
      (notReg : isRegistration tx = false) (get : list.getMN h = some dmn)
      (member : ∃ dmn₀, oldList.getMN h = some dmn₀)
      (owner : st.keyIDOwner = dmn.pdmnState.keyIDOwner)
      (addr : st.addr = dmn.pdmnState.addr ∨ ∀ k dmn₀, oldList.getMN k = some dmn₀ →
        .addr st.addr ∈ dmn₀.uniqueProperties → k = h)
      (operator : st.pubKeyOperator = dmn.pdmnState.pubKeyOperator ∨
        ∀ k dmn₀, oldList.getMN k = some dmn₀ →
          .pubKeyOperator st.pubKeyOperator ∈ dmn₀.uniqueProperties → k = h)
      (set : Updated list h dmn st list')
  | neutral (notReg : isRegistration tx = false) (keeps : Keeps list list')

inductive Outcome (env : Env) (ownerOf : Uint256 → CKeyID) (oldList list : CDeterministicMNList)
    (tx : CTransaction) : Prop where
  | accepted (list' : CDeterministicMNList) (ok : applyTx env list tx = .ok list')
      (accepts : list.registry.Accepts (actionOf env tx)) (inv : list'.UniqueInvariant ownerOf)
      (registry : list'.registry = list.registry.after (actionOf env tx))
      (effect : Effect env oldList list tx list')
  | clash (error : applyTx env list tx = .error (.assertion .addUniqueProperty))
      (clash : list.registry.Clash (actionOf env tx))
  | rejected (r : Reject) (error : applyTx env list tx = .error (.reject r))
      (notAccepted : ¬ list.registry.Accepts (actionOf env tx))
      (noClash : ¬ list.registry.Clash (actionOf env tx))

theorem registry_registered (registered : Registered env list tx ptx list') :
    list'.registry = list.registry.after (.register tx.hash (newEntry tx ptx)) := by
  funext k
  rw [registry, registered.getMN, Registry.after, Function.update_apply]
  by_cases hk : k = tx.hash
  · rw [if_pos hk, if_pos hk]
    rfl
  · rw [if_neg hk, if_neg hk]
    exact entry_filter (list.getMN k) (collateralOf tx ptx)

theorem registry_neutral (keeps : Keeps list list') : list'.registry = list.registry := by
  funext k
  have hcore := keeps.core k
  unfold registry
  cases get : list.getMN k <;> cases get' : list'.getMN k <;>
    simp_all [core, CDeterministicMN.entry]

section

variable (invOld : oldList.UniqueInvariant ownerOf) (checked : CheckedTx env oldList ownerOf tx)
variable (inv : list.UniqueInvariant ownerOf) (hversion : tx.nVersion = 3)

theorem outcome_nothing (happly : applyTx env list tx = .ok list)
    (haction : actionOf env tx = .nothing) (hreg : isRegistration tx = false)
    (inv : list.UniqueInvariant ownerOf) : Outcome env ownerOf oldList list tx :=
  .accepted list happly (haction ▸ trivial) inv (haction ▸ rfl) (.neutral hreg (Keeps.refl list))

include invOld checked inv hversion

theorem outcome_register (htype : tx.nType = .providerRegister) :
    Outcome env ownerOf oldList list tx := by
  have hchk := checkSpecialTx_ok hversion checked.passed
  rw [htype] at hchk
  obtain ⟨ptx, hptx⟩ := checkProRegTx_ok invOld hchk
  have hpayload := CTransaction.proRegPayload_eq_some.mp hptx.payload
  have happly : applyTx env list tx = applyProRegTx env list tx := by
    simp [applyTx, hversion, htype]
  have haction : actionOf env tx = .register tx.hash (newEntry tx ptx) := by
    simp [actionOf, hversion, htype, hpayload]
  rcases applyProRegTx_spec inv hptx checked.hash_ne (checked.owner ptx hptx.payload) with
    ⟨accepts, list', hok, hinv, registered⟩ | ⟨notAccepted, r, hr⟩
  · exact .accepted list' (happly.trans hok) (haction ▸ accepts) hinv
      (haction ▸ registry_registered registered)
      (.registered ptx (by simp [isRegistration, hversion, htype]) hptx registered)
  · exact .rejected r (happly.trans hr) (haction ▸ notAccepted) (haction ▸ id)

theorem outcome_updateService (htype : tx.nType = .providerUpdateService) :
    Outcome env ownerOf oldList list tx := by
  have hchk := checkSpecialTx_ok hversion checked.passed
  rw [htype] at hchk
  obtain ⟨ptx, hptx⟩ := checkProUpServTx_ok invOld hchk
  have hpayload := CTransaction.proUpServPayload_eq_some.mp hptx.payload
  have happly : applyTx env list tx = applyProUpServTx env list tx := by
    simp [applyTx, hversion, htype]
  have haction : actionOf env tx = .updateService ptx.proTxHash ptx.addr := by
    simp [actionOf, hversion, htype, hpayload]
  rcases applyProUpServTx_spec env inv hptx.payload with
    ⟨accepts, dmn, list', hok, hinv, get, hset⟩ | ⟨notAccepted, r, hr⟩
  · obtain ⟨haddr, howner, hkey⟩ := servicedState_properties env dmn.pdmnState ptx
    refine .accepted list' (happly.trans hok) (haction ▸ accepts) hinv ?_
      (.updated ptx.proTxHash dmn _ (by simp [isRegistration, htype]) get hptx.member howner
        (Or.inr (haddr ▸ hptx.addr)) (Or.inl hkey) hset)
    rw [haction, registry_updated hset, Registry.after, registry_some get]
    simp [CDeterministicMN.entry, haddr, howner, hkey]
  · exact .rejected r (happly.trans hr) (haction ▸ notAccepted) (haction ▸ id)

theorem outcome_updateRegistrar (htype : tx.nType = .providerUpdateRegistrar) :
    Outcome env ownerOf oldList list tx := by
  have hchk := checkSpecialTx_ok hversion checked.passed
  rw [htype] at hchk
  obtain ⟨ptx, hptx⟩ := checkProUpRegTx_ok invOld hchk
  have hpayload := CTransaction.proUpRegPayload_eq_some.mp hptx.payload
  have happly : applyTx env list tx = applyProUpRegTx env list tx := by
    simp [applyTx, hversion, htype]
  have haction : actionOf env tx = .updateRegistrar ptx.proTxHash ptx.pubKeyOperator := by
    simp [actionOf, hversion, htype, hpayload]
  rcases applyProUpRegTx_spec env inv hptx.payload hptx.operator_ne with
    ⟨accepts, dmn, list', hok, hinv, get, hset⟩ | ⟨clash, herror⟩ | ⟨hnone, r, hr⟩
  · obtain ⟨haddr, howner, hkey⟩ := registrarState_properties env dmn.pdmnState ptx
    refine .accepted list' (happly.trans hok) (haction ▸ accepts) hinv ?_
      (.updated ptx.proTxHash dmn _ (by simp [isRegistration, htype]) get hptx.member howner
        ?_ (Or.inr (hkey ▸ hptx.operator)) hset)
    · rw [haction, registry_updated hset, Registry.after, registry_some get]
      congr 1
      simp only [CDeterministicMN.entry, Option.map_some, Registry.Entry.setOperator, haddr, howner,
        hkey]
      split_ifs with hsame
      · rw [hsame]
      · rfl
    · rw [haddr]
      split_ifs
      · exact Or.inl rfl
      · exact Or.inr fun k dmn₀ _ hq => absurd rfl (addr_mem.mp hq).1
  · exact .clash (happly.trans herror) (haction ▸ clash)
  · refine .rejected r (happly.trans hr) (haction ▸ ?_) (haction ▸ ?_)
    · rintro ⟨hsome, -⟩
      rw [hnone] at hsome
      cases hsome
    · rintro ⟨hsome, -⟩
      rw [hnone] at hsome
      cases hsome

omit invOld in
theorem outcome_revoke (htype : tx.nType = .providerUpdateRevoke) :
    Outcome env ownerOf oldList list tx := by
  have hchk := checkSpecialTx_ok hversion checked.passed
  rw [htype] at hchk
  obtain ⟨ptx, hptx⟩ := checkProUpRevTx_ok hchk
  have hpayload := CTransaction.proUpRevPayload_eq_some.mp hptx.payload
  have happly : applyTx env list tx = applyProUpRevTx env list tx := by
    simp [applyTx, hversion, htype]
  have haction : actionOf env tx = .revoke ptx.proTxHash := by
    simp [actionOf, hversion, htype, hpayload]
  rcases applyProUpRevTx_spec env inv hptx.payload with
    ⟨dmn, list', hok, hinv, get, hset⟩ | ⟨hnone, r, hr⟩
  · obtain ⟨haddr, howner, hkey⟩ := revokedState_properties env dmn.pdmnState ptx
    refine .accepted list' (happly.trans hok) (haction ▸ ?_) hinv ?_
      (.updated ptx.proTxHash dmn _ (by simp [isRegistration, htype]) get hptx.member howner
        (Or.inr fun k dmn₀ _ hq => absurd haddr (addr_mem.mp hq).1)
        (Or.inr fun k dmn₀ _ hq => absurd hkey (pubKeyOperator_mem.mp hq).1) hset)
    · rw [Registry.Accepts, registry_some get]
      rfl
    · rw [haction, registry_updated hset, Registry.after, registry_some get]
      simp [CDeterministicMN.entry, haddr, howner, hkey]
  · refine .rejected r (happly.trans hr) (haction ▸ ?_) (haction ▸ id)
    rw [Registry.Accepts, hnone]
    simp

omit invOld in
theorem outcome_commitment (htype : tx.nType = .quorumCommitment) :
    Outcome env ownerOf oldList list tx := by
  have hchk := checkSpecialTx_ok hversion checked.passed
  rw [htype] at hchk
  obtain ⟨qc, hqc⟩ := checkLLMQCommitment_ok hchk
  have hpayload := CTransaction.finalCommitmentPayload_eq_some.mp hqc.payload
  have happly : applyTx env list tx = applyQuorumCommitment env list tx := by
    simp [applyTx, hversion, htype]
  have haction : actionOf env tx = .commitment (RightBlock env qc) := by
    simp [actionOf, hversion, htype, hpayload]
  rcases applyQuorumCommitment_spec inv hqc with ⟨hright, list', hok, hinv, hkeeps⟩ | ⟨hwrong, r, hr⟩
  · exact .accepted list' (happly.trans hok) (haction ▸ hright) hinv
      (haction ▸ registry_neutral hkeeps) (.neutral (by simp [isRegistration, htype]) hkeeps)
  · exact .rejected r (happly.trans hr) (haction ▸ hwrong) (haction ▸ id)

end

theorem applyTx_outcome (invOld : oldList.UniqueInvariant ownerOf)
    (checked : CheckedTx env oldList ownerOf tx) (inv : list.UniqueInvariant ownerOf) :
    Outcome env ownerOf oldList list tx := by
  by_cases hversion : tx.nVersion = 3
  · cases htype : tx.nType with
    | providerRegister => exact outcome_register invOld checked inv hversion htype
    | providerUpdateService => exact outcome_updateService invOld checked inv hversion htype
    | providerUpdateRegistrar => exact outcome_updateRegistrar invOld checked inv hversion htype
    | providerUpdateRevoke => exact outcome_revoke checked inv hversion htype
    | quorumCommitment => exact outcome_commitment checked inv hversion htype
    | normal | coinbase | other =>
      exact outcome_nothing (by simp [applyTx, hversion, htype])
        (by simp [actionOf, htype]) (by simp [isRegistration, htype]) inv
  · exact outcome_nothing (by simp [applyTx, hversion]) (by simp [actionOf, hversion])
      (by simp [isRegistration, hversion]) inv

end ButCore.Evo
