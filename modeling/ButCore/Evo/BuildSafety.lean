import ButCore.Evo.TxEffects

/-!
# When block processing ends properly

The transaction loop follows the registry step by step.
-/
namespace ButCore.Evo

open Checked CDeterministicMNList

variable {env : Env} {ownerOf : Uint256 → CKeyID} {oldList list list' : CDeterministicMNList}
variable {txs vtx : List CTransaction}

/-- The function returns a list, or false with a reject reason. -/
def EndsProperly (result : Except Fault CDeterministicMNList) : Prop :=
  (∃ list, result = .ok list) ∨ ∃ r, result = .error (.reject r)

instance : (result : Except Fault CDeterministicMNList) → Decidable (EndsProperly result)
  | .ok list => .isTrue (Or.inl ⟨list, rfl⟩)
  | .error (.reject r) => .isTrue (Or.inr ⟨r, rfl⟩)
  | .error (.assertion _) => .isFalse (by simp [EndsProperly])

theorem endsProperly_iff {result : Except Fault CDeterministicMNList} :
    EndsProperly result ↔ ∀ site, result ≠ .error (.assertion site) := by
  unfold EndsProperly
  cases result with
  | ok list => simp
  | error e => cases e <;> simp

section

variable (invOld : oldList.UniqueInvariant ownerOf)

include invOld

theorem applyTxs_refines (checked : ∀ tx ∈ txs, CheckedTx env oldList ownerOf tx)
    (inv : list.UniqueInvariant ownerOf) (run : txs.foldlM (applyTx env) list = .ok list') :
    list'.UniqueInvariant ownerOf ∧
      list.registry.Run (txs.map (actionOf env)) list'.registry := by
  induction txs generalizing list with
  | nil =>
    rw [List.foldlM_nil, pure_eq_ok] at run
    subst run
    exact ⟨inv, rfl⟩
  | cons tx txs ih =>
    obtain ⟨list₁, hstep, hrest⟩ := foldlM_cons_ok.mp run
    cases applyTx_outcome invOld (checked tx (by simp)) inv with
    | accepted list₂ ok accepts inv₂ registry effect =>
      cases hstep.symm.trans ok
      obtain ⟨hinv, hrun⟩ := ih (fun t ht => checked t (by simp [ht])) inv₂ hrest
      exact ⟨hinv, accepts, registry ▸ hrun⟩
    | clash error _ => cases hstep.symm.trans error
    | rejected r error _ _ => cases hstep.symm.trans error

theorem applyTxs_complete (checked : ∀ tx ∈ txs, CheckedTx env oldList ownerOf tx)
    (inv : list.UniqueInvariant ownerOf) {R : Registry}
    (run : list.registry.Run (txs.map (actionOf env)) R) :
    ∃ list', txs.foldlM (applyTx env) list = .ok list' ∧ list'.UniqueInvariant ownerOf ∧
      list'.registry = R := by
  induction txs generalizing list with
  | nil => exact ⟨list, rfl, inv, run.symm⟩
  | cons tx txs ih =>
    obtain ⟨accepts, hrest⟩ := run
    cases applyTx_outcome invOld (checked tx (by simp)) inv with
    | accepted list₁ ok _ inv₁ registry effect =>
      rw [← registry] at hrest
      obtain ⟨list', hok, hinv, hR⟩ := ih (fun t ht => checked t (by simp [ht])) inv₁ hrest
      exact ⟨list', foldlM_cons_ok.mpr ⟨list₁, ok, hok⟩, hinv, hR⟩
    | clash _ clash => exact absurd accepts (Registry.not_accepts_of_clash clash)
    | rejected r _ notAccepted _ => exact absurd accepts notAccepted

theorem applyTxs_assertion_iff (checked : ∀ tx ∈ txs, CheckedTx env oldList ownerOf tx)
    (inv : list.UniqueInvariant ownerOf) :
    (∃ site, txs.foldlM (applyTx env) list = .error (.assertion site)) ↔
      ¬ list.registry.NoClash (txs.map (actionOf env)) := by
  constructor
  · rintro ⟨site, hstop⟩ noClash
    obtain ⟨done, tx, rest, list₁, rfl, hdone, hstep⟩ := foldlM_eq_error_iff.mp hstop
    obtain ⟨inv₁, hrun⟩ := applyTxs_refines invOld (fun t ht => checked t (by simp [ht])) inv hdone
    cases applyTx_outcome invOld (checked tx (by simp)) inv₁ with
    | accepted list₂ ok _ _ _ _ => cases hstep.symm.trans ok
    | clash _ clash => exact noClash _ _ (rest.map (actionOf env)) _ (by simp) hrun clash
    | rejected r error _ _ => cases hstep.symm.trans error
  · intro hclash
    unfold Registry.NoClash at hclash
    push Not at hclash
    obtain ⟨done, a, rest, R, hsplit, hrun, clash⟩ := hclash
    obtain ⟨done, txs', rfl, rfl, hrest⟩ := List.map_eq_append_iff.mp hsplit
    obtain ⟨tx, rest, rfl, rfl, rfl⟩ := List.map_eq_cons_iff.mp hrest
    obtain ⟨list₁, hdone, inv₁, rfl⟩ := applyTxs_complete invOld
      (fun t ht => checked t (by simp [ht])) inv hrun
    cases applyTx_outcome invOld (checked tx (by simp)) inv₁ with
    | accepted _ _ accepts _ _ _ => exact absurd accepts (Registry.not_accepts_of_clash clash)
    | clash error _ =>
      exact ⟨_, foldlM_eq_error_iff.mpr ⟨done, tx, rest, list₁, rfl, hdone, error⟩⟩
    | rejected _ _ _ noClash => exact absurd clash noClash

end

theorem removeSpent_spec (inv : list.UniqueInvariant ownerOf) (spent : List COutPoint) :
    ∃ list', spent.foldlM removeSpentBy list = .ok list' ∧ list'.UniqueInvariant ownerOf :=
  foldlM_total removeSpentBy (fun _ t => t.UniqueInvariant ownerOf) spent inv (by
    intro done c rest t _ ht
    rw [removeSpentBy_eq ht]
    obtain ⟨t', hok, hinv, -⟩ := replaceByCollateral_spec ht c
    exact ⟨t', hok, hinv⟩)

variable (env ownerOf oldList vtx) in
/-- Every transaction passed its check against the list of the parent block. -/
theorem buildNewListFromBlock_safe_iff (inv : oldList.UniqueInvariant ownerOf)
    (checked : ∀ tx ∈ vtx, CheckedTx env oldList ownerOf tx) :
    EndsProperly (buildNewListFromBlock env oldList vtx) ↔
      oldList.registry.NoClash ((vtx.drop 1).map (actionOf env)) := by
  have checked' : ∀ tx ∈ vtx.drop 1, CheckedTx env oldList ownerOf tx :=
    fun tx htx => checked tx (List.mem_of_mem_drop htx)
  obtain ⟨list, hprepare, hinv, hkeeps⟩ := prepareList_neutral env inv
  have hassert := applyTxs_assertion_iff inv checked' hinv
  rw [registry_neutral hkeeps] at hassert
  rw [endsProperly_iff, ← not_iff_not, ← hassert]
  push Not
  refine exists_congr fun site => ?_
  unfold buildNewListFromBlock
  rw [hprepare, ok_bind, bind_eq_error]
  constructor
  · rintro (hstop | ⟨list₁, hrun, hstop⟩)
    · exact hstop
    · exfalso
      obtain ⟨inv₁, -⟩ := applyTxs_refines inv checked' hinv hrun
      obtain ⟨list₂, hspent, inv₂⟩ := removeSpent_spec inv₁ (spentBy vtx)
      obtain ⟨list₃, hpaid, -⟩ := markPayee_neutral env (oldList.getMNPayee env) inv₂
      rw [hspent, ok_bind, hpaid] at hstop
      cases hstop
  · exact Or.inl

def toyScript : CScript := [0xa9, 0x14] ++ List.replicate 20 0 ++ [0x87]

def toyEnv : Env where
  network := .regtest
  mainnetDefaultPort := 1
  dip0003Enabled := true
  dip0008Enabled := true
  nSmartnodeMinimumConfirmations := 15
  collaterals := [(INT_MAX, 1000)]
  llmqs := fun _ => none
  spork21Active := true
  getUTXOCoin := fun _ => some ⟨1000, toyScript⟩
  tipHeight := 100
  prevHeight := 100
  prevBlockHash := 0
  getAncestor := fun _ => none
  blockHeight := fun _ => none
  getAllQuorumMembers := fun _ _ => []
  strayBit := fun _ => false
  isValid := fun _ => true
  isRoutable := fun _ => true
  isIPv4 := fun _ => true
  extractDestination := fun _ => some (.scriptID 0)
  confirmedHashWith := fun _ _ => 0
  calcTxInputsHash := fun _ => 0
  verifyHash := fun _ _ => true
  verifyMessage := fun _ _ => true
  verifyInsecure := fun _ _ => true

def toyOwner (h : Uint256) : CKeyID := h.setWidth 160

def toyMN (h : Uint256) (id : ℕ) : CDeterministicMN :=
  ⟨h, id, ⟨h + 1000, 0⟩, 0,
    { keyIDOwner := toyOwner h, pubKeyOperator := some (h.setWidth 384), keyIDVoting := 5,
      addr := ⟨h.setWidth 128, 2⟩, scriptPayout := toyScript }⟩

def toyAdd (list : CDeterministicMNList) (dmn : CDeterministicMN) : CDeterministicMNList :=
  countRegistration ((list.addMN dmn).toOption.getD list)

theorem toyAdd_inv (inv : list.UniqueInvariant toyOwner) {dmn : CDeterministicMN}
    (new : list.getMN dmn.proTxHash = none)
    (hcollateral : dmn.collateralOutpoint ≠ COutPoint.null) (hnull : dmn.pdmnState.keyIDOwner ≠ 0)
    (howner : dmn.pdmnState.keyIDOwner = toyOwner dmn.proTxHash)
    (free : ∀ q ∈ dmn.uniqueProperties, list.mnUniquePropertyMap q = none) :
    (toyAdd list dmn).UniqueInvariant toyOwner := by
  obtain ⟨list', hok, hinv, -⟩ := inv.addMN_spec dmn new hcollateral hnull howner free
  rw [toyAdd, hok]
  exact ⟨hinv.hash, hinv.held, hinv.collateral_ne, hinv.owner_ne, hinv.owner⟩

def toyList : CDeterministicMNList := toyAdd (toyAdd (empty 0) (toyMN 1 0)) (toyMN 2 1)

theorem toyList_inv : toyList.UniqueInvariant toyOwner := by
  apply toyAdd_inv (toyAdd_inv (uniqueInvariant_empty toyOwner 0) ?_ ?_ ?_ ?_ ?_) <;>
    decide +kernel

def toyTx (hash : Uint256) (nType : TxType) (payload : ExtraPayload) : CTransaction :=
  ⟨hash, 3, nType, [], [], 0, payload, 0⟩

def toyUpdate (hash h : Uint256) (key : BitVec 384) : CTransaction :=
  toyTx hash .providerUpdateRegistrar (.proUpRegTx ⟨1, h, 0, some key, 5, toyScript, 0, []⟩)

def toyCoinbase : CTransaction := ⟨10, 3, .coinbase, [⟨COutPoint.null, [], 0⟩], [], 0, .cbTx ⟨2, 101⟩, 0⟩

theorem toyUpdate_checked {tx : CTransaction} (passed : checkSpecialTx toyEnv toyList tx = .ok ())
    (hhash : tx.hash ≠ 0) (notReg : tx.proRegPayload = none) :
    CheckedTx toyEnv toyList toyOwner tx :=
  ⟨passed, hhash, by simp [notReg]⟩

theorem buildNewListFromBlock_safe_oneUpdate :
    toyList.registry.NoClash ([toyUpdate 20 1 300].map (actionOf toyEnv)) := by
  refine (buildNewListFromBlock_safe_iff toyEnv toyOwner toyList [toyCoinbase, toyUpdate 20 1 300]
    toyList_inv ?_).mp (by decide +kernel)
  intro tx htx
  simp only [List.mem_cons, List.not_mem_nil, or_false] at htx
  rcases htx with rfl | rfl <;>
    exact toyUpdate_checked (by decide +kernel) (by decide +kernel) (by decide +kernel)

/-- Two smartnodes take the same new operator key in one block. -/
theorem buildNewListFromBlock_asserts_twoUpdates :
    toyList.UniqueInvariant toyOwner ∧
      (∀ tx ∈ [toyCoinbase, toyUpdate 20 1 300, toyUpdate 21 2 300],
        CheckedTx toyEnv toyList toyOwner tx) ∧
      ¬ EndsProperly (buildNewListFromBlock toyEnv toyList
        [toyCoinbase, toyUpdate 20 1 300, toyUpdate 21 2 300]) := by
  refine ⟨toyList_inv, ?_, by decide +kernel⟩
  intro tx htx
  simp only [List.mem_cons, List.not_mem_nil, or_false] at htx
  rcases htx with rfl | rfl | rfl <;>
    exact toyUpdate_checked (by decide +kernel) (by decide +kernel) (by decide +kernel)

end ButCore.Evo
