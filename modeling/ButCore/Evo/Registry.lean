import ButCore.Evo.SpecialTx

/-!
# The registry that the list implements

Registered smartnodes with the four properties that are to stay unique.
-/
namespace ButCore.Evo

structure Entry where
  collateral : COutPoint
  addr : CService
  owner : CKeyID
  operator : CBLSPublicKey

/-- Null addresses and operator keys belong to nobody. -/
def Entry.Has (e : Entry) : UniqueProperty → Prop
  | .collateral o => o = e.collateral
  | .addr a => a ≠ CService.null ∧ a = e.addr
  | .keyIDOwner k => k = e.owner
  | .pubKeyOperator k => k ≠ none ∧ k = e.operator

inductive Action where
  | register (proTxHash : Uint256) (e : Entry)
  | updateService (proTxHash : Uint256) (addr : CService)
  | updateRegistrar (proTxHash : Uint256) (operator : CBLSPublicKey)
  | revoke (proTxHash : Uint256)
  /-- a quorum commitment, and whether it names the block at its quorum height -/
  | commitment (rightBlock : Prop)
  | nothing

abbrev Registry := Uint256 → Option Entry

namespace Registry

def Taken (R : Registry) (q : UniqueProperty) : Prop := ∃ h e, R h = some e ∧ e.Has q

def TakenByOther (R : Registry) (h : Uint256) (q : UniqueProperty) : Prop :=
  ∃ k e, k ≠ h ∧ R k = some e ∧ e.Has q

def dropCollateral (R : Registry) (c : COutPoint) : Registry :=
  fun h => (R h).filter fun e => decide (e.collateral ≠ c)

def Accepts (R : Registry) : Action → Prop
  | .register _ e => ∀ q, e.Has q → ¬ (R.dropCollateral e.collateral).Taken q
  | .updateService h addr => (R h).isSome ∧ ¬ R.TakenByOther h (.addr addr)
  | .updateRegistrar h key => (R h).isSome ∧ ¬ R.TakenByOther h (.pubKeyOperator key)
  | .revoke h => (R h).isSome
  | .commitment rightBlock => rightBlock
  | .nothing => True

/-- A new operator key takes the address away until the next service update. -/
def Entry.setOperator (e : Entry) (key : CBLSPublicKey) : Entry :=
  if e.operator = key then e else { e with addr := CService.null, operator := key }

def after (R : Registry) : Action → Registry
  | .register h e => Function.update (R.dropCollateral e.collateral) h (some e)
  | .updateService h addr => Function.update R h ((R h).map fun e => { e with addr := addr })
  | .updateRegistrar h key => Function.update R h ((R h).map fun e => Entry.setOperator e key)
  | .revoke h =>
    Function.update R h ((R h).map fun e => { e with addr := CService.null, operator := none })
  | .commitment _ => R
  | .nothing => R

def Run (R : Registry) : List Action → Registry → Prop
  | [], R' => R' = R
  | a :: as, R' => R.Accepts a ∧ (R.after a).Run as R'

/-- A registrar update that would give its smartnode the operator key of another one. -/
def Clash (R : Registry) : Action → Prop
  | .updateRegistrar h key => (R h).isSome ∧ R.TakenByOther h (.pubKeyOperator key)
  | _ => False

/-- No registrar update that is reached meets its operator key at another smartnode. -/
def NoClash (R : Registry) (as : List Action) : Prop :=
  ∀ done a rest R', as = done ++ a :: rest → R.Run done R' → ¬ R'.Clash a

theorem Taken.addr_ne {R : Registry} {a : CService} (taken : R.Taken (.addr a)) :
    a ≠ CService.null := by
  obtain ⟨_, _, -, hne, -⟩ := taken
  exact hne

theorem Taken.operator_ne {R : Registry} {k : CBLSPublicKey} (taken : R.Taken (.pubKeyOperator k)) :
    k ≠ none := by
  obtain ⟨_, _, -, hne, -⟩ := taken
  exact hne

theorem not_accepts_of_clash {R : Registry} {a : Action} (clash : R.Clash a) : ¬ R.Accepts a := by
  cases a with
  | updateRegistrar h key => exact fun accepts => accepts.2 clash.2
  | _ => exact absurd clash id

end Registry

def newEntry (tx : CTransaction) (ptx : CProRegTx) : Entry :=
  ⟨collateralOf tx ptx, ptx.addr, ptx.keyIDOwner, ptx.pubKeyOperator⟩

def RightBlock (env : Env) (qc : CFinalCommitmentTxPayload) : Prop :=
  isNullCommitment qc.commitment = true ∨ ∃ params,
    env.llmqs qc.commitment.llmqType = some params ∧
    env.getAncestor (qc.nHeight - qc.nHeight % params.dkgInterval : ℕ) =
      some qc.commitment.quorumHash

def actionOf (env : Env) (tx : CTransaction) : Action :=
  if tx.nVersion ≠ 3 then .nothing
  else
    match tx.nType, tx.extraPayload with
    | .providerRegister, .proRegTx ptx => .register tx.hash (newEntry tx ptx)
    | .providerUpdateService, .proUpServTx ptx => .updateService ptx.proTxHash ptx.addr
    | .providerUpdateRegistrar, .proUpRegTx ptx => .updateRegistrar ptx.proTxHash ptx.pubKeyOperator
    | .providerUpdateRevoke, .proUpRevTx ptx => .revoke ptx.proTxHash
    | .quorumCommitment, .finalCommitment qc => .commitment (RightBlock env qc)
    | _, _ => .nothing

def CDeterministicMN.entry (dmn : CDeterministicMN) : Entry :=
  ⟨dmn.collateralOutpoint, dmn.pdmnState.addr, dmn.pdmnState.keyIDOwner,
    dmn.pdmnState.pubKeyOperator⟩

def CDeterministicMNList.registry (list : CDeterministicMNList) : Registry :=
  fun h => (list.getMN h).map CDeterministicMN.entry

theorem entry_has {dmn : CDeterministicMN} {q : UniqueProperty} :
    dmn.entry.Has q ↔ q ∈ dmn.uniqueProperties := by
  cases q <;> simp [Entry.Has, CDeterministicMN.entry]

namespace CDeterministicMNList

variable {list : CDeterministicMNList} {q : UniqueProperty}

theorem taken_registry :
    list.registry.Taken q ↔ ∃ h dmn, list.getMN h = some dmn ∧ q ∈ dmn.uniqueProperties := by
  constructor
  · rintro ⟨h, e, he, hq⟩
    obtain ⟨dmn, get, rfl⟩ := Option.map_eq_some_iff.mp he
    exact ⟨h, dmn, get, entry_has.mp hq⟩
  · rintro ⟨h, dmn, get, hq⟩
    exact ⟨h, dmn.entry, by rw [registry, get]; rfl, entry_has.mpr hq⟩

theorem hasUniqueProperty_iff_taken {ownerOf : Uint256 → CKeyID}
    (inv : list.UniqueInvariant ownerOf) :
    list.hasUniqueProperty q = true ↔ list.registry.Taken q :=
  inv.hasUniqueProperty_iff.trans taken_registry.symm

theorem takenByOther_registry {h : Uint256} :
    list.registry.TakenByOther h q ↔
      ∃ k dmn, k ≠ h ∧ list.getMN k = some dmn ∧ q ∈ dmn.uniqueProperties := by
  constructor
  · rintro ⟨k, e, hk, he, hq⟩
    obtain ⟨dmn, get, rfl⟩ := Option.map_eq_some_iff.mp he
    exact ⟨k, dmn, hk, get, entry_has.mp hq⟩
  · rintro ⟨k, dmn, hk, get, hq⟩
    exact ⟨k, dmn.entry, hk, by rw [registry, get]; rfl, entry_has.mpr hq⟩

end CDeterministicMNList

end ButCore.Evo
