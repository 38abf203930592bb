import ButCore.Evo.Registry

/-!
# The list after a block

`BuildNewListFromBlock` starts from the parent's list, confirms and forgives smartnodes, applies the
special transactions in block order, drops smartnodes whose collateral is spent and marks the payee.
-/
namespace ButCore.Evo

open Checked CDeterministicMNList

section

variable (env : Env)

def nextHeight : ℤ := env.prevHeight + 1

def confirmMN (newList : CDeterministicMNList) (dmn : CDeterministicMN) :
    Except Fault CDeterministicMNList :=
  if dmn.pdmnState.confirmedHash ≠ 0 then pure newList
  else if env.prevHeight - dmn.pdmnState.nRegisteredHeight ≥ env.nSmartnodeMinimumConfirmations then
    newList.updateMN dmn.proTxHash
      (dmn.pdmnState.updateConfirmedHash env dmn.proTxHash env.prevBlockHash)
  else pure newList

def toDecrease (list : CDeterministicMNList) : List Uint256 :=
  ((list.validMNs env).filter fun dmn =>
    decide (dmn.pdmnState.nPoSePenalty > 0) && decide (dmn.pdmnState.nPoSeBanHeight = -1)).map
    CDeterministicMN.proTxHash

def decreasePoSePenalties (list : CDeterministicMNList) : Except Fault CDeterministicMNList :=
  (toDecrease env list).foldlM poSeDecrease list

def isDecrease : Bool :=
  if env.spork21Active then decide (nextHeight env % 30 = 0) else decide (nextHeight env % 2 = 0)

def registeredMN (list : CDeterministicMNList) (tx : CTransaction) (proTx : CProRegTx) :
    CDeterministicMN where
  proTxHash := tx.hash
  internalId := list.nTotalRegisteredCount.toNat
  collateralOutpoint := collateralOf tx proTx
  nOperatorReward := proTx.nOperatorReward
  pdmnState := { CDeterministicMNState.ofProRegTx proTx with
    nRegisteredHeight := nextHeight env
    nPoSeBanHeight := if proTx.addr = CService.null then nextHeight env else -1 }

def badCollateral (proTx : CProRegTx) : Bool :=
  match env.getUTXOCoin proTx.collateralOutpoint with
  | none => true
  | some coin => !env.isValidCollateral coin.nValue

def replaceByCollateral (list : CDeterministicMNList) (outpoint : COutPoint) :
    Except Fault CDeterministicMNList :=
  match list.getMNByCollateral outpoint with
  | none => pure list
  | some replacedDmn => list.removeMN replacedDmn.proTxHash

def countRegistration (list : CDeterministicMNList) : CDeterministicMNList :=
  { list with nTotalRegisteredCount := list.nTotalRegisteredCount + 1 }

def addRegistered (list : CDeterministicMNList) (proTx : CProRegTx) (dmn : CDeterministicMN) :
    Except Fault CDeterministicMNList := do
  rejectIf (list.hasUniqueProperty (.addr proTx.addr) = true) 100 .duplicate "bad-protx-dup-addr"
  rejectIf (list.hasUniqueProperty (.keyIDOwner proTx.keyIDOwner) = true ∨
    list.hasUniqueProperty (.pubKeyOperator proTx.pubKeyOperator) = true) 100 .duplicate
    "bad-protx-dup-key"
  list.addMN dmn

def applyProRegTx (list : CDeterministicMNList) (tx : CTransaction) :
    Except Fault CDeterministicMNList := do
  let proTx ← deref tx.proRegPayload .payload
  let dmn := registeredMN env list tx proTx
  rejectIf (proTx.collateralOutpoint.hash ≠ 0 ∧ badCollateral env proTx = true) 100 .invalid
    "bad-protx-collateral"
  let list ← replaceByCollateral (countRegistration list) dmn.collateralOutpoint
  addRegistered list proTx dmn

def servicedState (st : CDeterministicMNState) (proTx : CProUpServTx) : CDeterministicMNState :=
  let st := { st with addr := proTx.addr, scriptOperatorPayout := proTx.scriptOperatorPayout }
  if st.nPoSeBanHeight ≠ -1 ∧ st.pubKeyOperator.isSome ∧ st.keyIDVoting ≠ 0 ∧ st.keyIDOwner ≠ 0 then
    { st with nPoSePenalty := 0, nPoSeBanHeight := -1, nPoSeRevivedHeight := nextHeight env }
  else st

def applyProUpServTx (list : CDeterministicMNList) (tx : CTransaction) :
    Except Fault CDeterministicMNList := do
  let proTx ← deref tx.proUpServPayload .payload
  rejectHolder list (.addr proTx.addr) (fun dmn => dmn.proTxHash != proTx.proTxHash) 100
    "bad-protx-dup-addr"
  let dmn ← rejectMissing (list.getMN proTx.proTxHash) 100 "bad-protx-hash"
  list.updateMN proTx.proTxHash (servicedState env dmn.pdmnState proTx)

def registrarState (st : CDeterministicMNState) (proTx : CProUpRegTx) : CDeterministicMNState :=
  let st := if st.pubKeyOperator ≠ proTx.pubKeyOperator then
    st.resetOperatorFields.banIfNotBanned (nextHeight env) else st
  { st with pubKeyOperator := proTx.pubKeyOperator, keyIDVoting := proTx.keyIDVoting,
            scriptPayout := proTx.scriptPayout }

/-- Unlike the other two, this update does not look for the key in the new list. -/
def applyProUpRegTx (list : CDeterministicMNList) (tx : CTransaction) :
    Except Fault CDeterministicMNList := do
  let proTx ← deref tx.proUpRegPayload .payload
  let dmn ← rejectMissing (list.getMN proTx.proTxHash) 100 "bad-protx-hash"
  list.updateMN proTx.proTxHash (registrarState env dmn.pdmnState proTx)

def revokedState (st : CDeterministicMNState) (proTx : CProUpRevTx) : CDeterministicMNState :=
  { st.resetOperatorFields.banIfNotBanned (nextHeight env) with nRevocationReason := proTx.nReason }

def applyProUpRevTx (list : CDeterministicMNList) (tx : CTransaction) :
    Except Fault CDeterministicMNList := do
  let proTx ← deref tx.proUpRevPayload .payload
  let dmn ← rejectMissing (list.getMN proTx.proTxHash) 100 "bad-protx-hash"
  list.updateMN proTx.proTxHash (revokedState env dmn.pdmnState proTx)

def punishMember (qc : CFinalCommitment) (list : CDeterministicMNList) (member : Uint256 × ℕ) :
    Except Fault CDeterministicMNList :=
  if list.hasMN member.1 = false then pure list
  else if readBit env qc.validMembers member.2 = false then do
    let penalty ← list.calcPenalty 66
    list.poSePunish member.1 penalty
  else pure list

def handleQuorumCommitment (qc : CFinalCommitment) (list : CDeterministicMNList) :
    Except Fault CDeterministicMNList :=
  (env.getAllQuorumMembers qc.llmqType qc.quorumHash).zipIdx.foldlM (punishMember env qc) list

def applyQuorumCommitment (list : CDeterministicMNList) (tx : CTransaction) :
    Except Fault CDeterministicMNList := do
  let qc ← deref tx.finalCommitmentPayload .payload
  if isNullCommitment qc.commitment = true then pure list
  else
    let params ← deref (env.llmqs qc.commitment.llmqType) .llmqs
    let quorumHeight := qc.nHeight - qc.nHeight % params.dkgInterval
    rejectIf (env.getAncestor quorumHeight ≠ some qc.commitment.quorumHash) 100 .invalid
      "bad-qc-quorum-hash"
    handleQuorumCommitment env qc.commitment list

def applyTx (list : CDeterministicMNList) (tx : CTransaction) : Except Fault CDeterministicMNList :=
  if tx.nVersion ≠ 3 then pure list
  else
    match tx.nType with
    | .providerRegister => applyProRegTx env list tx
    | .providerUpdateService => applyProUpServTx env list tx
    | .providerUpdateRegistrar => applyProUpRegTx env list tx
    | .providerUpdateRevoke => applyProUpRevTx env list tx
    | .quorumCommitment => applyQuorumCommitment env list tx
    | _ => pure list

def isRegistration (tx : CTransaction) : Bool :=
  decide (tx.nVersion = 3) && decide (tx.nType = .providerRegister)

def removeSpentBy (list : CDeterministicMNList) (prevout : COutPoint) :
    Except Fault CDeterministicMNList :=
  match list.getMNByCollateral prevout with
  | none => pure list
  | some dmn =>
    if dmn.collateralOutpoint = prevout then list.removeMN dmn.proTxHash else pure list

def spentBy (vtx : List CTransaction) : List COutPoint :=
  (vtx.drop 1).flatMap fun tx => tx.vin.map CTxIn.prevout

def markPayee (payee : Option CDeterministicMN) (list : CDeterministicMNList) :
    Except Fault CDeterministicMNList :=
  match payee.bind fun dmn => list.getMN dmn.proTxHash with
  | none => pure list
  | some dmn =>
    list.updateMN dmn.proTxHash { dmn.pdmnState with nLastPaidHeight := nextHeight env }

def startList (oldList : CDeterministicMNList) : CDeterministicMNList :=
  { oldList with blockHash := 0, nHeight := nextHeight env }

def prepareList (oldList : CDeterministicMNList) : Except Fault CDeterministicMNList := do
  let newList ← oldList.allMNs.foldlM (confirmMN env) (startList env oldList)
  if isDecrease env = true then decreasePoSePenalties env newList else pure newList

def buildNewListFromBlock (oldList : CDeterministicMNList) (vtx : List CTransaction) :
    Except Fault CDeterministicMNList := do
  let newList ← prepareList env oldList
  let newList ← (vtx.drop 1).foldlM (applyTx env) newList
  let newList ← (spentBy vtx).foldlM removeSpentBy newList
  markPayee env (oldList.getMNPayee env) newList

end

section

variable {ownerOf : Uint256 → CKeyID} {list list' oldList : CDeterministicMNList}

def Neutral (ownerOf : Uint256 → CKeyID) (list list' : CDeterministicMNList) : Prop :=
  list'.UniqueInvariant ownerOf ∧ Keeps list list'

theorem confirmMN_neutral (env : Env) (neutral : Neutral ownerOf oldList list) {dmn : CDeterministicMN}
    (hmem : oldList.getMN dmn.proTxHash = some dmn) :
    ∃ list', confirmMN env list dmn = .ok list' ∧ Neutral ownerOf oldList list' := by
  obtain ⟨inv, keeps⟩ := neutral
  unfold confirmMN
  by_cases hconf : dmn.pdmnState.confirmedHash ≠ 0
  · rw [if_pos hconf]
    exact ⟨list, rfl, inv, keeps⟩
  · rw [if_neg hconf]
    by_cases hdepth : env.prevHeight - dmn.pdmnState.nRegisteredHeight ≥
        env.nSmartnodeMinimumConfirmations
    · rw [if_pos hdepth]
      obtain ⟨dmn', get, hcore⟩ := keeps.getMN hmem
      simp only [core, Prod.mk.injEq] at hcore
      obtain ⟨-, -, -, -, haddr, howner, hkey⟩ := hcore
      obtain ⟨list', hok, hinv, hkeeps, -⟩ := inv.updateMN_keeps get
        (dmn.pdmnState.updateConfirmedHash env dmn.proTxHash env.prevBlockHash)
        haddr.symm howner.symm hkey.symm
      exact ⟨list', hok, hinv, keeps.trans hkeeps⟩
    · rw [if_neg hdepth]
      exact ⟨list, rfl, inv, keeps⟩

theorem decreasePoSePenalties_neutral (env : Env) (inv : list.UniqueInvariant ownerOf) :
    ∃ list', decreasePoSePenalties env list = .ok list' ∧ Neutral ownerOf list list' := by
  have nodup : (toDecrease env list).Nodup := by
    refine List.Nodup.sublist ?_ (nodup_allMNs inv)
    exact (List.filter_sublist.trans List.filter_sublist).map _
  -- each hash occurs once, so its entry is still the one that the filter saw
  obtain ⟨list', hok, hinv, hkeeps, -⟩ := foldlM_total poSeDecrease
    (fun done t => t.UniqueInvariant ownerOf ∧ Keeps list t ∧ ∀ h ∉ done, t.getMN h = list.getMN h)
    (toDecrease env list) ⟨inv, Keeps.refl list, fun _ _ => rfl⟩ (by
      rintro done h rest t hl ⟨tinv, tkeeps, tsame⟩
      have hnot : h ∉ done := by
        rw [hl] at nodup
        intro hmem
        exact (List.nodup_append.mp nodup).2.2 h hmem h (by simp) rfl
      have hmem : h ∈ toDecrease env list := by rw [hl]; simp
      obtain ⟨dmn, hdmn, rfl⟩ := List.mem_map.mp hmem
      obtain ⟨hvalid, hpen⟩ := List.mem_filter.mp hdmn
      have get := (mem_allMNs inv).mp (List.mem_of_mem_filter hvalid)
      rw [← tsame _ hnot] at get
      obtain ⟨t', hok, hinv, hkeeps, hframe⟩ := tinv.updateMN_keeps get
        { dmn.pdmnState with nPoSePenalty := dmn.pdmnState.nPoSePenalty - 1 } rfl rfl rfl
      refine ⟨t', ?_, hinv, tkeeps.trans hkeeps, ?_⟩
      · refine bind_eq_ok.mpr ⟨dmn, by simp [get], bind_eq_ok.mpr ⟨(), ?_, hok⟩⟩
        simpa using hpen
      · intro k hk
        simp only [List.mem_append, List.mem_singleton, not_or] at hk
        rw [hframe k hk.2, tsame k hk.1])
  exact ⟨list', hok, hinv, hkeeps⟩

theorem prepareList_neutral (env : Env) (inv : oldList.UniqueInvariant ownerOf) :
    ∃ list, prepareList env oldList = .ok list ∧ Neutral ownerOf oldList list := by
  have start : Neutral ownerOf oldList (startList env oldList) :=
    ⟨⟨inv.hash, inv.held, inv.collateral_ne, inv.owner_ne, inv.owner⟩, fun _ => rfl, rfl, rfl⟩
  obtain ⟨list, hconfirm, hneutral⟩ := foldlM_total (confirmMN env)
    (fun _ t => Neutral ownerOf oldList t) oldList.allMNs start (by
      intro done dmn rest t hl ht
      exact confirmMN_neutral env ht ((mem_allMNs inv).mp (by rw [hl]; simp)))
  by_cases hdec : isDecrease env = true
  · obtain ⟨list', hok, hinv, hkeeps⟩ := decreasePoSePenalties_neutral env hneutral.1
    exact ⟨list', bind_eq_ok.mpr ⟨list, hconfirm, by rw [if_pos hdec, hok]⟩, hinv,
      hneutral.2.trans hkeeps⟩
  · exact ⟨list, bind_eq_ok.mpr ⟨list, hconfirm, by rw [if_neg hdec]; rfl⟩, hneutral⟩

theorem calcPenalty_pos (list : CDeterministicMNList) :
    ∃ penalty, list.calcPenalty 66 = .ok penalty ∧ 0 < penalty := by
  refine ⟨_, bind_eq_ok.mpr ⟨(), by simp, rfl⟩, ?_⟩
  have hmax : (100 : ℤ) ≤ list.calcMaxPoSePenalty := le_max_left _ _
  rw [Int.tdiv_eq_ediv_of_nonneg (by omega)]
  omega

theorem punishMember_neutral (env : Env) (qc : CFinalCommitment)
    (inv : list.UniqueInvariant ownerOf) (member : Uint256 × ℕ) :
    ∃ list', punishMember env qc list member = .ok list' ∧ Neutral ownerOf list list' := by
  unfold punishMember
  cases get : list.getMN member.1 with
  | none =>
    rw [if_pos (by simp [hasMN, get])]
    exact ⟨list, rfl, inv, Keeps.refl list⟩
  | some dmn =>
    rw [if_neg (by simp [hasMN, get])]
    by_cases hbit : readBit env qc.validMembers member.2 = false
    · rw [if_pos hbit]
      obtain ⟨penalty, hpen, hpos⟩ := calcPenalty_pos list
      obtain ⟨list', hok, hinv, hkeeps, -⟩ := inv.updateMN_keeps get
        (list.punishedState dmn.pdmnState penalty) rfl rfl rfl
      exact ⟨list', bind_eq_ok.mpr ⟨penalty, hpen, bind_eq_ok.mpr ⟨(), by simpa using hpos,
        bind_eq_ok.mpr ⟨dmn, by simp [get], hok⟩⟩⟩, hinv, hkeeps⟩
    · rw [if_neg hbit]
      exact ⟨list, rfl, inv, Keeps.refl list⟩

theorem handleQuorumCommitment_neutral (env : Env) (qc : CFinalCommitment)
    (inv : list.UniqueInvariant ownerOf) :
    ∃ list', handleQuorumCommitment env qc list = .ok list' ∧ Neutral ownerOf list list' :=
  foldlM_total (punishMember env qc) (fun _ t => Neutral ownerOf list t) _ ⟨inv, Keeps.refl list⟩ (by
    intro done member rest t _ ht
    obtain ⟨t', hok, hinv, hkeeps⟩ := punishMember_neutral env qc ht.1 member
    exact ⟨t', hok, hinv, ht.2.trans hkeeps⟩)

theorem markPayee_neutral (env : Env) (payee : Option CDeterministicMN)
    (inv : list.UniqueInvariant ownerOf) :
    ∃ list', markPayee env payee list = .ok list' ∧ Neutral ownerOf list list' := by
  unfold markPayee
  cases hpayee : payee.bind fun dmn => list.getMN dmn.proTxHash with
  | none => exact ⟨list, rfl, inv, Keeps.refl list⟩
  | some dmn =>
    obtain ⟨dmn', -, get⟩ := Option.bind_eq_some_iff.mp hpayee
    obtain ⟨list', hok, hinv, hkeeps, -⟩ := inv.updateMN_keeps (inv.hash get ▸ get)
      { dmn.pdmnState with nLastPaidHeight := nextHeight env } rfl rfl rfl
    exact ⟨list', hok, hinv, hkeeps⟩

end

end ButCore.Evo
