import ButCore.Evo.BuildSafety
import ButCore.Evo.ListDiff

/-!
# Replaying the difference of a block

Every registration of a block takes an id from the counter.
-/
namespace ButCore.Evo

open Checked CDeterministicMNList

section

variable {α : Type} {cs : List α} {i : ℕ} {c c' : α}

def LastAt (cs : List α) (i : ℕ) (c : α) : Prop := cs[i]? = some c ∧ c ∉ cs.drop (i + 1)

theorem LastAt.lt (last : LastAt cs i c) : i < cs.length :=
  (List.getElem?_eq_some_iff.mp last.1).1

theorem lastAt_concat :
    LastAt (cs ++ [c']) i c ↔ LastAt cs i c ∧ c ≠ c' ∨ i = cs.length ∧ c = c' := by
  unfold LastAt
  rcases Nat.lt_trichotomy i cs.length with hlt | rfl | hgt
  · rw [List.getElem?_append_left hlt, List.drop_append_of_le_length hlt, List.mem_append,
      List.mem_singleton, not_or]
    have hne : i ≠ cs.length := hlt.ne
    simp only [hne, false_and, or_false, and_assoc]
  · simp [eq_comm]
  · have hne : i ≠ cs.length := hgt.ne'
    rw [List.getElem?_eq_none (by simp; omega), List.getElem?_eq_none (by omega)]
    simp [hne]

theorem nodup_iff_lastAt : cs.Nodup ↔ ∀ i c, cs[i]? = some c → LastAt cs i c := by
  constructor
  · intro nodup i c hi
    refine ⟨hi, fun hmem => ?_⟩
    obtain ⟨hlt, rfl⟩ := List.getElem?_eq_some_iff.mp hi
    obtain ⟨j, hj, heq⟩ := List.getElem_of_mem hmem
    rw [List.getElem_drop] at heq
    have hij := (List.Nodup.getElem_inj_iff nodup).mp heq
    omega
  · intro hlast
    rw [List.nodup_iff_getElem?_ne_getElem?]
    intro i j hij hj heq
    have hi : cs[i]? = some cs[j] := by rw [heq, List.getElem?_eq_getElem hj]
    refine (hlast i _ hi).2 ?_
    rw [List.mem_iff_getElem?]
    exact ⟨j - (i + 1), by rw [List.getElem?_drop, show i + 1 + (j - (i + 1)) = j by omega,
      List.getElem?_eq_getElem hj]⟩

end

def registeredCollateral (tx : CTransaction) : Option COutPoint :=
  if isRegistration tx = true then tx.proRegPayload.map (collateralOf tx) else none

def registeredCollaterals (txs : List CTransaction) : List COutPoint :=
  txs.filterMap registeredCollateral

structure WellNumbered (list : CDeterministicMNList) : Prop where
  ids : list.IdInvariant
  bound : ∀ {h a}, list.getMN h = some a → a.internalId < list.nTotalRegisteredCount.toNat

/-- What block processing has done to the parent's list `L`, when the block has registered the
collaterals `cs` so far and then spent the outpoints `spent`. -/
structure Progress (ownerOf : Uint256 → CKeyID) (L : CDeterministicMNList) (cs spent : List COutPoint)
    (C : CDeterministicMNList) : Prop where
  unique : C.UniqueInvariant ownerOf
  count : C.nTotalRegisteredCount = L.nTotalRegisteredCount + BitVec.ofNat 32 cs.length
  kept : ∀ {h a b}, L.getMN h = some a → C.getMN h = some b → b = { a with pdmnState := b.pdmnState }
  holder : ∀ {h b q k a}, C.getMN h = some b → q ∈ b.uniqueProperties → L.getMN k = some a →
    q ∈ a.uniqueProperties → k = h ∨ C.getMN k = none
  added : ∀ {h b}, L.getMN h = none → C.getMN h = some b →
    ∃ i, LastAt cs i b.collateralOutpoint ∧ b.collateralOutpoint ∉ spent ∧
      b.internalId = (L.nTotalRegisteredCount.toNat + i) % 2 ^ 32
  live : ∀ {i c}, LastAt cs i c → c ∉ spent → ∃ h b, L.getMN h = none ∧ C.getMN h = some b ∧
    b.collateralOutpoint = c ∧ b.internalId = (L.nTotalRegisteredCount.toNat + i) % 2 ^ 32
  ids : WellNumbered L → L.nTotalRegisteredCount.toNat + cs.length ≤ 2 ^ 32 → C.IdInvariant

variable {c : COutPoint}

section

variable {env : Env} {ownerOf : Uint256 → CKeyID} {L C C' : CDeterministicMNList}
variable {cs spent : List COutPoint} {tx : CTransaction}
variable {b : CDeterministicMN}

theorem kept_of_core {a : CDeterministicMN} (hcore : core b = core a) :
    b = { a with pdmnState := b.pdmnState } ∧ b.uniqueProperties = a.uniqueProperties := by
  simp only [core, Prod.mk.injEq] at hcore
  obtain ⟨hhash, hid, hcoll, hreward, haddr, howner, hkey⟩ := hcore
  constructor
  · cases b
    simp_all
  · simp only [CDeterministicMN.uniqueProperties, hcoll, haddr, howner, hkey]

variable {list' list : CDeterministicMNList} {k : Uint256}

theorem Keeps.getMN_back (keeps : Keeps list list') (get : list'.getMN k = some b) :
    ∃ a, list.getMN k = some a ∧ core b = core a := by
  have hcore := keeps.core k
  rw [get] at hcore
  obtain ⟨a, getA, heq⟩ := Option.map_eq_some_iff.mp hcore.symm
  exact ⟨a, getA, heq.symm⟩

theorem Keeps.getMN_none (keeps : Keeps list list') (get : list.getMN k = none) : list'.getMN k = none := by
  have hcore := keeps.core k
  rwa [get, Option.map_none, Option.map_eq_none_iff] at hcore

theorem progress_start (old : L.UniqueInvariant ownerOf) (unique : C.UniqueInvariant ownerOf)
    (keeps : Keeps L C) : Progress ownerOf L [] [] C := by
  refine ⟨unique, by simp [keeps.count], ?_, ?_, ?_, ?_, fun wn _ => wn.ids.keeps keeps⟩
  · intro h a b getL getC
    obtain ⟨a', getL', hcore⟩ := Keeps.getMN_back keeps getC
    cases getL.symm.trans getL'
    exact (kept_of_core hcore).1
  · intro h b q k a getC hq getL hq'
    obtain ⟨a', getL', hcore⟩ := Keeps.getMN_back keeps getC
    rw [(kept_of_core hcore).2] at hq
    exact Or.inl (old.holder_unique getL hq' getL' hq)
  · intro h b getL getC
    rw [Keeps.getMN_none keeps getL] at getC
    cases getC
  · intro i c last
    simp [LastAt] at last

namespace Progress

variable (progress : Progress ownerOf L cs spent C)

include progress

theorem id_lt (wn : WellNumbered L) (hbound : L.nTotalRegisteredCount.toNat + cs.length ≤ 2 ^ 32)
    {h : Uint256} (get : C.getMN h = some b) :
    b.internalId < L.nTotalRegisteredCount.toNat + cs.length := by
  cases getL : L.getMN h with
  | none =>
    obtain ⟨i, last, -, hid⟩ := progress.added getL get
    have hi := last.lt
    rw [hid, Nat.mod_eq_of_lt (by omega)]
    omega
  | some a =>
    have hlt := wn.bound getL
    rw [progress.kept getL get]
    exact Nat.lt_add_right _ hlt

theorem neutral (unique : C'.UniqueInvariant ownerOf) (keeps : Keeps C C') :
    Progress ownerOf L cs spent C' := by
  refine ⟨unique, keeps.count.trans progress.count, ?_, ?_, ?_, ?_,
    fun wn hbound => (progress.ids wn hbound).keeps keeps⟩
  · intro h a b getL getC'
    obtain ⟨b', getC, hcore⟩ := Keeps.getMN_back keeps getC'
    have hb := (kept_of_core hcore).1
    rw [progress.kept getL getC] at hb
    exact hb
  · intro h b q k a getC' hq getL hq'
    obtain ⟨b', getC, hcore⟩ := Keeps.getMN_back keeps getC'
    rw [(kept_of_core hcore).2] at hq
    exact (progress.holder getC hq getL hq').imp_right (Keeps.getMN_none keeps)
  · intro h b getL getC'
    obtain ⟨b', getC, hcore⟩ := Keeps.getMN_back keeps getC'
    obtain ⟨i, last, hspent, hid⟩ := progress.added getL getC
    refine ⟨i, ?_⟩
    rw [(kept_of_core hcore).1]
    exact ⟨last, hspent, hid⟩
  · intro i c last hspent
    obtain ⟨h, b, getL, getC, hcoll, hid⟩ := progress.live last hspent
    obtain ⟨b', getC', hcore⟩ := keeps.getMN getC
    refine ⟨h, b', getL, getC', ?_⟩
    rw [(kept_of_core hcore).1]
    exact ⟨hcoll, hid⟩

theorem dropped (unique : C'.UniqueInvariant ownerOf) (drop : Dropped C c C') :
    Progress ownerOf L cs (spent ++ [c]) C' := by
  refine ⟨unique, drop.count.trans progress.count, ?_, ?_, ?_, ?_,
    fun wn hbound => drop.ids (progress.ids wn hbound)⟩
  · intro h a b getL getC'
    exact progress.kept getL (drop.mem.mp getC').1
  · intro h b q k a getC' hq getL hq'
    refine (progress.holder (drop.mem.mp getC').1 hq getL hq').imp_right fun hnone => ?_
    rw [drop.getMN, hnone]
    rfl
  · intro h b getL getC'
    obtain ⟨getC, hne⟩ := drop.mem.mp getC'
    obtain ⟨i, last, hspent, hid⟩ := progress.added getL getC
    exact ⟨i, last, by simp [hspent, hne], hid⟩
  · intro i c' last hspent
    rw [List.mem_append, List.mem_singleton, not_or] at hspent
    obtain ⟨h, b, getL, getC, rfl, hid⟩ := progress.live last hspent.1
    exact ⟨h, b, getL, drop.mem.mpr ⟨getC, hspent.2⟩, rfl, hid⟩

theorem updated {h₀ : Uint256} {dmn : CDeterministicMN} {st : CDeterministicMNState}
    (unique : C'.UniqueInvariant ownerOf) (get : C.getMN h₀ = some dmn)
    (member : ∃ dmn₀, L.getMN h₀ = some dmn₀)
    (owner : st.keyIDOwner = dmn.pdmnState.keyIDOwner)
    (addr : st.addr = dmn.pdmnState.addr ∨ ∀ k dmn₀, L.getMN k = some dmn₀ →
      .addr st.addr ∈ dmn₀.uniqueProperties → k = h₀)
    (operator : st.pubKeyOperator = dmn.pdmnState.pubKeyOperator ∨
      ∀ k dmn₀, L.getMN k = some dmn₀ →
        .pubKeyOperator st.pubKeyOperator ∈ dmn₀.uniqueProperties → k = h₀)
    (set : Updated C h₀ dmn st C') : Progress ownerOf L cs spent C' := by
  obtain ⟨dmn₀, member⟩ := member
  have other : ∀ {k}, k ≠ h₀ → C'.getMN k = C.getMN k := fun hk => (set.getMN _).trans (if_neg hk)
  have self : C'.getMN h₀ = some { dmn with pdmnState := st } := (set.getMN h₀).trans (if_pos rfl)
  have absent : ∀ {k}, C.getMN k = none → C'.getMN k = none := by
    intro k hnone
    have hk : k ≠ h₀ := by
      rintro rfl
      rw [get] at hnone
      cases hnone
    rw [other hk, hnone]
  have notOld : ∀ {k}, L.getMN k = none → k ≠ h₀ := by
    rintro k hnone rfl
    rw [member] at hnone
    cases hnone
  refine ⟨unique, set.count.trans progress.count, ?_, ?_, ?_, ?_,
    fun wn hbound => (progress.ids wn hbound).update get set⟩
  · intro h a b getL getC'
    by_cases hh : h = h₀
    · subst hh
      cases self.symm.trans getC'
      rw [progress.kept getL get]
    · exact progress.kept getL (other hh ▸ getC')
  · intro h b q k a getC' hq getL hq'
    by_cases hh : h = h₀
    · subst hh
      cases self.symm.trans getC'
      -- a property that the update keeps has its holder by the invariant, a new one by the check
      have old (hmem : q ∈ dmn.uniqueProperties) : k = h ∨ C'.getMN k = none :=
        (progress.holder get hmem getL hq').imp_right absent
      cases q with
      | collateral o => exact old (by simpa using hq)
      | addr x =>
        obtain ⟨hne, rfl⟩ := addr_mem.mp hq
        rcases addr with hkeep | hcheck
        · exact old (addr_mem.mpr ⟨hne, hkeep⟩)
        · exact Or.inl (hcheck k a getL hq')
      | keyIDOwner x => exact old (by simpa [owner] using hq)
      | pubKeyOperator x =>
        obtain ⟨hne, rfl⟩ := pubKeyOperator_mem.mp hq
        rcases operator with hkeep | hcheck
        · exact old (pubKeyOperator_mem.mpr ⟨hne, hkeep⟩)
        · exact Or.inl (hcheck k a getL hq')
    · exact (progress.holder (other hh ▸ getC') hq getL hq').imp_right absent
  · intro h b getL getC'
    exact progress.added getL (other (notOld getL) ▸ getC')
  · intro i c last hspent
    obtain ⟨h, b, getL, getC, hcoll, hid⟩ := progress.live last hspent
    exact ⟨h, b, getL, (other (notOld getL)).trans getC, hcoll, hid⟩

end Progress

theorem Progress.registered (progress : Progress ownerOf L cs [] C) {ptx : CProRegTx}
    (old : L.UniqueInvariant ownerOf) (unique : C'.UniqueInvariant ownerOf)
    (passed : ProRegTxPassed env L tx ptx) (howner : ptx.keyIDOwner = ownerOf tx.hash)
    (reg : Registered env C tx ptx C') :
    Progress ownerOf L (cs ++ [collateralOf tx ptx]) [] C' := by
  have newHash : L.getMN tx.hash = none := by
    by_contra hsome
    obtain ⟨dmn, get⟩ := Option.ne_none_iff_exists'.mp hsome
    exact passed.owner_free _ dmn get (keyIDOwner_mem.mpr (howner.trans (old.owner get).symm))
  have self : C'.getMN tx.hash = some (registeredMN env C tx ptx) := (reg.getMN _).trans (if_pos rfl)
  have other : ∀ {k b}, k ≠ tx.hash → (C'.getMN k = some b ↔
      C.getMN k = some b ∧ b.collateralOutpoint ≠ collateralOf tx ptx) := by
    intro k b hk
    rw [reg.getMN, if_neg hk, Option.filter_eq_some_iff, decide_eq_true_eq]
  have oldHash : ∀ {k a}, L.getMN k = some a → k ≠ tx.hash := by
    rintro k a get rfl
    rw [newHash] at get
    cases get
  have absent : ∀ {k a}, L.getMN k = some a → C.getMN k = none → C'.getMN k = none := by
    intro k a getL hnone
    rw [reg.getMN, if_neg (oldHash getL), hnone]
    rfl
  -- the smartnode that had the collateral in the parent's list is gone after the registration
  have gone : ∀ {k a}, L.getMN k = some a → a.collateralOutpoint = collateralOf tx ptx →
      C'.getMN k = none := by
    intro k a getL hcoll
    by_contra hsome
    obtain ⟨b, getC'⟩ := Option.ne_none_iff_exists'.mp hsome
    obtain ⟨getC, hne⟩ := (other (oldHash getL)).mp getC'
    rw [progress.kept getL getC] at hne
    exact hne hcoll
  have hcount : C.nTotalRegisteredCount.toNat =
      (L.nTotalRegisteredCount.toNat + cs.length) % 2 ^ 32 := by
    rw [progress.count, BitVec.toNat_add, BitVec.toNat_ofNat, Nat.add_mod_mod]
  refine ⟨unique, ?_, ?_, ?_, ?_, ?_, ?_⟩
  · rw [reg.count, progress.count, List.length_append, List.length_singleton, BitVec.add_assoc,
      BitVec.ofNat_add]
    rfl
  · intro h a b getL getC'
    exact progress.kept getL ((other (oldHash getL)).mp getC').1
  · intro h b q k a getC' hq getL hq'
    by_cases hh : h = tx.hash
    · subst hh
      cases self.symm.trans getC'
      right
      cases q with
      | collateral o =>
        exact gone getL ((collateral_mem.mp hq').symm.trans (collateral_mem.mp hq))
      | addr x =>
        obtain ⟨-, rfl⟩ := addr_mem.mp hq
        exact gone getL (passed.addr k a getL hq')
      | keyIDOwner x =>
        obtain rfl := keyIDOwner_mem.mp hq
        exact absurd hq' (passed.owner_free k a getL)
      | pubKeyOperator x =>
        obtain ⟨-, rfl⟩ := pubKeyOperator_mem.mp hq
        exact absurd hq' (passed.operator_free k a getL)
    · exact (progress.holder ((other hh).mp getC').1 hq getL hq').imp_right (absent getL)
  · intro h b getL getC'
    by_cases hh : h = tx.hash
    · subst hh
      cases self.symm.trans getC'
      exact ⟨cs.length, lastAt_concat.mpr (Or.inr ⟨rfl, rfl⟩), by simp, hcount⟩
    · obtain ⟨getC, hne⟩ := (other hh).mp getC'
      obtain ⟨i, last, hspent, hid⟩ := progress.added getL getC
      exact ⟨i, lastAt_concat.mpr (Or.inl ⟨last, hne⟩), hspent, hid⟩
  · intro i c last hspent
    rcases lastAt_concat.mp last with ⟨last, hne⟩ | ⟨rfl, rfl⟩
    · obtain ⟨h, b, getL, getC, rfl, hid⟩ := progress.live last hspent
      have hh : h ≠ tx.hash := by
        rintro rfl
        exact hne (reg.replaced b getC)
      exact ⟨h, b, getL, (other hh).mpr ⟨getC, hne⟩, rfl, hid⟩
    · exact ⟨tx.hash, _, newHash, self, rfl, hcount⟩
  · intro wn hbound
    rw [List.length_append, List.length_singleton] at hbound
    refine reg.ids (progress.ids wn (by omega)) ?_
    intro k b getC
    have hlt := progress.id_lt wn (by omega) getC
    rw [hcount, Nat.mod_eq_of_lt (by omega)]
    omega

end

section

variable {env : Env} {ownerOf : Uint256 → CKeyID} {L C C' N : CDeterministicMNList}
variable {txs vtx : List CTransaction}

theorem applyTx_progress {done : List CTransaction} {tx : CTransaction}
    (old : L.UniqueInvariant ownerOf) (checked : CheckedTx env L ownerOf tx)
    (progress : Progress ownerOf L (registeredCollaterals done) [] C)
    (step : applyTx env C tx = .ok C') :
    Progress ownerOf L (registeredCollaterals (done ++ [tx])) [] C' := by
  cases applyTx_outcome old checked progress.unique with
  | accepted C₁ ok accepts inv registry effect =>
    cases step.symm.trans ok
    have hnone : isRegistration tx = false →
        registeredCollaterals (done ++ [tx]) = registeredCollaterals done := by
      intro hreg
      simp [registeredCollaterals, registeredCollateral, hreg]
    cases effect with
    | registered ptx isReg passed reg =>
      have hcs : registeredCollaterals (done ++ [tx]) =
          registeredCollaterals done ++ [collateralOf tx ptx] := by
        simp [registeredCollaterals, registeredCollateral, isReg, passed.payload]
      rw [hcs]
      exact progress.registered old inv passed (checked.owner ptx passed.payload) reg
    | updated h dmn st notReg get member owner addr operator set =>
      rw [hnone notReg]
      exact progress.updated inv get member owner addr operator set
    | neutral notReg keeps =>
      rw [hnone notReg]
      exact progress.neutral inv keeps
  | clash error _ => cases step.symm.trans error
  | rejected r error _ _ => cases step.symm.trans error

theorem removeSpent_progress {cs : List COutPoint} (spent : List COutPoint)
    (progress : Progress ownerOf L cs [] C) (run : spent.foldlM removeSpentBy C = .ok C') :
    Progress ownerOf L cs spent C' := by
  refine foldlM_inv removeSpentBy (fun done t => Progress ownerOf L cs done t) progress ?_ run
  intro done c rest t t' _ ht hstep
  rw [removeSpentBy_eq ht.unique] at hstep
  obtain ⟨t₁, hok, hinv, hdrop⟩ := replaceByCollateral_spec ht.unique c
  cases hstep.symm.trans hok
  exact ht.dropped hinv hdrop

theorem buildNewListFromBlock_progress (old : L.UniqueInvariant ownerOf)
    (checked : ∀ tx ∈ vtx, CheckedTx env L ownerOf tx)
    (run : buildNewListFromBlock env L vtx = .ok N) :
    Progress ownerOf L (registeredCollaterals (vtx.drop 1)) (spentBy vtx) N := by
  obtain ⟨C₀, hprepare, run⟩ := bind_eq_ok.mp run
  obtain ⟨C₁, hloop, run⟩ := bind_eq_ok.mp run
  obtain ⟨C₂, hspent, hmark⟩ := bind_eq_ok.mp run
  obtain ⟨C₀', hprepare', inv₀, keeps₀⟩ := prepareList_neutral env old
  cases hprepare.symm.trans hprepare'
  have progress₁ : Progress ownerOf L (registeredCollaterals (vtx.drop 1)) [] C₁ := by
    refine foldlM_inv (applyTx env)
      (fun done t => Progress ownerOf L (registeredCollaterals done) [] t)
      (progress_start old inv₀ keeps₀) ?_ hloop
    intro done tx rest t t' hl ht hstep
    have hmem : tx ∈ vtx.drop 1 := by simp [hl]
    exact applyTx_progress old (checked tx (List.mem_of_mem_drop hmem)) ht hstep
  have progress₂ := removeSpent_progress (spentBy vtx) progress₁ hspent
  obtain ⟨N', hmark', inv, keeps⟩ := markPayee_neutral env (L.getMNPayee env) progress₂.unique
  cases hmark.symm.trans hmark'
  exact progress₂.neutral inv keeps

theorem buildNewListFromBlock_wellNumbered (old : L.UniqueInvariant ownerOf) (wn : WellNumbered L)
    (checked : ∀ tx ∈ vtx, CheckedTx env L ownerOf tx)
    (run : buildNewListFromBlock env L vtx = .ok N)
    (hbound : L.nTotalRegisteredCount.toNat + (registeredCollaterals (vtx.drop 1)).length < 2 ^ 32) :
    N.UniqueInvariant ownerOf ∧ WellNumbered N := by
  have progress := buildNewListFromBlock_progress old checked run
  refine ⟨progress.unique, progress.ids wn hbound.le, ?_⟩
  intro h b get
  rw [progress.count, BitVec.toNat_add, BitVec.toNat_ofNat, Nat.add_mod_mod, Nat.mod_eq_of_lt hbound]
  exact progress.id_lt wn hbound.le get

theorem wellNumbered_empty (blockHash : Uint256) : WellNumbered (empty blockHash) := by
  refine ⟨fun id h => ?_, ?_⟩
  · simp [getMN_empty, show (empty blockHash).mnInternalIdMap[id]? = none from
      Std.ExtTreeMap.getElem?_empty]
  · simp [getMN_empty]

/-- The lists that block processing produces, with the number of registrations so far. -/
inductive Produced (ownerOf : Uint256 → CKeyID) : ℕ → CDeterministicMNList → Prop where
  | empty (blockHash : Uint256) : Produced ownerOf 0 (CDeterministicMNList.empty blockHash)
  | block (env : Env) (vtx : List CTransaction) (blockHash : Uint256) {n : ℕ}
      {L N : CDeterministicMNList} (parent : Produced ownerOf n L)
      (checked : ∀ tx ∈ vtx, CheckedTx env L ownerOf tx)
      (run : buildNewListFromBlock env L vtx = .ok N) :
      Produced ownerOf (n + (registeredCollaterals (vtx.drop 1)).length)
        { N with blockHash := blockHash }

theorem Produced.wellNumbered {n : ℕ} (produced : Produced ownerOf n L) (hn : n < 2 ^ 32) :
    L.UniqueInvariant ownerOf ∧ WellNumbered L ∧ L.nTotalRegisteredCount.toNat = n := by
  induction produced with
  | empty blockHash => exact ⟨uniqueInvariant_empty _ _, wellNumbered_empty _, rfl⟩
  | block env vtx blockHash parent checked run ih =>
    obtain ⟨old, wn, hcount⟩ := ih (by omega)
    obtain ⟨inv, wn'⟩ := buildNewListFromBlock_wellNumbered old wn checked run (by omega)
    refine ⟨⟨inv.hash, inv.held, inv.collateral_ne, inv.owner_ne, inv.owner⟩,
      ⟨wn'.ids, wn'.bound⟩, ?_⟩
    have progress := buildNewListFromBlock_progress old checked run
    show (BitVec.toNat _) = _
    rw [progress.count, BitVec.toNat_add, BitVec.toNat_ofNat, Nat.add_mod_mod, hcount,
      Nat.mod_eq_of_lt hn]

section

variable {cs spent : List COutPoint} (progress : Progress ownerOf L cs spent N)

include progress

theorem nodup_map_addedMNs {α : Type} {f : CDeterministicMN → α}
    (sameKey : ∀ {h x k y}, N.getMN h = some x → N.getMN k = some y → f x = f y → h = k) :
    ((L.buildDiff N).addedMNs.map f).Nodup := by
  refine List.Nodup.map_on ?_ (nodup_addedMNs progress.unique)
  intro x hx y hy hsame
  obtain ⟨getX, -⟩ := (mem_addedMNs progress.unique).mp hx
  obtain ⟨getY, -⟩ := (mem_addedMNs progress.unique).mp hy
  rw [sameKey getX getY hsame, getY] at getX
  exact (Option.some.inj getX).symm

theorem nodup_addedCollaterals :
    ((L.buildDiff N).addedMNs.map CDeterministicMN.collateralOutpoint).Nodup :=
  nodup_map_addedMNs progress fun getX getY hsame => progress.unique.holder_unique getX
    (collateral_mem.mpr rfl) getY (collateral_mem.mpr hsame)

theorem mem_addedCollaterals
    (hc : c ∈ (L.buildDiff N).addedMNs.map CDeterministicMN.collateralOutpoint) :
    c ∈ cs ∧ c ∉ spent := by
  obtain ⟨b, hb, rfl⟩ := List.mem_map.mp hc
  obtain ⟨getN, getL⟩ := (mem_addedMNs progress.unique).mp hb
  obtain ⟨i, last, hspent, -⟩ := progress.added getL getN
  exact ⟨List.mem_of_getElem? last.1, hspent⟩

theorem length_addedMNs_le : (L.buildDiff N).addedMNs.length ≤ cs.length := by
  rw [← List.length_map (f := CDeterministicMN.collateralOutpoint)]
  exact (List.subperm_of_subset (nodup_addedCollaterals progress) fun c hc =>
    (mem_addedCollaterals progress hc).1).length_le

/-- When the new list counts as many new smartnodes as the block has registrations, none of them
was removed again. -/
theorem survive_of_length (hlen : cs.length ≤ (L.buildDiff N).addedMNs.length) :
    cs.Nodup ∧ ∀ c ∈ cs, c ∉ spent := by
  have nodup := nodup_addedCollaterals progress
  have perm := (List.subperm_of_subset nodup fun c hc =>
    (mem_addedCollaterals progress hc).1).perm_of_length_le (by rwa [List.length_map])
  refine ⟨perm.nodup_iff.mp nodup, fun c hc => ?_⟩
  exact (mem_addedCollaterals progress (perm.mem_iff.mpr hc)).2

theorem addedIds_of_survive (wn : WellNumbered L)
    (hbound : L.nTotalRegisteredCount.toNat + cs.length ≤ 2 ^ 32) (nodup : cs.Nodup)
    (unspent : ∀ c ∈ cs, c ∉ spent) :
    (L.buildDiff N).addedMNs.map CDeterministicMN.internalId =
      List.range' L.nTotalRegisteredCount.toNat cs.length := by
  have ids := progress.ids wn hbound
  have perm : ((L.buildDiff N).addedMNs.map CDeterministicMN.internalId).Perm
      (List.range' L.nTotalRegisteredCount.toNat cs.length) := by
    rw [List.perm_ext_iff_of_nodup (nodup_map_addedMNs progress ids.id_unique) List.nodup_range']
    intro id
    rw [List.mem_map, List.mem_range'_1]
    constructor
    · rintro ⟨b, hb, rfl⟩
      obtain ⟨getN, getL⟩ := (mem_addedMNs progress.unique).mp hb
      obtain ⟨i, last, -, hid⟩ := progress.added getL getN
      have hi := last.lt
      rw [hid, Nat.mod_eq_of_lt (by omega)]
      omega
    · rintro ⟨hlo, hhi⟩
      obtain ⟨i, rfl⟩ := Nat.exists_eq_add_of_le hlo
      have hi : i < cs.length := by omega
      have last := nodup_iff_lastAt.mp nodup i cs[i] (List.getElem?_eq_getElem hi)
      obtain ⟨h, b, getL, getN, -, hid⟩ := progress.live last (unspent _ (List.getElem_mem hi))
      obtain rfl := progress.unique.hash getN
      refine ⟨b, (mem_addedMNs progress.unique).mpr ⟨getN, getL⟩, ?_⟩
      rw [hid, Nat.mod_eq_of_lt (by omega)]
  have sorted : ((L.buildDiff N).addedMNs.map CDeterministicMN.internalId).Pairwise (· ≤ ·) :=
    List.pairwise_map.mpr sorted_addedMNs
  exact perm.eq_of_pairwise' sorted ((List.pairwise_lt_range' 1).imp le_of_lt)

theorem applyDiff_of_survive (blockHash : Uint256) (nHeight : ℤ) (old : L.UniqueInvariant ownerOf)
    (wn : WellNumbered L) (hbound : L.nTotalRegisteredCount.toNat + cs.length ≤ 2 ^ 32)
    (nodup : cs.Nodup) (unspent : ∀ c ∈ cs, c ∉ spent) :
    ∃ R, L.applyDiff blockHash nHeight (L.buildDiff N) = .ok R ∧ SameList R N := by
  have compat : Compatible ownerOf L N :=
    ⟨old, progress.unique, wn.ids, progress.ids wn hbound, progress.kept, progress.holder⟩
  have hids := addedIds_of_survive progress wn hbound nodup unspent
  have heq : (L.buildDiff N).addedMNs.length = cs.length := by
    rw [← List.length_map (f := CDeterministicMN.internalId), hids, List.length_range']
  rw [← heq] at hids hbound
  exact compat.applyDiff_buildDiff blockHash nHeight hids hbound (heq ▸ progress.count)

end

theorem no_wrap {ids : List CDeterministicMN} {start : ℕ} (hstart : start < 2 ^ 32)
    (hlen : ids.length < 2 ^ 32)
    (sorted : ids.Pairwise fun a b => a.internalId ≤ b.internalId)
    (hids : ∀ i b, ids[i]? = some b → b.internalId = (start + i) % 2 ^ 32) :
    start + ids.length ≤ 2 ^ 32 := by
  by_contra hwrap
  have h0 : 0 < ids.length := by omega
  have hj : 2 ^ 32 - start < ids.length := by omega
  have hle := List.pairwise_iff_getElem.mp sorted 0 (2 ^ 32 - start) h0 hj (by omega)
  rw [hids 0 _ (List.getElem?_eq_getElem h0), hids _ _ (List.getElem?_eq_getElem hj)] at hle
  rw [Nat.add_sub_cancel' hstart.le, Nat.mod_self, Nat.add_zero, Nat.mod_eq_of_lt hstart] at hle
  omega

variable (env ownerOf L N vtx) in
/-- For an accepted block. `CheckBlock` bounds the number of its transactions. -/
theorem applyDiff_buildDiff_iff (blockHash : Uint256) (nHeight : ℤ)
    (old : L.UniqueInvariant ownerOf) (wn : WellNumbered L)
    (checked : ∀ tx ∈ vtx, CheckedTx env L ownerOf tx) (hsize : vtx.length ≤ maxBlockSize true)
    (run : buildNewListFromBlock env L vtx = .ok N) :
    (∃ R, L.applyDiff blockHash nHeight (L.buildDiff N) = .ok R ∧ SameList R N) ↔
      (registeredCollaterals (vtx.drop 1)).Nodup ∧
      (∀ c ∈ registeredCollaterals (vtx.drop 1), c ∉ spentBy vtx) ∧
      L.nTotalRegisteredCount.toNat + (registeredCollaterals (vtx.drop 1)).length ≤ 2 ^ 32 := by
  have progress := buildNewListFromBlock_progress old checked run
  have hlen : (registeredCollaterals (vtx.drop 1)).length ≤ 2000000 := by
    have hfilter : (registeredCollaterals (vtx.drop 1)).length ≤ (vtx.drop 1).length :=
      List.length_filterMap_le _ _
    rw [List.length_drop] at hfilter
    have hmax : maxBlockSize true = 2000000 := rfl
    omega
  constructor
  · rintro ⟨R, happly, same⟩
    obtain ⟨hcount, hids⟩ := applyDiff_ids happly
    have hle := length_addedMNs_le progress
    have heq : (L.buildDiff N).addedMNs.length = (registeredCollaterals (vtx.drop 1)).length := by
      rw [same.nTotalRegisteredCount, progress.count, BitVec.add_right_inj] at hcount
      have hnat := congrArg BitVec.toNat hcount
      rw [BitVec.toNat_ofNat, BitVec.toNat_ofNat, Nat.mod_eq_of_lt (by omega),
        Nat.mod_eq_of_lt (by omega)] at hnat
      exact hnat.symm
    obtain ⟨nodup, unspent⟩ := survive_of_length progress heq.ge
    refine ⟨nodup, unspent, ?_⟩
    rw [← heq]
    exact no_wrap L.nTotalRegisteredCount.isLt (by omega) sorted_addedMNs hids
  · rintro ⟨nodup, unspent, hbound⟩
    exact applyDiff_of_survive progress blockHash nHeight old wn hbound nodup unspent

end

def toyReg : CTransaction :=
  ⟨30, 3, .providerRegister, [], [⟨1000, toyScript⟩], 0,
    .proRegTx ⟨1, 0, 0, ⟨0, 0⟩, ⟨77, 2⟩, toyOwner 30, some 77, 5, 0, toyScript, 0, []⟩, 0⟩

def toySpend : CTransaction := ⟨31, 1, .normal, [⟨⟨30, 0⟩, [], 0⟩], [], 0, .undecodable, 0⟩

def toyReplay (vtx : List CTransaction) : Except Fault (BitVec 32 × BitVec 32) := do
  let N ← buildNewListFromBlock toyEnv (empty 0) vtx
  let R ← (empty 0).applyDiff 99 101 ((empty 0).buildDiff N)
  pure (N.nTotalRegisteredCount, R.nTotalRegisteredCount)

theorem toyReg_checked :
    ∀ tx ∈ [toyCoinbase, toyReg, toySpend], CheckedTx toyEnv (empty 0) toyOwner tx := by
  intro tx htx
  simp only [List.mem_cons, List.not_mem_nil, or_false] at htx
  rcases htx with rfl | rfl | rfl
  · exact ⟨by decide +kernel, by decide +kernel, by simp [toyCoinbase, CTransaction.proRegPayload]⟩
  · refine ⟨by decide +kernel, by decide +kernel, ?_⟩
    intro ptx hptx
    cases hptx
    rfl
  · exact ⟨by decide +kernel, by decide +kernel, by simp [toySpend, CTransaction.proRegPayload]⟩

theorem applyDiff_buildDiff_oneRegistration :
    ∃ N, buildNewListFromBlock toyEnv (empty 0) [toyCoinbase, toyReg] = .ok N ∧
      ∃ R, (empty 0).applyDiff 99 101 ((empty 0).buildDiff N) = .ok R ∧ SameList R N := by
  have hreplay : toyReplay [toyCoinbase, toyReg] = .ok (1, 1) := by decide +kernel
  obtain ⟨N, run, -⟩ := bind_eq_ok.mp hreplay
  refine ⟨N, run, (applyDiff_buildDiff_iff toyEnv toyOwner (empty 0) N [toyCoinbase, toyReg] 99 101
    (uniqueInvariant_empty toyOwner 0) (wellNumbered_empty 0) (fun tx htx => toyReg_checked tx ?_)
    (by decide) run).mpr ?_⟩
  · simp only [List.mem_cons, List.not_mem_nil, or_false] at htx ⊢
    exact htx.elim Or.inl fun h => Or.inr (Or.inl h)
  · decide +kernel

/-- The collateral of a new smartnode is spent in the block that registers it. -/
theorem applyDiff_buildDiff_fails_spentRegistration :
    Produced toyOwner 0 (empty 0) ∧
      (∀ tx ∈ [toyCoinbase, toyReg, toySpend], CheckedTx toyEnv (empty 0) toyOwner tx) ∧
      ∃ N, buildNewListFromBlock toyEnv (empty 0) [toyCoinbase, toyReg, toySpend] = .ok N ∧
        ¬ ∃ R, (empty 0).applyDiff 99 101 ((empty 0).buildDiff N) = .ok R ∧ SameList R N := by
  have hreplay : toyReplay [toyCoinbase, toyReg, toySpend] = .ok (1, 0) := by decide +kernel
  obtain ⟨N, run, hreplay⟩ := bind_eq_ok.mp hreplay
  obtain ⟨R, happly, hcounts⟩ := bind_eq_ok.mp hreplay
  refine ⟨.empty 0, toyReg_checked, N, run, ?_⟩
  rintro ⟨R', happly', same⟩
  cases happly.symm.trans happly'
  have hcount := same.nTotalRegisteredCount
  rw [pure_eq_ok, Prod.mk.injEq] at hcounts
  rw [hcounts.1, hcounts.2] at hcount
  exact absurd hcount (by decide)

end ButCore.Evo
