import ButCore.Evo.Payments
import ButCore.Evo.PoSe

/-!
# Projected payees

`GetProjectedMNPayees` sorts the valid smartnodes once.
-/
namespace ButCore.Evo.CDeterministicMNList

open Checked

section

variable (list : CDeterministicMNList) (env : Env)

def turnOrder : List CDeterministicMN :=
  (list.validMNs env).insertionSort fun a b => compareByLastPaid b a = false

/-- None where `reserve` throws for a negative count. -/
def getProjectedMNPayees (nCount : ℤ) : Option (List CDeterministicMN) :=
  let validMnCount : ℤ := (list.validMNs env).length
  let nCount :=
    if validMnCount < 10 then 0 else if nCount > validMnCount then validMnCount else nCount
  if nCount < 0 then none else some ((list.turnOrder env).take nCount.toNat)

def payNext (dmn : CDeterministicMN) : Except Fault CDeterministicMNList :=
  let env := { env with prevHeight := list.nHeight }
  markPayee env (some dmn) (startList env list)

end

def payTurns (env : Env) : ℕ → CDeterministicMNList → Except Fault (List CDeterministicMN)
  | 0, _ => pure []
  | n + 1, list =>
    match list.getMNPayee env with
    | none => pure []
    | some dmn => do
      let list ← list.payNext env dmn
      let payees ← payTurns env n list
      pure (dmn :: payees)

structure DatedBy (height : ℤ) (st : CDeterministicMNState) : Prop where
  registered : st.nRegisteredHeight ≤ height
  lastPaid : st.nLastPaidHeight ≤ height
  revived : st.nPoSeRevivedHeight ≤ height

structure Dated (list : CDeterministicMNList) : Prop where
  nonneg : 0 ≤ list.nHeight
  listed : Listed (DatedBy list.nHeight) list.nHeight list

variable {list list' oldList : CDeterministicMNList} {env : Env} {ownerOf : Uint256 → CKeyID}
variable {dmn : CDeterministicMN} {st : CDeterministicMNState} {vtx : List CTransaction}

theorem DatedBy.mono {height height' : ℤ} (dated : DatedBy height st) (le : height ≤ height') :
    DatedBy height' st :=
  ⟨dated.registered.trans le, dated.lastPaid.trans le, dated.revived.trans le⟩

section

theorem compareByLastPaid_eq_false (a b : CDeterministicMN) :
    compareByLastPaid b a = false ↔ lastPaidKey a ≤ lastPaidKey b := by
  rw [← not_lt, ← compareByLastPaid_iff, Bool.not_eq_true]

variable (inv : list.UniqueInvariant ownerOf)

include inv

theorem mem_validMNs : dmn ∈ list.validMNs env ↔
    list.getMN dmn.proTxHash = some dmn ∧ isMNValid env dmn = true := by
  rw [validMNs, List.mem_filter, mem_allMNs inv]

theorem turnOrder_sorted (env : Env) :
    (list.turnOrder env).Pairwise (lastPaidKey · < lastPaidKey ·) :=
  Ranking.pairwise_lt_sort compareByLastPaid_eq_false ((pairwise_lastPaidKey inv).filter _)

theorem getMNPayee_head? (hcount : 10 < list.getAllMNsCount) :
    list.getMNPayee env = (list.turnOrder env).head? := by
  rw [getMNPayee_eq env hcount]
  exact Ranking.foldl_keepFirst_eq_head? compareByLastPaid_iff compareByLastPaid_eq_false
    ((pairwise_lastPaidKey inv).filter _)

end

section

def paidAt (dmn : CDeterministicMN) (height : ℤ) : CDeterministicMN :=
  { dmn with pdmnState := { dmn.pdmnState with nLastPaidHeight := height } }

theorem updateMNEntry_count (get : list.getMN dmn.proTxHash = some dmn)
    (ok : list.updateMNEntry dmn st = .ok list') : list'.getAllMNsCount = list.getAllMNsCount := by
  obtain ⟨_, -, ok⟩ := bind_eq_ok.mp ok
  obtain rfl := pure_eq_ok.mp ok
  have mem : dmn.proTxHash ∈ list.mnMap := Std.ExtTreeMap.mem_iff_isSome_getElem?.mpr (by
    rw [show list.mnMap[dmn.proTxHash]? = some dmn from get]; rfl)
  exact (Std.ExtTreeMap.size_insert).trans (if_pos mem)

variable (inv : list.UniqueInvariant ownerOf) (dated : Dated list)

include inv dated

theorem payNext_spec (env : Env) (get : list.getMN dmn.proTxHash = some dmn) :
    ∃ list', list.payNext env dmn = .ok list' ∧ list'.UniqueInvariant ownerOf ∧ Dated list' ∧
      list'.getAllMNsCount = list.getAllMNsCount ∧ ∀ k, list'.getMN k =
        if k = dmn.proTxHash then some (paidAt dmn (list.nHeight + 1)) else list.getMN k := by
  let env' := { env with prevHeight := list.nHeight }
  have start : (startList env' list).UniqueInvariant ownerOf :=
    ⟨inv.hash, inv.held, inv.collateral_ne, inv.owner_ne, inv.owner⟩
  obtain ⟨list', ok, inv', -⟩ := start.updateMN_keeps get
    (paidAt dmn (list.nHeight + 1)).pdmnState rfl rfl rfl
  have found : (startList env' list).getMN dmn.proTxHash = some dmn := get
  have entry := ok
  rw [updateMN, deref_eq_ok.mpr found, ok_bind] at entry
  have set := updateMNEntry_entrySet entry
  have started : Listed (DatedBy (list.nHeight + 1)) (list.nHeight + 1) (startList env' list) :=
    ⟨rfl, dated.listed.hash, fun get => (dated.listed.state get).mono (by omega)⟩
  have state := started.state found
  have listed := started.updateMN ok ⟨state.1, le_rfl, state.3⟩
  have nonneg := dated.nonneg
  have count := updateMNEntry_count found entry
  refine ⟨list', ?_, inv', ⟨?_, ?_⟩, count, set.getMN⟩
  · simp only [payNext, markPayee, Option.bind_some]
    rw [show (startList { env with prevHeight := list.nHeight } list).getMN _ = some dmn from get]
    exact ok
  · rw [listed.height]
    omega
  · rw [listed.height]
    exact listed

omit inv in
theorem lastPaidKey_lt_paidAt {other : CDeterministicMN} {k : Uint256}
    (get : list.getMN k = some other) {h : Uint256} (hget : list.getMN h = some dmn) :
    lastPaidKey other < lastPaidKey (paidAt dmn (list.nHeight + 1)) := by
  have nonneg := dated.nonneg
  have st := dated.listed.state get
  have st' := (dated.listed.state hget).revived
  have paid : compareByLastPaidHeight (paidAt dmn (list.nHeight + 1)) = list.nHeight + 1 := by
    unfold compareByLastPaidHeight paidAt
    simp only
    rw [if_neg (by omega), if_neg (by omega)]
  have unpaid : compareByLastPaidHeight other ≤ list.nHeight := by
    unfold compareByLastPaidHeight
    simp only
    split_ifs
    exacts [st.revived, st.registered, st.lastPaid]
  rw [lastPaidKey, lastPaidKey, Prod.Lex.toLex_lt_toLex, paid]
  exact Or.inl (by omega)

theorem turnOrder_paid {rest : List CDeterministicMN} (order : list.turnOrder env = dmn :: rest)
    (inv' : list'.UniqueInvariant ownerOf) (set : ∀ k, list'.getMN k =
      if k = dmn.proTxHash then some (paidAt dmn (list.nHeight + 1)) else list.getMN k) :
    list'.turnOrder env = rest ++ [paidAt dmn (list.nHeight + 1)] := by
  have sorted := turnOrder_sorted inv env
  have mem : ∀ a, a ∈ dmn :: rest ↔ list.getMN a.proTxHash = some a ∧ isMNValid env a = true := by
    intro a
    rw [← order, turnOrder, List.mem_insertionSort, mem_validMNs inv]
  rw [order, List.pairwise_cons] at sorted
  have get := ((mem dmn).mp List.mem_cons_self).1
  refine Ranking.sort_eq_of_mem_iff compareByLastPaid_eq_false
    ((pairwise_lastPaidKey inv').filter _) ?_ fun a => ?_
  · refine List.pairwise_append.mpr ⟨sorted.2, List.pairwise_singleton _ _, ?_⟩
    intro a ha b hb
    obtain rfl := List.mem_singleton.mp hb
    exact lastPaidKey_lt_paidAt dated ((mem a).mp (List.mem_cons_of_mem _ ha)).1 get
  · rw [mem_validMNs inv', set, List.mem_append, List.mem_singleton]
    by_cases same : a.proTxHash = dmn.proTxHash
    · rw [if_pos same, Option.some.injEq]
      constructor
      · exact fun found => Or.inr found.1.symm
      · rintro (ha | rfl)
        · have found := ((mem a).mp (List.mem_cons_of_mem _ ha)).1
          rw [same, get] at found
          cases found
          exact absurd (sorted.1 _ ha) (lt_irrefl _)
        · exact ⟨rfl, ((mem dmn).mp List.mem_cons_self).2⟩
    · rw [if_neg same, ← mem a, List.mem_cons]
      constructor
      · rintro (rfl | ha)
        · exact absurd rfl same
        · exact Or.inl ha
      · rintro (ha | rfl)
        · exact Or.inr ha
        · exact absurd rfl same

theorem payTurns_eq (hcount : 10 < list.getAllMNsCount) {n : ℕ}
    (le : n ≤ (list.turnOrder env).length) :
    payTurns env n list = .ok ((list.turnOrder env).take n) := by
  induction n generalizing list with
  | zero => rfl
  | succ n ih =>
    cases order : list.turnOrder env with
    | nil =>
      rw [order] at le
      cases le
    | cons dmn rest =>
      have mem : dmn ∈ list.validMNs env :=
        (List.mem_insertionSort _).mp (order ▸ List.mem_cons_self)
      obtain ⟨list', paid, inv', dated', count, set⟩ :=
        payNext_spec inv dated env ((mem_validMNs inv).mp mem).1
      have next := turnOrder_paid inv dated order inv' set
      rw [order, List.length_cons] at le
      have fits : n ≤ (list'.turnOrder env).length := by
        rw [next, List.length_append]
        omega
      rw [payTurns, getMNPayee_head? inv hcount, order]
      simp only [List.head?_cons]
      rw [paid, ok_bind, ih inv' dated' (count ▸ hcount) fits, ok_bind, next,
        List.take_append_of_le_length (by omega), List.take_succ_cons]
      rfl

end

theorem length_turnOrder (list : CDeterministicMNList) (env : Env) :
    (list.turnOrder env).length = (list.validMNs env).length :=
  List.length_insertionSort _ _

theorem getProjectedMNPayees_eq (list : CDeterministicMNList) (env : Env) (n : ℕ) :
    list.getProjectedMNPayees env n = some (if (list.validMNs env).length < 10 then []
      else (list.turnOrder env).take (min n (list.validMNs env).length)) := by
  unfold getProjectedMNPayees
  by_cases few : (list.validMNs env).length < 10
  · simp [few]
  · have : ¬ ((list.validMNs env).length : ℤ) < 10 := by omega
    simp only [this, few, if_false]
    split_ifs <;> first | omega | (congr 2; omega)

theorem payTurns_valid (env : Env) (inv : list.UniqueInvariant ownerOf) (dated : Dated list) (n : ℕ) :
    payTurns env (min n (list.validMNs env).length) list = .ok (if list.getAllMNsCount ≤ 10 then []
      else (list.turnOrder env).take (min n (list.validMNs env).length)) := by
  by_cases small : list.getAllMNsCount ≤ 10
  · rw [if_pos small]
    cases min n (list.validMNs env).length with
    | zero => rfl
    | succ n => rw [payTurns, getMNPayee, if_pos small]; rfl
  · rw [if_neg small]
    exact payTurns_eq inv dated (by omega) (by rw [length_turnOrder]; omega)

/-- The projection is what taking turns gives, apart from lists on which only one of the two sizes
is too small. -/
theorem getProjectedMNPayees_eq_iff (env : Env) (ownerOf : Uint256 → CKeyID)
    (list : CDeterministicMNList) (n : ℕ) (inv : list.UniqueInvariant ownerOf) (dated : Dated list) :
    list.getProjectedMNPayees env n =
        (payTurns env (min n (list.validMNs env).length) list).toOption ↔
      n = 0 ∨ list.validMNs env = [] ∨
        ((list.validMNs env).length < 10 ↔ list.getAllMNsCount ≤ 10) := by
  have empty : (list.turnOrder env).take (min n (list.validMNs env).length) = [] ↔
      n = 0 ∨ list.validMNs env = [] := by
    rw [← List.length_eq_zero_iff, List.length_take, length_turnOrder, ← List.length_eq_zero_iff]
    omega
  rw [getProjectedMNPayees_eq, payTurns_valid env inv dated, toOption_eq_some.mpr rfl,
    Option.some.injEq, ← or_assoc, ← empty]
  by_cases few : (list.validMNs env).length < 10 <;> by_cases small : list.getAllMNsCount ≤ 10 <;>
    simp only [few, small, if_true, if_false, iff_self, iff_false, iff_true, or_true, or_false,
      not_true, eq_comm (a := [])]

def withHeight (list : CDeterministicMNList) (height : ℤ) : CDeterministicMNList :=
  { list with nHeight := height }

theorem UniqueInvariant.withHeight (inv : list.UniqueInvariant ownerOf) (height : ℤ) :
    (list.withHeight height).UniqueInvariant ownerOf :=
  ⟨inv.hash, inv.held, inv.collateral_ne, inv.owner_ne, inv.owner⟩

theorem dated_of_allMNs (inv : list.UniqueInvariant ownerOf) (nonneg : 0 ≤ list.nHeight)
    (recent : ∀ dmn ∈ list.allMNs, dmn.pdmnState.nRegisteredHeight ≤ list.nHeight ∧
      dmn.pdmnState.nLastPaidHeight ≤ list.nHeight ∧
      dmn.pdmnState.nPoSeRevivedHeight ≤ list.nHeight) : Dated list := by
  refine ⟨nonneg, rfl, inv.hash, fun {_ dmn} get => ?_⟩
  obtain ⟨registered, lastPaid, revived⟩ :=
    recent dmn ((mem_allMNs inv).mpr ((inv.hash get).symm ▸ get))
  exact ⟨registered, lastPaid, revived⟩

def toyHeld (n : ℕ) : CDeterministicMNList := (toyCrowd n).withHeight 100

theorem getProjectedMNPayees_eleven :
    (toyHeld 11).getProjectedMNPayees toyEnv (3 : ℕ) =
      (payTurns toyEnv (min 3 ((toyHeld 11).validMNs toyEnv).length) (toyHeld 11)).toOption := by
  have inv : (toyHeld 11).UniqueInvariant toyOwner := toyCrowd_inv.withHeight 100
  refine (getProjectedMNPayees_eq_iff toyEnv toyOwner (toyHeld 11) 3 inv ?_).mpr (Or.inr (Or.inr ?_))
  · exact dated_of_allMNs inv (by decide) (by decide +kernel)
  · decide +kernel

/-- Ten valid smartnodes are enough for the projection only. -/
theorem getProjectedMNPayees_ten :
    ((toyHeld 10).validMNs toyEnv).length = 10 ∧
      (toyHeld 10).getProjectedMNPayees toyEnv 1 = some [toyPayee 1 0] ∧
      (payTurns toyEnv 1 (toyHeld 10)).toOption = some [] := by
  decide +kernel

end ButCore.Evo.CDeterministicMNList
