import ButCore.Lib.Steps
import ButCore.Lib.Table
import ButCore.Llmq.InstantSendDb

/-!
# Transactions without a lock

`AddNonLockedTx` and `RemoveNonLockedTx` keep the transactions that are neither locked nor in a
ChainLocked block, with their children and an index by outpoint, from which `ResolveBlockConflicts`
looks up the mined transactions that a new lock conflicts with. An entry without a transaction
stands for a parent that was not seen. Blocks are named by their hash.
-/
namespace ButCore.Llmq.NonLocked
open InstantSendDb (Lock)

structure NonLockedTxInfo where
  pindexMined : Option Uint256
  tx : Option CTransaction
  children : Finset Uint256
  deriving DecidableEq

structure NonLockedTxs where
  nonLockedTxs : Uint256 → Option NonLockedTxInfo
  nonLockedTxsByOutpoints : COutPoint → Option Uint256
  pendingRetryTxs : Finset Uint256

def prevouts (tx : CTransaction) : List COutPoint := tx.vin.map CTxIn.prevout

namespace NonLockedTxs

def empty : NonLockedTxs := ⟨fun _ => none, fun _ => none, ∅⟩

/-- `nonLockedTxs[parent].children.emplace(txid)`; the entry is made when it is not there. -/
def linkChild (txid : Uint256) (txs : Uint256 → Option NonLockedTxInfo) (parent : COutPoint) :
    Uint256 → Option NonLockedTxInfo :=
  let info := (txs parent.hash).getD ⟨none, none, ∅⟩
  Function.update txs parent.hash (some { info with children := insert txid info.children })

def emplaceOutpoint (txid : Uint256) (byOutpoints : COutPoint → Option Uint256) (o : COutPoint) :
    COutPoint → Option Uint256 :=
  Function.update byOutpoints o ((byOutpoints o).or (some txid))

def addNonLockedTx (s : NonLockedTxs) (tx : CTransaction) (pindexMined : Option Uint256) :
    NonLockedTxs :=
  let found := s.nonLockedTxs tx.hash
  let info := { found.getD ⟨none, none, ∅⟩ with pindexMined := pindexMined }
  { s with
    nonLockedTxs :=
      if info.tx.isNone then
        (prevouts tx).foldl (linkChild tx.hash)
          (Function.update s.nonLockedTxs tx.hash (some { info with tx := some tx }))
      else Function.update s.nonLockedTxs tx.hash (some info)
    nonLockedTxsByOutpoints :=
      if found.isNone then
        (prevouts tx).foldl (emplaceOutpoint tx.hash) s.nonLockedTxsByOutpoints
      else s.nonLockedTxsByOutpoints }

/-- An unseen parent without children is dropped. -/
def unlinkChild (txid : Uint256) (txs : Uint256 → Option NonLockedTxInfo) (parent : COutPoint) :
    Uint256 → Option NonLockedTxInfo :=
  match txs parent.hash with
  | none => txs
  | some info =>
    let info := { info with children := info.children.erase txid }
    if info.tx.isNone ∧ info.children = ∅ then Function.update txs parent.hash none
    else Function.update txs parent.hash (some info)

def removeNonLockedTx (s : NonLockedTxs) (txid : Uint256) (retryChildren : Bool) : NonLockedTxs :=
  match s.nonLockedTxs txid with
  | none => s
  | some info =>
    let inputs := (info.tx.map prevouts).getD []
    { nonLockedTxs := Function.update (inputs.foldl (unlinkChild txid) s.nonLockedTxs) txid none
      nonLockedTxsByOutpoints := Table.eraseAll id inputs s.nonLockedTxsByOutpoints
      pendingRetryTxs :=
        if retryChildren then s.pendingRetryTxs ∪ info.children else s.pendingRetryTxs }

/-- The first loop of `ResolveBlockConflicts`: the block, id and transaction of each conflict. -/
def blockConflicts (s : NonLockedTxs) (islock : Lock) : List (Uint256 × Uint256 × CTransaction) :=
  islock.inputs.filterMap fun input => do
    let conflictTxid ← s.nonLockedTxsByOutpoints input
    if conflictTxid = islock.txid then none
    else
      let info ← s.nonLockedTxs conflictTxid
      let pindexMined ← info.pindexMined
      let tx ← info.tx
      pure (pindexMined, conflictTxid, tx)

end NonLockedTxs

inductive NonLockedCall where
  | add (tx : CTransaction) (pindexMined : Option Uint256)
  | remove (txid : Uint256) (retryChildren : Bool)

def nonLockedStep (s : NonLockedTxs) : NonLockedCall → NonLockedTxs
  | .add tx pindexMined => s.addNonLockedTx tx pindexMined
  | .remove txid retryChildren => s.removeNonLockedTx txid retryChildren

/-! ### What the index is for -/

def NonLockedTxs.Tracked (s : NonLockedTxs) (txid : Uint256) (tx : CTransaction)
    (info : NonLockedTxInfo) : Prop :=
  s.nonLockedTxs txid = some info ∧ info.tx = some tx

/-- Inputs of tracked transactions lead to tracked transactions that spend them, children are listed
by tracked parents, and a lock finds a mined transaction for each of its inputs that one spends. -/
structure Follows (s : NonLockedTxs) : Prop where
  byOutpoint : ∀ {txid tx info}, s.Tracked txid tx info → ∀ o ∈ prevouts tx,
    ∃ txid' tx' info', s.nonLockedTxsByOutpoints o = some txid' ∧ s.Tracked txid' tx' info' ∧
      o ∈ prevouts tx'
  listed : ∀ {txid tx info parent info'}, s.Tracked txid tx info → ∀ o ∈ prevouts tx,
    s.Tracked o.hash parent info' → txid ∈ info'.children
  conflicts : ∀ (islock : Lock) {txid tx info}, s.Tracked txid tx info → info.pindexMined.isSome →
    txid ≠ islock.txid → ∀ o ∈ islock.inputs, o ∈ prevouts tx →
      ∃ conflict ∈ s.blockConflicts islock, o ∈ prevouts conflict.2.2

/-- When a call keeps that. A transaction that is added has its tracked children listed already, and
its inputs are in the index if it has an entry; a mined one comes first for each of its inputs. No
other tracked transaction spends an input of the one that is removed. -/
def KeepsFollowing (s : NonLockedTxs) : NonLockedCall → Prop
  | .add tx pindexMined =>
    (∀ tx' info, s.Tracked tx.hash tx' info → pindexMined ≠ none →
      ∀ o ∈ prevouts tx', s.nonLockedTxsByOutpoints o = some tx.hash) ∧
    ((∀ tx' info, ¬ s.Tracked tx.hash tx' info) →
      (∀ txid child info, s.Tracked txid child info → (∃ o ∈ prevouts child, o.hash = tx.hash) →
        ∃ entry, s.nonLockedTxs tx.hash = some entry ∧ txid ∈ entry.children) ∧
      ∀ o ∈ prevouts tx,
        (s.nonLockedTxs tx.hash ≠ none → s.nonLockedTxsByOutpoints o ≠ none) ∧
        (pindexMined ≠ none →
          s.nonLockedTxs tx.hash = none ∧ s.nonLockedTxsByOutpoints o = none))
  | .remove txid _ =>
    ∀ tx info, s.Tracked txid tx info → ∀ txid' tx' info', s.Tracked txid' tx' info' →
      txid' ≠ txid → ∀ o ∈ prevouts tx, o ∉ prevouts tx'

section

open NonLockedTxs

variable {txid : Uint256} {txs : Uint256 → Option NonLockedTxInfo}

def NonLockedTxInfo.withChild (txid : Uint256) (info : NonLockedTxInfo) : NonLockedTxInfo :=
  { info with children := insert txid info.children }

theorem foldl_linkChild (inputs : List COutPoint) (h : Uint256) :
    inputs.foldl (linkChild txid) txs h =
      if ∃ o ∈ inputs, o.hash = h then
        some (((txs h).getD ⟨none, none, ∅⟩).withChild txid)
      else txs h := by
  induction inputs generalizing txs with
  | nil => simp
  | cons o inputs ih =>
    rw [List.foldl_cons, ih]
    unfold linkChild
    by_cases hh : h = o.hash
    · subst hh
      simp [NonLockedTxInfo.withChild]
    · simp [Function.update_of_ne hh, Ne.symm hh]

theorem foldl_emplaceOutpoint (inputs : List COutPoint) (m : COutPoint → Option Uint256)
    (o : COutPoint) :
    inputs.foldl (emplaceOutpoint txid) m o =
      if o ∈ inputs then (m o).or (some txid) else m o := by
  induction inputs generalizing m with
  | nil => simp
  | cons o' inputs ih =>
    rw [List.foldl_cons, ih]
    unfold emplaceOutpoint
    by_cases ho : o = o'
    · subst ho
      cases m o <;> simp
    · simp [ho]

def NonLockedTxInfo.withoutChild (txid : Uint256) (info : NonLockedTxInfo) :
    Option NonLockedTxInfo :=
  if info.tx.isNone ∧ info.children.erase txid = ∅ then none
  else some { info with children := info.children.erase txid }

theorem unlinkChild_eq (o : COutPoint) (h : Uint256) :
    unlinkChild txid txs o h =
      if h = o.hash then (txs h).bind (NonLockedTxInfo.withoutChild txid) else txs h := by
  unfold unlinkChild NonLockedTxInfo.withoutChild
  by_cases hh : h = o.hash
  · subst hh
    cases hentry : txs o.hash with
    | none => simp [hentry]
    | some info =>
      simp only [if_true, Option.bind_some]
      split <;> simp
  · rw [if_neg hh]
    cases txs o.hash with
    | none => rfl
    | some info =>
      dsimp only
      split <;> exact Function.update_of_ne hh _ _

theorem withoutChild_idem (entry : Option NonLockedTxInfo) :
    (entry.bind (NonLockedTxInfo.withoutChild txid)).bind (NonLockedTxInfo.withoutChild txid) =
      entry.bind (NonLockedTxInfo.withoutChild txid) := by
  cases entry with
  | none => rfl
  | some info =>
    rw [Option.bind_some]
    unfold NonLockedTxInfo.withoutChild
    by_cases hdrop : info.tx.isNone ∧ info.children.erase txid = ∅
    · rw [if_pos hdrop]
      rfl
    · rw [if_neg hdrop, Option.bind_some]
      dsimp only
      rw [Finset.erase_idem, if_neg hdrop]

theorem foldl_unlinkChild (inputs : List COutPoint) (h : Uint256) :
    inputs.foldl (unlinkChild txid) txs h =
      if ∃ o ∈ inputs, o.hash = h then (txs h).bind (NonLockedTxInfo.withoutChild txid)
      else txs h := by
  induction inputs generalizing txs with
  | nil => simp
  | cons o inputs ih =>
    rw [List.foldl_cons, ih, unlinkChild_eq]
    by_cases hh : h = o.hash
    · subst hh
      simp [withoutChild_idem]
    · simp [hh, Ne.symm hh]

end

/-! ### Steps -/

/-- What the calls keep. The index only names transactions that are tracked and spend the outpoint,
and a mined transaction is named at each of its inputs. -/
structure Inv (s : NonLockedTxs) : Prop where
  mapped : ∀ {o txid}, s.nonLockedTxsByOutpoints o = some txid →
    ∃ tx info, s.Tracked txid tx info ∧ o ∈ prevouts tx
  indexed : ∀ {txid tx info}, s.Tracked txid tx info → ∀ o ∈ prevouts tx,
    s.nonLockedTxsByOutpoints o ≠ none
  listed : ∀ {txid tx info parent info'}, s.Tracked txid tx info → ∀ o ∈ prevouts tx,
    s.Tracked o.hash parent info' → txid ∈ info'.children
  mined : ∀ {txid tx info}, s.Tracked txid tx info → info.pindexMined ≠ none →
    ∀ o ∈ prevouts tx, s.nonLockedTxsByOutpoints o = some txid

section

open NonLockedTxs

variable {s : NonLockedTxs} {tx : CTransaction} {pindexMined : Option Uint256}

theorem Inv.follows (inv : Inv s) : Follows s where
  byOutpoint := by
    intro txid tx info htracked o ho
    obtain ⟨txid', hentry⟩ := Option.ne_none_iff_exists'.mp (inv.indexed htracked o ho)
    obtain ⟨tx', info', htracked', ho'⟩ := inv.mapped hentry
    exact ⟨txid', tx', info', hentry, htracked', ho'⟩
  listed := inv.listed
  conflicts := by
    intro islock txid tx info htracked hmined hne o ho htx
    obtain ⟨pindexMined, hpindex⟩ := Option.isSome_iff_exists.mp hmined
    have hentry := inv.mined htracked (by rw [hpindex]; exact Option.some_ne_none _) o htx
    refine ⟨(pindexMined, txid, tx), List.mem_filterMap.mpr ⟨o, ho, ?_⟩, htx⟩
    simp [hentry, hne, htracked.1, hpindex, htracked.2]

theorem tracked_addAgain {tx₀ : CTransaction} {info₀ : NonLockedTxInfo}
    (htracked : s.Tracked tx.hash tx₀ info₀) :
    (s.addNonLockedTx tx pindexMined).nonLockedTxs =
        Function.update s.nonLockedTxs tx.hash (some { info₀ with pindexMined := pindexMined }) ∧
      (s.addNonLockedTx tx pindexMined).nonLockedTxsByOutpoints = s.nonLockedTxsByOutpoints := by
  unfold addNonLockedTx
  rw [htracked.1]
  simp [htracked.2]

def newEntry (s : NonLockedTxs) (tx : CTransaction) (pindexMined : Option Uint256) :
    NonLockedTxInfo :=
  ⟨pindexMined, some tx, ((s.nonLockedTxs tx.hash).getD ⟨none, none, ∅⟩).children⟩

theorem addNonLockedTx_new (huntracked : ∀ tx' info, ¬ s.Tracked tx.hash tx' info) (h : Uint256) :
    (s.addNonLockedTx tx pindexMined).nonLockedTxs h =
      if ∃ o ∈ prevouts tx, o.hash = h then
        some ((if h = tx.hash then newEntry s tx pindexMined
          else (s.nonLockedTxs h).getD ⟨none, none, ∅⟩).withChild tx.hash)
      else if h = tx.hash then some (newEntry s tx pindexMined) else s.nonLockedTxs h := by
  have hnone : ((s.nonLockedTxs tx.hash).getD ⟨none, none, ∅⟩).tx = none := by
    cases hentry : s.nonLockedTxs tx.hash with
    | none => rfl
    | some info =>
      cases htx : info.tx with
      | none => exact htx
      | some tx' => exact absurd ⟨hentry, htx⟩ (huntracked tx' info)
  unfold addNonLockedTx
  simp only [hnone, Option.isNone_none, if_true]
  rw [foldl_linkChild]
  by_cases hh : h = tx.hash
  · subst hh
    simp [newEntry]
  · simp [hh]

theorem addNonLockedTx_byOutpoints (o : COutPoint) :
    (s.addNonLockedTx tx pindexMined).nonLockedTxsByOutpoints o =
      if s.nonLockedTxs tx.hash = none ∧ o ∈ prevouts tx then
        (s.nonLockedTxsByOutpoints o).or (some tx.hash)
      else s.nonLockedTxsByOutpoints o := by
  unfold addNonLockedTx
  cases s.nonLockedTxs tx.hash with
  | none => simp [foldl_emplaceOutpoint]
  | some info => simp

/-- A transaction that is added after it is gone, or for the first time, is tracked, and the entries
of the others gain it as a child where it is one. -/
theorem tracked_add (huntracked : ∀ tx' info, ¬ s.Tracked tx.hash tx' info) {h : Uint256}
    {tx' : CTransaction} {info' : NonLockedTxInfo} :
    (s.addNonLockedTx tx pindexMined).Tracked h tx' info' ↔
      ∃ info, (h = tx.hash ∧ tx' = tx ∧ info = newEntry s tx pindexMined ∨
          h ≠ tx.hash ∧ s.Tracked h tx' info) ∧
        info' = if ∃ o ∈ prevouts tx, o.hash = h then info.withChild tx.hash else info := by
  unfold Tracked
  rw [addNonLockedTx_new huntracked]
  by_cases hh : h = tx.hash
  · subst hh
    simp only [if_true, true_and, ne_eq, not_true_eq_false, false_and, or_false]
    constructor
    · rintro ⟨hentry, htx⟩
      refine ⟨newEntry s tx pindexMined, ⟨?_, rfl⟩, ?_⟩
      · split at hentry <;> · cases hentry; exact (Option.some.inj htx).symm
      · split at hentry <;> · rename_i hparent; cases hentry; simp [hparent]
    · rintro ⟨info, ⟨rfl, rfl⟩, rfl⟩
      by_cases hparent : ∃ o ∈ prevouts tx', o.hash = tx'.hash
      · rw [if_pos hparent, if_pos hparent]
        exact ⟨rfl, rfl⟩
      · rw [if_neg hparent, if_neg hparent]
        exact ⟨rfl, rfl⟩
  · simp only [hh, if_false, false_and, ne_eq, not_false_eq_true, true_and, false_or]
    by_cases hparent : ∃ o ∈ prevouts tx, o.hash = h
    · simp only [if_pos hparent]
      constructor
      · rintro ⟨hentry, htx⟩
        cases hold : s.nonLockedTxs h with
        | none =>
          rw [hold] at hentry
          cases hentry
          cases htx
        | some info =>
          rw [hold] at hentry
          cases hentry
          exact ⟨info, ⟨rfl, htx⟩, rfl⟩
      · rintro ⟨info, ⟨hentry, htx⟩, rfl⟩
        rw [hentry]
        exact ⟨rfl, htx⟩
    · simp only [if_neg hparent]
      constructor
      · exact fun htracked => ⟨info', htracked, rfl⟩
      · rintro ⟨info, htracked, rfl⟩
        exact htracked

theorem Tracked.unique {txid : Uint256} {tx tx' : CTransaction} {info info' : NonLockedTxInfo}
    (h : s.Tracked txid tx info) (h' : s.Tracked txid tx' info') : tx = tx' ∧ info = info' := by
  obtain rfl := Option.some.inj (h.1.symm.trans h'.1)
  exact ⟨Option.some.inj (h.2.symm.trans h'.2), rfl⟩

theorem mem_children_ite {txid child : Uint256} {info : NonLockedTxInfo} {p : Prop} [Decidable p]
    (h : txid ∈ info.children) : txid ∈ (if p then info.withChild child else info).children := by
  split
  · exact Finset.mem_insert_of_mem h
  · exact h

theorem pindexMined_ite {child : Uint256} {info : NonLockedTxInfo} {p : Prop} [Decidable p] :
    (if p then info.withChild child else info).pindexMined = info.pindexMined := by
  split <;> rfl

theorem Inv.addNew (inv : Inv s) (huntracked : ∀ tx' info, ¬ s.Tracked tx.hash tx' info)
    (keeps : KeepsFollowing s (.add tx pindexMined)) : Inv (s.addNonLockedTx tx pindexMined) := by
  obtain ⟨hchildren, hinputs⟩ := keeps.2 huntracked
  have hold : ∀ {txid tx' info}, s.Tracked txid tx' info → txid ≠ tx.hash := by
    rintro txid tx' info htracked rfl
    exact huntracked tx' info htracked
  have hkept : ∀ {o txid}, s.nonLockedTxsByOutpoints o = some txid →
      (s.addNonLockedTx tx pindexMined).nonLockedTxsByOutpoints o = some txid := by
    intro o txid hentry
    rw [addNonLockedTx_byOutpoints, hentry]
    split <;> rfl
  constructor
  · intro o txid hentry
    have hcases : s.nonLockedTxsByOutpoints o = some txid ∨ txid = tx.hash ∧ o ∈ prevouts tx := by
      rw [addNonLockedTx_byOutpoints] at hentry
      split at hentry
      · rename_i hnew
        rcases Option.or_eq_some_iff.mp hentry with hentry | ⟨-, hentry⟩
        · exact Or.inl hentry
        · exact Or.inr ⟨(Option.some.inj hentry).symm, hnew.2⟩
      · exact Or.inl hentry
    rcases hcases with hentry | ⟨rfl, ho⟩
    · obtain ⟨tx', info, htracked, ho⟩ := inv.mapped hentry
      exact ⟨tx', _, (tracked_add huntracked).mpr ⟨info, Or.inr ⟨hold htracked, htracked⟩, rfl⟩, ho⟩
    · exact ⟨tx, _, (tracked_add huntracked).mpr ⟨_, Or.inl ⟨rfl, rfl, rfl⟩, rfl⟩, ho⟩
  · intro txid tx' info' htracked o ho
    obtain ⟨info, ⟨rfl, rfl, -⟩ | ⟨-, htracked⟩, -⟩ := (tracked_add huntracked).mp htracked
    · rw [addNonLockedTx_byOutpoints]
      by_cases hfresh : s.nonLockedTxs tx'.hash = none
      · rw [if_pos ⟨hfresh, ho⟩]
        simp
      · rw [if_neg fun h => hfresh h.1]
        exact (hinputs o ho).1 hfresh
    · obtain ⟨txid', hentry⟩ := Option.ne_none_iff_exists'.mp (inv.indexed htracked o ho)
      rw [hkept hentry]
      exact Option.some_ne_none _
  · intro txid tx' info₁ parent info₂ hchild o ho hparent
    obtain ⟨infoP, hP, rfl⟩ := (tracked_add huntracked).mp hparent
    obtain ⟨infoC, ⟨rfl, rfl, -⟩ | ⟨-, hchild⟩, -⟩ := (tracked_add huntracked).mp hchild
    · rw [if_pos ⟨o, ho, rfl⟩]
      exact Finset.mem_insert_self _ _
    · apply mem_children_ite
      rcases hP with ⟨hnew, -, rfl⟩ | ⟨-, hP⟩
      · obtain ⟨entry, hentry, hmem⟩ := hchildren txid tx' infoC hchild ⟨o, ho, hnew⟩
        unfold newEntry
        rw [hentry]
        exact hmem
      · exact inv.listed hchild o ho hP
  · intro txid tx' info' htracked hmined o ho
    obtain ⟨info, hinfo, rfl⟩ := (tracked_add huntracked).mp htracked
    rw [pindexMined_ite] at hmined
    rcases hinfo with ⟨rfl, rfl, rfl⟩ | ⟨-, htracked⟩
    · obtain ⟨hfresh, hfree⟩ := (hinputs o ho).2 hmined
      rw [addNonLockedTx_byOutpoints, if_pos ⟨hfresh, ho⟩, hfree]
      rfl
    · exact hkept (inv.mined htracked hmined o ho)

theorem Inv.addAgain (inv : Inv s) {tx₀ : CTransaction} {info₀ : NonLockedTxInfo}
    (h₀ : s.Tracked tx.hash tx₀ info₀) (keeps : KeepsFollowing s (.add tx pindexMined)) :
    Inv (s.addNonLockedTx tx pindexMined) := by
  obtain ⟨htxs, hby⟩ := @tracked_addAgain s tx pindexMined tx₀ info₀ h₀
  have htracked : ∀ {txid tx' info'}, (s.addNonLockedTx tx pindexMined).Tracked txid tx' info' ↔
      txid = tx.hash ∧ tx' = tx₀ ∧ info' = { info₀ with pindexMined := pindexMined } ∨
        txid ≠ tx.hash ∧ s.Tracked txid tx' info' := by
    intro txid tx' info'
    unfold Tracked
    rw [htxs]
    by_cases hh : txid = tx.hash
    · subst hh
      rw [Function.update_self, Option.some.injEq]
      constructor
      · rintro ⟨rfl, htx⟩
        exact Or.inl ⟨rfl, Option.some.inj (htx.symm.trans h₀.2), rfl⟩
      · rintro (⟨-, rfl, rfl⟩ | ⟨hne, -⟩)
        · exact ⟨rfl, h₀.2⟩
        · exact absurd rfl hne
    · rw [Function.update_of_ne hh]
      simp [hh]
  -- the entries have the transactions and children they had
  have hback : ∀ {txid tx' info'}, (s.addNonLockedTx tx pindexMined).Tracked txid tx' info' →
      ∃ info, s.Tracked txid tx' info ∧ info'.children = info.children := by
    intro txid tx' info' h
    rcases htracked.mp h with ⟨rfl, rfl, rfl⟩ | ⟨-, h⟩
    · exact ⟨info₀, h₀, rfl⟩
    · exact ⟨info', h, rfl⟩
  constructor
  · intro o txid hentry
    rw [hby] at hentry
    obtain ⟨tx', info, h, ho⟩ := inv.mapped hentry
    by_cases hh : txid = tx.hash
    · subst hh
      obtain ⟨rfl, rfl⟩ := Tracked.unique h h₀
      exact ⟨tx', _, htracked.mpr (Or.inl ⟨rfl, rfl, rfl⟩), ho⟩
    · exact ⟨tx', info, htracked.mpr (Or.inr ⟨hh, h⟩), ho⟩
  · intro txid tx' info' h o ho
    obtain ⟨info, h, -⟩ := hback h
    rw [hby]
    exact inv.indexed h o ho
  · intro txid tx' info₁ parent info₂ hchild o ho hparent
    obtain ⟨infoC, hchild, -⟩ := hback hchild
    obtain ⟨infoP, hparent, hsame⟩ := hback hparent
    rw [hsame]
    exact inv.listed hchild o ho hparent
  · intro txid tx' info' h hmined o ho
    rw [hby]
    rcases htracked.mp h with ⟨rfl, rfl, rfl⟩ | ⟨-, h⟩
    · exact keeps.1 tx' info₀ h₀ hmined o ho
    · exact inv.mined h hmined o ho

theorem tracked_remove {txid : Uint256} {retryChildren : Bool} {entry : NonLockedTxInfo}
    (hentry : s.nonLockedTxs txid = some entry) {h : Uint256} {tx' : CTransaction}
    {info' : NonLockedTxInfo} :
    (s.removeNonLockedTx txid retryChildren).Tracked h tx' info' ↔
      h ≠ txid ∧ ∃ info, s.Tracked h tx' info ∧
        info' = if ∃ o ∈ (entry.tx.map prevouts).getD [], o.hash = h then
          { info with children := info.children.erase txid } else info := by
  unfold Tracked removeNonLockedTx
  rw [hentry]
  dsimp only
  by_cases hh : h = txid
  · subst hh
    simp
  · rw [Function.update_of_ne hh, foldl_unlinkChild]
    simp only [ne_eq, hh, not_false_eq_true, true_and]
    by_cases hparent : ∃ o ∈ (entry.tx.map prevouts).getD [], o.hash = h
    · simp only [if_pos hparent]
      constructor
      · rintro ⟨hinfo, htx⟩
        obtain ⟨info, hold, hinfo⟩ := Option.bind_eq_some_iff.mp hinfo
        unfold NonLockedTxInfo.withoutChild at hinfo
        split at hinfo
        · cases hinfo
        · cases hinfo
          exact ⟨info, ⟨hold, htx⟩, rfl⟩
      · rintro ⟨info, ⟨hold, htx⟩, rfl⟩
        rw [hold, Option.bind_some, NonLockedTxInfo.withoutChild, if_neg]
        · exact ⟨rfl, htx⟩
        · rintro ⟨hnone, -⟩
          rw [htx] at hnone
          cases hnone
    · simp only [if_neg hparent]
      constructor
      · exact fun h => ⟨info', h, rfl⟩
      · rintro ⟨info, h, rfl⟩
        exact h

theorem Inv.remove (inv : Inv s) {txid : Uint256} {retryChildren : Bool}
    (keeps : KeepsFollowing s (.remove txid retryChildren)) :
    Inv (s.removeNonLockedTx txid retryChildren) := by
  cases hentry : s.nonLockedTxs txid with
  | none =>
    have hsame : s.removeNonLockedTx txid retryChildren = s := by
      unfold removeNonLockedTx
      rw [hentry]
    rw [hsame]
    exact inv
  | some entry =>
    have hby : ∀ o, (s.removeNonLockedTx txid retryChildren).nonLockedTxsByOutpoints o =
        if o ∈ (entry.tx.map prevouts).getD [] then none else s.nonLockedTxsByOutpoints o := by
      intro o
      unfold removeNonLockedTx
      rw [hentry]
      dsimp only
      by_cases ho : o ∈ (entry.tx.map prevouts).getD []
      · rw [if_pos ho, Option.eq_none_iff_forall_ne_some]
        intro txid' hkept
        exact (Table.eraseAll_eq_some.mp hkept).2 o ho rfl
      · rw [if_neg ho, Table.eraseAll_of_notMem (by rwa [List.map_id])]
    -- an erased key was an input of the removed transaction
    have herased : ∀ {o txid' tx' info'}, s.Tracked txid' tx' info' → o ∈ prevouts tx' →
        o ∈ (entry.tx.map prevouts).getD [] → txid' = txid := by
      intro o txid' tx' info' htracked ho hmem
      by_contra hne
      cases htx : entry.tx with
      | none =>
        rw [htx] at hmem
        cases hmem
      | some tx =>
        rw [htx] at hmem
        exact keeps tx entry ⟨hentry, htx⟩ txid' tx' info' htracked hne o hmem ho
    constructor
    · intro o txid' hindex
      rw [hby] at hindex
      split at hindex
      · cases hindex
      · rename_i hkept
        obtain ⟨tx', info, htracked, ho⟩ := inv.mapped hindex
        refine ⟨tx', _, (tracked_remove hentry).mpr ⟨?_, info, htracked, rfl⟩, ho⟩
        rintro rfl
        apply hkept
        obtain rfl := Option.some.inj (hentry.symm.trans htracked.1)
        rw [htracked.2]
        exact ho
    · intro txid' tx' info' htracked o ho
      obtain ⟨hne, info, htracked, -⟩ := (tracked_remove hentry).mp htracked
      rw [hby, if_neg fun hmem => hne (herased htracked ho hmem)]
      exact inv.indexed htracked o ho
    · intro txid' tx' info₁ parent info₂ hchild o ho hparent
      obtain ⟨hne, infoC, hchild, -⟩ := (tracked_remove hentry).mp hchild
      obtain ⟨-, infoP, hparent₀, rfl⟩ := (tracked_remove hentry).mp hparent
      have hmem := inv.listed hchild o ho hparent₀
      split
      · exact Finset.mem_erase.mpr ⟨hne, hmem⟩
      · exact hmem
    · intro txid' tx' info' htracked hmined o ho
      obtain ⟨hne, info, htracked₀, rfl⟩ := (tracked_remove hentry).mp htracked
      rw [hby, if_neg fun hmem => hne (herased htracked₀ ho hmem)]
      refine inv.mined htracked₀ ?_ o ho
      split at hmined <;> exact hmined

theorem inv_empty : Inv .empty := by
  constructor <;> simp [NonLockedTxs.empty, Tracked]

theorem Inv.step (inv : Inv s) {call : NonLockedCall} (keeps : KeepsFollowing s call) :
    Inv (nonLockedStep s call) := by
  cases call with
  | add tx pindexMined =>
    by_cases htracked : ∃ tx₀ info₀, s.Tracked tx.hash tx₀ info₀
    · obtain ⟨tx₀, info₀, h₀⟩ := htracked
      exact inv.addAgain h₀ keeps
    · exact inv.addNew (fun tx₀ info₀ h₀ => htracked ⟨tx₀, info₀, h₀⟩) keeps
  | remove txid retryChildren => exact inv.remove keeps

end

/-- In a run whose calls keep the index, tracked transactions are found by their inputs, listed by
their parents and found by the locks they conflict with. -/
theorem run_follows (calls : List NonLockedCall)
    (keeps : Steps.Meets nonLockedStep KeepsFollowing .empty calls) :
    Follows (Steps.run nonLockedStep .empty calls) := by
  have inv : Inv (Steps.run nonLockedStep .empty calls) :=
    Steps.run_inv (fun _ _ inv keeps => inv.step keeps) inv_empty keeps
  exact inv.follows

def toyTx (hash parent : Uint256) : CTransaction :=
  ⟨hash, 1, .normal, [⟨⟨parent, 0⟩, [], 0⟩], [], 0, .undecodable, 0⟩

def toyCalls : List NonLockedCall :=
  [.add (toyTx 10 1) none, .add (toyTx 20 10) (some 99), .remove 10 true]

theorem tracked_of_bind {s : NonLockedTxs} {txid : Uint256} {tx : CTransaction}
    (h : ((s.nonLockedTxs txid).bind NonLockedTxInfo.tx) = some tx) :
    ∃ info, s.Tracked txid tx info := by
  obtain ⟨info, hentry, htx⟩ := Option.bind_eq_some_iff.mp h
  exact ⟨info, hentry, htx⟩

theorem toyCalls_keep : Steps.Meets nonLockedStep KeepsFollowing .empty toyCalls := by
  have hnone : ∀ tx info, ¬ NonLockedTxs.empty.Tracked 10 tx info := by
    rintro tx info ⟨h, -⟩
    cases h
  have hfirst : ∀ {h tx info}, (nonLockedStep .empty (.add (toyTx 10 1) none)).Tracked h tx info →
      h = 10 ∧ tx = toyTx 10 1 := by
    intro h tx info htracked
    obtain ⟨_, ⟨rfl, rfl, -⟩ | ⟨-, hold, -⟩, -⟩ := (tracked_add hnone).mp htracked
    · exact ⟨rfl, rfl⟩
    · cases hold
  have huntracked : ∀ tx info,
      ¬ (nonLockedStep .empty (.add (toyTx 10 1) none)).Tracked 20 tx info := by
    intro tx info htracked
    exact absurd (hfirst htracked).1 (by decide)
  have hsecond : ∀ {h tx info}, (nonLockedStep (nonLockedStep .empty (.add (toyTx 10 1) none))
      (.add (toyTx 20 10) (some 99))).Tracked h tx info →
        h = 10 ∧ tx = toyTx 10 1 ∨ h = 20 ∧ tx = toyTx 20 10 := by
    intro h tx info htracked
    obtain ⟨_, ⟨rfl, rfl, -⟩ | ⟨-, hold⟩, -⟩ := (tracked_add huntracked).mp htracked
    · exact Or.inr ⟨rfl, rfl⟩
    · exact Or.inl (hfirst hold)
  refine ⟨⟨?_, fun _ => ⟨?_, ?_⟩⟩, ⟨?_, fun _ => ⟨?_, ?_⟩⟩, ?_, trivial⟩
  · exact fun tx info htracked => absurd htracked (hnone tx info)
  · rintro txid child info ⟨h, -⟩
    cases h
  · exact fun o _ => ⟨fun h => absurd rfl h, fun h => absurd rfl h⟩
  · exact fun tx info htracked => absurd htracked (huntracked tx info)
  · rintro txid child info htracked ⟨o, ho, hash⟩
    obtain ⟨-, rfl⟩ := hfirst htracked
    rw [List.mem_singleton.mp ho] at hash
    exact absurd hash (by decide)
  · intro o ho
    rw [List.mem_singleton.mp ho]
    exact ⟨fun h => absurd (by decide) h, fun _ => by decide⟩
  · intro tx info htracked txid' tx' info' htracked' hne o ho ho'
    rcases hsecond htracked with ⟨-, rfl⟩ | ⟨h, -⟩
    · rcases hsecond htracked' with ⟨h, -⟩ | ⟨-, rfl⟩
      · exact hne h
      · rw [List.mem_singleton.mp ho] at ho'
        exact absurd ho' (by decide)
    · exact absurd h (by decide)

/-- A parent, its mined child, and the parent is locked. The child is found by a lock that spends
the same output. -/
theorem run_follows_parentFirst :
    ∃ conflict ∈ (Steps.run nonLockedStep .empty toyCalls).blockConflicts ⟨[⟨10, 0⟩], 30, none⟩,
      ⟨10, 0⟩ ∈ prevouts conflict.2.2 := by
  obtain ⟨info, htracked⟩ : ∃ info,
      (Steps.run nonLockedStep .empty toyCalls).Tracked 20 (toyTx 20 10) info :=
    tracked_of_bind (by decide)
  have hmined : info.pindexMined.isSome := by
    have hentry : ((Steps.run nonLockedStep .empty toyCalls).nonLockedTxs 20).map
        (fun i => i.pindexMined.isSome) = some true := by decide
    rw [htracked.1] at hentry
    exact Option.some.inj hentry
  exact (run_follows toyCalls toyCalls_keep).conflicts ⟨[⟨10, 0⟩], 30, none⟩ htracked hmined
    (by decide) ⟨10, 0⟩ (by decide) (by decide)

/-- A child that arrives first leaves an entry for its parent, whose inputs then stay out of the
index; and the removal of one of two transactions that spend an outpoint takes it out as well. -/
theorem run_loses_outpoints :
    ¬ Follows (Steps.run nonLockedStep .empty
        [.add (toyTx 20 10) none, .add (toyTx 10 1) (some 99)]) ∧
      ¬ Follows (Steps.run nonLockedStep .empty
        [.add (toyTx 10 1) none, .add (toyTx 11 1) none, .remove 10 false]) := by
  constructor
  · intro follows
    obtain ⟨info, htracked⟩ : ∃ info, (Steps.run nonLockedStep .empty
        [.add (toyTx 20 10) none, .add (toyTx 10 1) (some 99)]).Tracked 10 (toyTx 10 1) info :=
      tracked_of_bind (by decide)
    obtain ⟨txid', -, -, hentry, -⟩ := follows.byOutpoint htracked ⟨1, 0⟩ (by decide)
    have hnone : (Steps.run nonLockedStep .empty [.add (toyTx 20 10) none,
        .add (toyTx 10 1) (some 99)]).nonLockedTxsByOutpoints ⟨1, 0⟩ = none := by decide
    rw [hnone] at hentry
    cases hentry
  · intro follows
    obtain ⟨info, htracked⟩ : ∃ info, (Steps.run nonLockedStep .empty [.add (toyTx 10 1) none,
        .add (toyTx 11 1) none, .remove 10 false]).Tracked 11 (toyTx 11 1) info :=
      tracked_of_bind (by decide)
    obtain ⟨txid', -, -, hentry, -⟩ := follows.byOutpoint htracked ⟨1, 0⟩ (by decide)
    have hnone : (Steps.run nonLockedStep .empty [.add (toyTx 10 1) none,
        .add (toyTx 11 1) none, .remove 10 false]).nonLockedTxsByOutpoints ⟨1, 0⟩ = none := by
      decide
    rw [hnone] at hentry
    cases hentry

end ButCore.Llmq.NonLocked
