import Mathlib
import ButCore.Lib.Ancestry

/-!
# Skip pointers

`GetAncestor` walks down with `pskip` and `pprev`.
-/
namespace ButCore.SkipList
open Ancestry

structure IndexEntry (κ : Type) where
  nHeight : ℕ
  pprev : Option κ
  pskip : Option κ
  deriving DecidableEq

abbrev BlockMap (κ : Type) := κ → IndexEntry κ

section

def invertLowestOne (n : ℕ) : ℕ := n &&& (n - 1)

def getSkipHeight (height : ℕ) : ℕ :=
  if height < 2 then 0
  else if height &&& 1 ≠ 0 then invertLowestOne (invertLowestOne (height - 1)) + 1
  else invertLowestOne height

def followsSkip (heightWalk height : ℕ) : Prop :=
  let heightSkip := getSkipHeight heightWalk
  let heightSkipPrev := getSkipHeight (heightWalk - 1)
  heightSkip = height ∨
    (height < heightSkip ∧ ¬ (heightSkipPrev < heightSkip - 2 ∧ height ≤ heightSkipPrev))

instance (heightWalk height : ℕ) : Decidable (followsSkip heightWalk height) :=
  inferInstanceAs (Decidable (_ ∨ _))

variable {κ : Type} [DecidableEq κ] (index : BlockMap κ)

/-- The loop of `GetAncestor`; `none` is the assertion on `pprev` or a loop without end. -/
def walk (height : ℕ) : ℕ → κ → ℕ → Option κ
  | 0, pindexWalk, heightWalk => if heightWalk ≤ height then some pindexWalk else none
  | fuel + 1, pindexWalk, heightWalk =>
    if heightWalk ≤ height then some pindexWalk
    else
      match (index pindexWalk).pskip.filter fun _ => followsSkip heightWalk height with
      | some pskip => walk height fuel pskip (getSkipHeight heightWalk)
      | none => (index pindexWalk).pprev.bind fun pprev => walk height fuel pprev (heightWalk - 1)

/-- The inner option is the pointer that is returned. -/
def getAncestor (pindex : κ) (height : ℤ) : Option (Option κ) :=
  if height > (index pindex).nHeight ∨ height < 0 then some none
  else (walk index height.toNat (index pindex).nHeight pindex (index pindex).nHeight).map some

def buildSkip (pindex : κ) : Option (BlockMap κ) :=
  match (index pindex).pprev with
  | none => some index
  | some pprev =>
    (getAncestor index pprev (getSkipHeight (index pindex).nHeight)).map fun pskip =>
      Function.update index pindex { index pindex with pskip := pskip }

/-- The loop of `LastCommonAncestor` and the assertion after it. -/
def meet : ℕ → Option κ → Option κ → Option (Option κ)
  | fuel + 1, some pa, some pb =>
    if pa = pb then some (some pa) else meet fuel (index pa).pprev (index pb).pprev
  | _, pa, pb => if pa = pb then some pa else none

def lastCommonAncestor (pa pb : κ) : Option (Option κ) := do
  let pa' ← (if (index pa).nHeight > (index pb).nHeight then getAncestor index pa (index pb).nHeight
    else some (some pa))
  let pb' ← (if (index pb).nHeight > (index pa).nHeight then getAncestor index pb (index pa).nHeight
    else some (some pb))
  meet index ((index pa).nHeight + 1) pa' pb'

abbrev CChain (κ : Type) := List (Option κ)

namespace CChain

def height (chain : CChain κ) : ℤ := chain.length - 1

def contains (chain : CChain κ) (pindex : κ) : Bool :=
  chain[(index pindex).nHeight]? == some (some pindex)

/-- The loop of `FindFork`. -/
def descend (chain : CChain κ) : ℕ → Option κ → Option (Option κ)
  | _, none => some none
  | 0, some _ => none
  | fuel + 1, some pindex =>
    if chain.contains index pindex then some (some pindex)
    else descend chain fuel (index pindex).pprev

def findFork (chain : CChain κ) (pindex : Option κ) : Option (Option κ) :=
  match pindex with
  | none => some none
  | some b => do
    let start ← (if ((index b).nHeight : ℤ) > chain.height then
      getAncestor index b chain.height else some (some b))
    chain.descend index ((index b).nHeight + 1) start

end CChain

end

theorem invertLowestOne_le (n : ℕ) : invertLowestOne n ≤ n - 1 := Nat.and_le_right

theorem getSkipHeight_lt {height : ℕ} (h : 0 < height) : getSkipHeight height < height := by
  have heven := invertLowestOne_le height
  have hodd := invertLowestOne_le (invertLowestOne (height - 1))
  have hodd' := invertLowestOne_le (height - 1)
  unfold getSkipHeight
  split
  · exact h
  · split <;> omega

variable {κ : Type} {index : BlockMap κ}

/-- The `pprev` pointers and heights of a tree: one block has no `pprev`. -/
structure BlockTree (index : BlockMap κ) : Prop where
  graded : Graded (fun b => (index b).pprev) (fun b => (index b).nHeight)
  genesis : ∀ a b, (index a).pprev = none → (index b).pprev = none → a = b

def followPprev (index : BlockMap κ) (b : κ) (h : ℕ) : Option κ :=
  ancestorAt (fun b => (index b).pprev) (fun b => (index b).nHeight) b h

def Descends (index : BlockMap κ) (a b : κ) : Prop := Ancestor (fun b => (index b).pprev) a b

/-- Every skip pointer that is set leads to the ancestor at its skip height. -/
def SkipsRight (index : BlockMap κ) : Prop :=
  ∀ b s, (index b).pskip = some s → followPprev index b (getSkipHeight (index b).nHeight) = some s

section

variable (tree : BlockTree index) (skips : SkipsRight index)

include tree skips

theorem walk_eq (h fuel : ℕ) (b : κ) (hle : h ≤ (index b).nHeight)
    (hfuel : (index b).nHeight ≤ h + fuel) :
    walk index h fuel b (index b).nHeight = followPprev index b h := by
  induction fuel generalizing b with
  | zero =>
    have heq : (index b).nHeight = h := le_antisymm hfuel hle
    rw [walk, if_pos heq.le, ← heq]
    exact (Graded.ancestorAt_self b).symm
  | succ fuel ih =>
    rcases hle.eq_or_lt with heq | hlt
    · rw [walk, if_pos heq.ge, heq]
      exact (Graded.ancestorAt_self b).symm
    · rw [walk, if_neg (not_le.mpr hlt)]
      cases hskip : (index b).pskip.filter fun _ => followsSkip (index b).nHeight h with
      | some s =>
        obtain ⟨hs, hfollows⟩ := Option.filter_eq_some_iff.mp hskip
        have hbelow : h ≤ getSkipHeight (index b).nHeight := by
          rcases of_decide_eq_true hfollows with heq | hgt
          · exact heq.ge
          · exact hgt.1.le
        have hsmall := getSkipHeight_lt (Nat.zero_lt_of_lt hlt)
        obtain ⟨s', hs', hheight, hanc⟩ := tree.graded.exists_ancestorAt hsmall.le
        cases (skips b s hs).symm.trans hs'
        change walk index h fuel s (getSkipHeight (index b).nHeight) = _
        rw [← hheight, ih s (by omega) (by omega)]
        exact (tree.graded.ancestorAt_trans hanc (by omega)).symm
      | none =>
        cases hp : (index b).pprev with
        | none => exact absurd (tree.graded.root hp) (by omega)
        | some p =>
          have hstep : (index b).nHeight = (index p).nHeight + 1 := tree.graded.step hp
          change walk index h fuel p ((index b).nHeight - 1) = _
          rw [hstep, Nat.add_sub_cancel, ih p (by omega) (by omega)]
          exact (tree.graded.ancestorAt_parent hp (by omega)).symm

theorem getAncestor_walk (b : κ) (height : ℤ) :
    getAncestor index b height =
      some (if 0 ≤ height then followPprev index b height.toNat else none) := by
  unfold getAncestor
  by_cases hneg : height < 0
  · rw [if_pos (Or.inr hneg), if_neg (not_le.mpr hneg)]
  · rw [if_pos (not_lt.mp hneg)]
    by_cases habove : height > (index b).nHeight
    · rw [if_pos (Or.inl habove), followPprev, ancestorAt, if_neg (by omega)]
    · rw [if_neg (by omega), walk_eq tree skips _ _ b (by omega) (by omega)]
      obtain ⟨a, ha, -⟩ := tree.graded.exists_ancestorAt (b := b) (h := height.toNat) (by omega)
      rw [show followPprev index b height.toNat = some a from ha]
      rfl

end

/-! ### Building the skip pointers -/

/-- `BuildSkip` touches the skip pointer of its block alone. -/
structure SameTree (index index' : BlockMap κ) : Prop where
  nHeight : ∀ b, (index' b).nHeight = (index b).nHeight
  pprev : ∀ b, (index' b).pprev = (index b).pprev

theorem SameTree.followPprev_eq {index' : BlockMap κ} (same : SameTree index index') :
    followPprev index' = followPprev index := by
  funext b h
  unfold followPprev
  rw [funext same.nHeight, funext same.pprev]

theorem SameTree.tree {index' : BlockMap κ} (same : SameTree index index')
    (tree : BlockTree index) : BlockTree index' := by
  constructor
  · have hgraded := tree.graded
    rwa [← funext same.nHeight, ← funext same.pprev] at hgraded
  · intro a b ha hb
    rw [same.pprev] at ha hb
    exact tree.genesis a b ha hb

theorem SameTree.trans {index' index'' : BlockMap κ} (h : SameTree index index')
    (h' : SameTree index' index'') : SameTree index index'' :=
  ⟨fun b => (h'.nHeight b).trans (h.nHeight b), fun b => (h'.pprev b).trans (h.pprev b)⟩

section

variable [DecidableEq κ]

theorem buildSkip_spec (tree : BlockTree index) (skips : SkipsRight index) (b : κ) :
    ∃ index', buildSkip index b = some index' ∧ SameTree index index' ∧ SkipsRight index' := by
  unfold buildSkip
  cases hp : (index b).pprev with
  | none => exact ⟨index, rfl, ⟨fun _ => rfl, fun _ => rfl⟩, skips⟩
  | some p =>
    have hstep : (index b).nHeight = (index p).nHeight + 1 := tree.graded.step hp
    have hlow : getSkipHeight (index b).nHeight ≤ (index p).nHeight := by
      have hlt : getSkipHeight (index b).nHeight < (index b).nHeight := getSkipHeight_lt (by omega)
      omega
    have hfound : followPprev index p (getSkipHeight (index b).nHeight) =
        followPprev index b (getSkipHeight (index b).nHeight) :=
      (tree.graded.ancestorAt_parent hp hlow).symm
    have hcall : getAncestor index p (getSkipHeight (index b).nHeight) =
        some (followPprev index b (getSkipHeight (index b).nHeight)) := by
      rw [getAncestor_walk tree skips, if_pos (Int.natCast_nonneg _), Int.toNat_natCast, hfound]
    have same : SameTree index (Function.update index b { index b with
        pskip := followPprev index b (getSkipHeight (index b).nHeight) }) := by
      constructor
      · intro c
        by_cases hc : c = b
        · rw [hc, Function.update_self]
        · rw [Function.update_of_ne hc]
      · intro c
        by_cases hc : c = b
        · rw [hc, Function.update_self]
        · rw [Function.update_of_ne hc]
    refine ⟨_, by simp only [hcall, Option.map_some], same, ?_⟩
    intro c s hs
    rw [same.followPprev_eq, same.nHeight]
    by_cases hc : c = b
    · rw [hc, Function.update_self] at hs
      rw [hc]
      exact hs
    · rw [Function.update_of_ne hc] at hs
      exact skips c s hs

theorem foldlM_buildSkip (tree : BlockTree index) (skips : SkipsRight index) (calls : List κ) :
    ∃ index', calls.foldlM buildSkip index = some index' ∧ SameTree index index' ∧
      SkipsRight index' := by
  induction calls generalizing index with
  | nil => exact ⟨index, rfl, ⟨fun _ => rfl, fun _ => rfl⟩, skips⟩
  | cons b rest ih =>
    obtain ⟨index₁, hstep, same₁, skips₁⟩ := buildSkip_spec tree skips b
    obtain ⟨index', hrest, same', skips'⟩ := ih (same₁.tree tree) skips₁
    refine ⟨index', ?_, same₁.trans same', skips'⟩
    rw [List.foldlM_cons, hstep]
    exact hrest

end

/-! ### The last common ancestor -/

/-- `c` is an ancestor of both, and every common ancestor is one of `c`. -/
structure HighestCommon (index : BlockMap κ) (a b c : κ) : Prop where
  left : Descends index c a
  right : Descends index c b
  highest : ∀ d, Descends index d a → Descends index d b → Descends index d c

theorem HighestCommon.of_cut (tree : BlockTree index) {a a' b c : κ} (hcut : Descends index a' a)
    (hheight : (index a').nHeight = (index b).nHeight) (h : HighestCommon index a' b c) :
    HighestCommon index a b c := by
  refine ⟨h.left.trans hcut, h.right, ?_⟩
  intro d hda hdb
  have hlow : (index d).nHeight ≤ (index a').nHeight := by
    rw [hheight]
    exact tree.graded.height_le hdb
  exact h.highest d (tree.graded.ancestor_of_le hda hcut hlow) hdb

theorem HighestCommon.symm {a b c : κ} (h : HighestCommon index a b c) :
    HighestCommon index b a c :=
  ⟨h.right, h.left, fun d hdb hda => h.highest d hda hdb⟩

theorem getAncestor_cut (tree : BlockTree index) (skips : SkipsRight index) {b : κ} {h : ℕ}
    (hle : h ≤ (index b).nHeight) :
    ∃ a, getAncestor index b h = some (some a) ∧ (index a).nHeight = h ∧ Descends index a b := by
  obtain ⟨a, ha, hheight, hanc⟩ := tree.graded.exists_ancestorAt hle
  refine ⟨a, ?_, hheight, hanc⟩
  rw [getAncestor_walk tree skips, if_pos (Int.natCast_nonneg h), Int.toNat_natCast]
  exact congrArg some ha

section

variable [DecidableEq κ]

theorem meet_spec (tree : BlockTree index) (fuel : ℕ) (a b : κ)
    (hsame : (index a).nHeight = (index b).nHeight) (hfuel : (index a).nHeight < fuel) :
    ∃ c, meet index fuel (some a) (some b) = some (some c) ∧ HighestCommon index a b c := by
  induction fuel generalizing a b with
  | zero => exact absurd hfuel (Nat.not_lt_zero _)
  | succ fuel ih =>
    rw [meet]
    by_cases heq : a = b
    · rw [if_pos heq]
      subst heq
      exact ⟨a, rfl, Ancestor.refl a, Ancestor.refl a, fun d hd _ => hd⟩
    · rw [if_neg heq]
      cases ha : (index a).pprev with
      | none =>
        have hzero : (index a).nHeight = 0 := tree.graded.root ha
        cases hb : (index b).pprev with
        | none => exact absurd (tree.genesis a b ha hb) heq
        | some q =>
          have hstep : (index b).nHeight = (index q).nHeight + 1 := tree.graded.step hb
          omega
      | some p =>
        have hp : (index a).nHeight = (index p).nHeight + 1 := tree.graded.step ha
        cases hb : (index b).pprev with
        | none =>
          have hzero : (index b).nHeight = 0 := tree.graded.root hb
          omega
        | some q =>
          have hq : (index b).nHeight = (index q).nHeight + 1 := tree.graded.step hb
          obtain ⟨c, hmeet, hcommon⟩ := ih p q (by omega) (by omega)
          refine ⟨c, hmeet, hcommon.left.of_parent ha, hcommon.right.of_parent hb, ?_⟩
          intro d hda hdb
          -- a common ancestor is neither of the two different blocks of one height
          rcases Ancestor.cases hda with rfl | ⟨p', hp', hdp⟩
          · exact absurd (tree.graded.eq_of_height hdb (Ancestor.refl b) hsame) heq
          · rcases Ancestor.cases hdb with rfl | ⟨q', hq', hdq⟩
            · exact absurd (tree.graded.eq_of_height (Ancestor.refl a) hda hsame) heq
            · cases ha.symm.trans hp'
              cases hb.symm.trans hq'
              exact hcommon.highest d hdp hdq

theorem lastCommonAncestor_spec (tree : BlockTree index) (skips : SkipsRight index) (a b : κ) :
    ∃ c, lastCommonAncestor index a b = some (some c) ∧ HighestCommon index a b c := by
  unfold lastCommonAncestor
  rcases lt_trichotomy (index a).nHeight (index b).nHeight with hlt | heq | hgt
  · obtain ⟨b', hcut, hheight, hanc⟩ := getAncestor_cut tree skips hlt.le
    obtain ⟨c, hmeet, hcommon⟩ :=
      meet_spec tree ((index a).nHeight + 1) a b' hheight.symm (Nat.lt_succ_self _)
    refine ⟨c, ?_, (hcommon.symm.of_cut tree hanc hheight).symm⟩
    rw [if_neg (not_lt.mpr hlt.le), if_pos hlt, hcut]
    exact hmeet
  · obtain ⟨c, hmeet, hcommon⟩ :=
      meet_spec tree ((index a).nHeight + 1) a b heq (Nat.lt_succ_self _)
    refine ⟨c, ?_, hcommon⟩
    rw [if_neg (by omega), if_neg (by omega)]
    exact hmeet
  · obtain ⟨a', hcut, hheight, hanc⟩ := getAncestor_cut tree skips hgt.le
    obtain ⟨c, hmeet, hcommon⟩ :=
      meet_spec tree ((index a).nHeight + 1) a' b hheight (by omega)
    refine ⟨c, ?_, hcommon.of_cut tree hanc hheight⟩
    rw [if_pos hgt, if_neg (not_lt.mpr hgt.le), hcut]
    exact hmeet

/-! ### The fork from a chain -/

/-- What `FindFork` has to return for `b`: the highest ancestor that the chain contains. -/
def HighestContained (index : BlockMap κ) (chain : CChain κ) (b : κ) : Option κ → Prop
  | none => ∀ d, Descends index d b → chain.contains index d = false
  | some c => Descends index c b ∧ chain.contains index c = true ∧
      ∀ d, Descends index d b → chain.contains index d = true → (index d).nHeight ≤ (index c).nHeight

/-- From a block below `b` to `b`, where the chain has nothing between them. -/
theorem HighestContained.of_below {chain : CChain κ} {a b : κ} {r : Option κ}
    (h : HighestContained index chain a r) (up : ∀ {c}, Descends index c a → Descends index c b)
    (below : ∀ d, Descends index d b → chain.contains index d = true → Descends index d a) :
    HighestContained index chain b r := by
  cases r with
  | none =>
    intro d hd
    by_contra hcontains
    rw [Bool.not_eq_false] at hcontains
    rw [h d (below d hd hcontains)] at hcontains
    cases hcontains
  | some c =>
    obtain ⟨hc, hcontains, htop⟩ := h
    exact ⟨up hc, hcontains, fun d hd h => htop d (below d hd h) h⟩

theorem descend_spec (tree : BlockTree index) (chain : CChain κ) (fuel : ℕ) (b : κ)
    (hfuel : (index b).nHeight < fuel) :
    ∃ r, chain.descend index fuel (some b) = some r ∧ HighestContained index chain b r := by
  induction fuel generalizing b with
  | zero => exact absurd hfuel (Nat.not_lt_zero _)
  | succ fuel ih =>
    rw [CChain.descend]
    by_cases hin : chain.contains index b = true
    · rw [if_pos hin]
      exact ⟨some b, rfl, Ancestor.refl b, hin, fun d hd _ => tree.graded.height_le hd⟩
    · rw [if_neg hin]
      cases hp : (index b).pprev with
      | none =>
        refine ⟨none, by cases fuel <;> rfl, ?_⟩
        intro d hd
        rcases Ancestor.cases hd with rfl | ⟨p, hp', -⟩
        · exact Bool.eq_false_iff.mpr hin
        · rw [hp] at hp'
          cases hp'
      | some p =>
        have hstep : (index b).nHeight = (index p).nHeight + 1 := tree.graded.step hp
        obtain ⟨r, hr, hhighest⟩ := ih p (by omega)
        refine ⟨r, hr, ?_⟩
        have below : ∀ d, Descends index d b → chain.contains index d = true →
            Descends index d p := by
          intro d hd hcontains
          rcases Ancestor.cases hd with rfl | ⟨p', hp', hdp⟩
          · exact absurd hcontains hin
          · cases hp.symm.trans hp'
            exact hdp
        exact hhighest.of_below (fun hc => hc.of_parent hp) below

theorem height_of_contains {chain : CChain κ} {d : κ} (h : chain.contains index d = true) :
    ((index d).nHeight : ℤ) ≤ chain.height := by
  have hget := eq_of_beq h
  obtain ⟨hlt, -⟩ := List.getElem?_eq_some_iff.mp hget
  unfold CChain.height
  omega

theorem findFork_spec (tree : BlockTree index) (skips : SkipsRight index) (chain : CChain κ)
    (b : κ) :
    ∃ r, chain.findFork index (some b) = some r ∧ HighestContained index chain b r := by
  unfold CChain.findFork
  by_cases habove : ((index b).nHeight : ℤ) > chain.height
  · dsimp only
    rw [if_pos habove]
    rcases lt_or_ge chain.height 0 with hempty | hnonneg
    · -- an empty chain
      refine ⟨none, ?_, ?_⟩
      · rw [getAncestor_walk tree skips, if_neg (not_le.mpr hempty)]
        rfl
      · intro d _
        by_contra hcontains
        have hle := height_of_contains (Bool.not_eq_false _ ▸ hcontains)
        omega
    · obtain ⟨h, hh⟩ := Int.eq_ofNat_of_zero_le hnonneg
      obtain ⟨a, hcut, hheight, hanc⟩ :=
        getAncestor_cut tree skips (b := b) (h := h) (by omega)
      obtain ⟨r, hr, hhighest⟩ :=
        descend_spec tree chain ((index b).nHeight + 1) a (by omega)
      refine ⟨r, ?_, ?_⟩
      · rw [hh, show getAncestor index b _ = _ from hcut]
        exact hr
      · have below : ∀ d, Descends index d b → chain.contains index d = true →
            Descends index d a := by
          intro d hd hcontains
          have hle := height_of_contains hcontains
          exact tree.graded.ancestor_of_le hd hanc (by omega)
        exact hhighest.of_below (fun hc => hc.trans hanc) below
  · dsimp only
    rw [if_neg habove]
    exact descend_spec tree chain _ b (Nat.lt_succ_self _)

/-! ### After any calls -/

/-- After any calls of `BuildSkip` on a tree that starts without skip pointers, `GetAncestor`
returns what `pprev` alone leads to, `LastCommonAncestor` the highest common ancestor and
`FindFork` the highest ancestor in the chain. -/
theorem getAncestor_followPprev (index : BlockMap κ) (tree : BlockTree index)
    (fresh : ∀ b, (index b).pskip = none) (calls : List κ) :
    ∃ index', calls.foldlM buildSkip index = some index' ∧
      (∀ b (height : ℤ), getAncestor index' b height =
        some (if 0 ≤ height ∧ height ≤ (index b).nHeight then
          up (fun b => (index b).pprev) ((index b).nHeight - height.toNat) b else none)) ∧
      (∀ a b, ∃ c, lastCommonAncestor index' a b = some (some c) ∧ HighestCommon index a b c) ∧
      ∀ chain b, ∃ r, CChain.findFork index' chain (some b) = some r ∧
        HighestContained index chain b r := by
  have skips : SkipsRight index := by
    intro b s hs
    rw [fresh] at hs
    cases hs
  obtain ⟨index', hcalls, same, skips'⟩ := foldlM_buildSkip tree skips calls
  have tree' := same.tree tree
  have hdescends : Descends index' = Descends index := by
    funext a b
    unfold Descends
    rw [funext same.pprev]
  refine ⟨index', hcalls, ?_, ?_, ?_⟩
  · intro b height
    rw [getAncestor_walk tree' skips', same.followPprev_eq, followPprev, ancestorAt]
    by_cases hneg : 0 ≤ height
    · by_cases hle : height ≤ (index b).nHeight
      · rw [if_pos hneg, if_pos (by omega), if_pos ⟨hneg, hle⟩]
      · rw [if_pos hneg, if_neg (by omega), if_neg (by omega)]
    · rw [if_neg hneg, if_neg (by omega)]
  · intro a b
    obtain ⟨c, hc, hcommon⟩ := lastCommonAncestor_spec tree' skips' a b
    refine ⟨c, hc, ?_⟩
    obtain ⟨hleft, hright, hhighest⟩ := hcommon
    rw [hdescends] at hleft hright hhighest
    exact ⟨hleft, hright, hhighest⟩
  · intro chain b
    obtain ⟨r, hr, hhighest⟩ := findFork_spec tree' skips' chain b
    have hcontains : ∀ d, chain.contains index' d = chain.contains index d := by
      intro d
      rw [CChain.contains, CChain.contains, same.nHeight]
    refine ⟨r, hr, ?_⟩
    cases r with
    | none => simpa only [HighestContained, hdescends, hcontains] using hhighest
    | some c =>
      simpa only [HighestContained, hdescends, hcontains, same.nHeight] using hhighest

end

def toyTree (b : Fin 6) : IndexEntry (Fin 6) :=
  match b with
  | 0 => ⟨0, none, none⟩
  | 5 => ⟨3, some 2, none⟩
  | b => ⟨b.val, some (b - 1), none⟩

theorem toyTree_tree : BlockTree toyTree :=
  ⟨⟨fun {b} => by revert b; decide, fun {b p} => by revert b p; decide⟩, by decide⟩

theorem getAncestor_followPprev_toyTree :
    ∃ index', [1, 2, 3, 4, 5].foldlM buildSkip toyTree = some index' ∧
      (∃ c, lastCommonAncestor index' 4 5 = some (some c) ∧ HighestCommon toyTree 4 5 c) := by
  obtain ⟨index', hcalls, -, hcommon, -⟩ :=
    getAncestor_followPprev toyTree toyTree_tree (by decide) [1, 2, 3, 4, 5]
  exact ⟨index', hcalls, hcommon 4 5⟩

end ButCore.SkipList
