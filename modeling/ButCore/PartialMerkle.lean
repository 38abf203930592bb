import ButCore.Lib.BitPack
import ButCore.Merkle

/-!
# Partial Merkle trees

`TraverseAndBuild` writes a bit for every node it visits and a hash where it stops, and
`TraverseAndExtract` makes the same walk over the bits and hashes of a peer. The numbers of
transactions that get past the first checks are below 33334, so widths and positions are plain
numbers here.
-/
namespace ButCore.Merkle
open MerkleTree

structure CPartialMerkleTree (κ : Type) where
  nTransactions : ℕ
  vBits : List Bool
  vHash : List κ
  fBad : Bool
  deriving DecidableEq

section

def calcTreeWidth (nTransactions height : ℕ) : ℕ := (nTransactions + 1 <<< height - 1) >>> height

def heightLoop (nTransactions : ℕ) : ℕ → ℕ → ℕ
  | 0, nHeight => nHeight
  | fuel + 1, nHeight =>
    if 1 < calcTreeWidth nTransactions nHeight then heightLoop nTransactions fuel (nHeight + 1)
    else nHeight

def treeHeight (nTransactions : ℕ) : ℕ := heightLoop nTransactions nTransactions 0

def leaves (nTransactions height pos : ℕ) : List ℕ :=
  List.range' (pos <<< height) (min ((pos + 1) <<< height) nTransactions - pos <<< height)

def isParentOfMatch (nTransactions : ℕ) (vMatch : List Bool) (height pos : ℕ) : Bool :=
  (leaves nTransactions height pos).any fun p => vMatch.getD p false

variable {κ : Type} (hash : κ → κ → κ) (null : κ)

def calcHash (vTxid : List κ) : ℕ → ℕ → κ
  | 0, pos => vTxid.getD pos null
  | height + 1, pos =>
    let left := calcHash vTxid height (pos * 2)
    let right := if pos * 2 + 1 < calcTreeWidth vTxid.length height then
      calcHash vTxid height (pos * 2 + 1) else left
    hash left right

/-- What is pushed to `vBits` and `vHash`. -/
def traverseAndBuild (vTxid : List κ) (vMatch : List Bool) :
    ℕ → ℕ → List Bool × List κ → List Bool × List κ
  | 0, pos, (vBits, vHash) =>
    (vBits ++ [isParentOfMatch vTxid.length vMatch 0 pos],
      vHash ++ [calcHash hash null vTxid 0 pos])
  | height + 1, pos, (vBits, vHash) =>
    let fParentOfMatch := isParentOfMatch vTxid.length vMatch (height + 1) pos
    let vBits := vBits ++ [fParentOfMatch]
    if fParentOfMatch = false then (vBits, vHash ++ [calcHash hash null vTxid (height + 1) pos])
    else
      let pushed := traverseAndBuild vTxid vMatch height (pos * 2) (vBits, vHash)
      if pos * 2 + 1 < calcTreeWidth vTxid.length height then
        traverseAndBuild vTxid vMatch height (pos * 2 + 1) pushed
      else pushed

/-- The constructor from the ids of a block and the ids that are wanted. -/
def CPartialMerkleTree.ofTxids (vTxid : List κ) (vMatch : List Bool) : CPartialMerkleTree κ :=
  let (vBits, vHash) := traverseAndBuild hash null vTxid vMatch (treeHeight vTxid.length) 0 ([], [])
  ⟨vTxid.length, vBits, vHash, false⟩

/-- Written to a stream and read back: the bits travel in whole bytes. -/
def CPartialMerkleTree.roundTrip (tree : CPartialMerkleTree κ) : CPartialMerkleTree κ :=
  { tree with vBits := BitPack.unpack (BitPack.pack tree.vBits), fBad := false }

/-- The variables that `TraverseAndExtract` passes by reference, and `fBad`. -/
structure Extraction (κ : Type) where
  nBitsUsed : ℕ
  nHashUsed : ℕ
  vMatch : List κ
  vnIndex : List ℕ
  fBad : Bool
  deriving DecidableEq

/-- The stored hash of a node that is not descended into; `matched` at a matched leaf. -/
def takeHash (tree : CPartialMerkleTree κ) (matched : Bool) (pos : ℕ) (st : Extraction κ) :
    κ × Extraction κ :=
  match tree.vHash[st.nHashUsed]? with
  | none => (null, { st with fBad := true })
  | some h =>
    let st := { st with nHashUsed := st.nHashUsed + 1 }
    if matched then (h, { st with vMatch := st.vMatch ++ [h], vnIndex := st.vnIndex ++ [pos] })
    else (h, st)

variable [DecidableEq κ]

def traverseAndExtract (tree : CPartialMerkleTree κ) : ℕ → ℕ → Extraction κ → κ × Extraction κ
  | 0, pos, st =>
    match tree.vBits[st.nBitsUsed]? with
    | none => (null, { st with fBad := true })
    | some fParentOfMatch =>
      takeHash null tree fParentOfMatch pos { st with nBitsUsed := st.nBitsUsed + 1 }
  | height + 1, pos, st =>
    match tree.vBits[st.nBitsUsed]? with
    | none => (null, { st with fBad := true })
    | some false => takeHash null tree false pos { st with nBitsUsed := st.nBitsUsed + 1 }
    | some true =>
      let (left, st) := traverseAndExtract tree height (pos * 2)
        { st with nBitsUsed := st.nBitsUsed + 1 }
      if pos * 2 + 1 < calcTreeWidth tree.nTransactions height then
        let (right, st) := traverseAndExtract tree height (pos * 2 + 1) st
        (hash left right, { st with fBad := st.fBad || decide (right = left) })
      else (hash left left, st)

structure Extracted (κ : Type) where
  hashMerkleRoot : κ
  vMatch : List κ
  vnIndex : List ℕ
  fBad : Bool
  deriving DecidableEq

/-- `vnIndex` is not cleared. -/
def extractMatches (tree : CPartialMerkleTree κ) (vnIndex : List ℕ) : Extracted κ :=
  if tree.nTransactions = 0 ∨ tree.nTransactions > maxBlockSize true / 60 ∨
      tree.vHash.length > tree.nTransactions ∨ tree.vBits.length < tree.vHash.length then
    ⟨null, [], vnIndex, tree.fBad⟩
  else
    let (hashMerkleRoot, st) := traverseAndExtract hash null tree (treeHeight tree.nTransactions) 0
      ⟨0, 0, [], vnIndex, tree.fBad⟩
    if st.fBad = true ∨ (st.nBitsUsed + 7) / 8 ≠ (tree.vBits.length + 7) / 8 ∨
        st.nHashUsed ≠ tree.vHash.length then
      ⟨null, st.vMatch, st.vnIndex, st.fBad⟩
    else ⟨hashMerkleRoot, st.vMatch, st.vnIndex, st.fBad⟩

end

section

variable {nTransactions height pos : ℕ}

theorem lt_calcTreeWidth_iff : pos < calcTreeWidth nTransactions height ↔
    pos * 2 ^ height < nTransactions := by
  have hpos := Nat.two_pow_pos height
  unfold calcTreeWidth
  rw [Nat.one_shiftLeft, Nat.shiftRight_eq_div_pow, ← Nat.succ_le_iff,
    Nat.le_div_iff_mul_le hpos, Nat.succ_mul]
  omega

theorem calcTreeWidth_zero : calcTreeWidth nTransactions 0 = nTransactions := by
  simp [calcTreeWidth]

theorem calcTreeWidth_succ :
    calcTreeWidth nTransactions (height + 1) = (calcTreeWidth nTransactions height + 1) / 2 := by
  apply eq_of_forall_lt_iff
  intro p
  have hhalf : p < (calcTreeWidth nTransactions height + 1) / 2 ↔
      p * 2 < calcTreeWidth nTransactions height := by omega
  rw [hhalf, lt_calcTreeWidth_iff, lt_calcTreeWidth_iff, Nat.pow_succ', Nat.mul_assoc]

theorem heightLoop_spec (fuel : ℕ) (h : nTransactions ≤ height + fuel)
    (hlow : ∀ j < height, 1 < calcTreeWidth nTransactions j) :
    calcTreeWidth nTransactions (heightLoop nTransactions fuel height) ≤ 1 ∧
      ∀ j < heightLoop nTransactions fuel height, 1 < calcTreeWidth nTransactions j := by
  induction fuel generalizing height with
  | zero =>
    refine ⟨?_, hlow⟩
    rw [heightLoop, ← not_lt, lt_calcTreeWidth_iff, Nat.one_mul, not_lt]
    exact le_trans h (Nat.lt_two_pow_self).le
  | succ fuel ih =>
    rw [heightLoop]
    by_cases hwide : 1 < calcTreeWidth nTransactions height
    · rw [if_pos hwide]
      apply ih (by omega)
      intro j hj
      rcases Nat.lt_succ_iff_lt_or_eq.mp hj with hlt | rfl
      · exact hlow j hlt
      · exact hwide
    · rw [if_neg hwide]
      exact ⟨not_lt.mp hwide, hlow⟩

theorem treeHeight_spec (nTransactions : ℕ) :
    calcTreeWidth nTransactions (treeHeight nTransactions) ≤ 1 ∧
      ∀ j < treeHeight nTransactions, 1 < calcTreeWidth nTransactions j :=
  heightLoop_spec nTransactions (by omega) (by omega)

theorem leaves_succ : leaves nTransactions (height + 1) pos =
    leaves nTransactions height (pos * 2) ++ leaves nTransactions height (pos * 2 + 1) := by
  have hfirst : pos <<< (height + 1) = pos * 2 * 2 ^ height := by
    rw [Nat.shiftLeft_eq]
    ring
  have hlast : (pos + 1) <<< (height + 1) = pos * 2 * 2 ^ height + 2 ^ height + 2 ^ height := by
    rw [Nat.shiftLeft_eq]
    ring
  have hmid : (pos * 2 + 1) <<< height = pos * 2 * 2 ^ height + 2 ^ height := by
    rw [Nat.shiftLeft_eq]
    ring
  have hend : (pos * 2 + 1 + 1) <<< height = pos * 2 * 2 ^ height + 2 ^ height + 2 ^ height := by
    rw [Nat.shiftLeft_eq]
    ring
  unfold leaves
  rw [hfirst, hlast, hmid, hend, Nat.shiftLeft_eq]
  generalize pos * 2 * 2 ^ height = a
  generalize 2 ^ height = d
  rcases le_total (a + d) nTransactions with hle | hge
  · rw [min_eq_left hle, Nat.add_sub_cancel_left,
      List.range'_append_1]
    congr 1
    omega
  · rw [min_eq_right hge, show min (a + d + d) nTransactions - (a + d) = 0 by omega,
      show min (a + d + d) nTransactions = nTransactions by omega, List.range'_zero,
      List.append_nil]

theorem leaves_eq_nil (h : nTransactions ≤ pos * 2 ^ height) :
    leaves nTransactions height pos = [] := by
  unfold leaves
  rw [Nat.shiftLeft_eq pos, show min ((pos + 1) <<< height) nTransactions - pos * 2 ^ height = 0 by
    omega]
  rfl

theorem leaves_zero (h : pos < nTransactions) : leaves nTransactions 0 pos = [pos] := by
  unfold leaves
  rw [Nat.shiftLeft_zero, Nat.shiftLeft_zero, show min (pos + 1) nTransactions - pos = 1 by omega]
  rfl

theorem leaves_root : leaves nTransactions (treeHeight nTransactions) 0 = List.range nTransactions := by
  have hwidth := (treeHeight_spec nTransactions).1
  rw [← not_lt, lt_calcTreeWidth_iff, Nat.one_mul, not_lt] at hwidth
  unfold leaves
  rw [Nat.zero_shiftLeft, Nat.zero_add, Nat.one_shiftLeft, min_eq_right hwidth, Nat.sub_zero,
    List.range_eq_range']

end

/-! ### Node hashes are the levels of the root computation -/

section

variable {κ : Type} (hash : κ → κ → κ) (null : κ) (vTxid : List κ)

theorem length_levels (height : ℕ) :
    ((levelUp hash)^[height] vTxid).length = calcTreeWidth vTxid.length height := by
  induction height with
  | zero => rw [Function.iterate_zero_apply, calcTreeWidth_zero]
  | succ height ih =>
    rw [Function.iterate_succ_apply', length_levelUp, ih, calcTreeWidth_succ]

theorem getElem?_levels (height pos : ℕ) :
    ((levelUp hash)^[height] vTxid)[pos]? =
      if pos < calcTreeWidth vTxid.length height then some (calcHash hash null vTxid height pos)
      else none := by
  induction height generalizing pos with
  | zero =>
    rw [Function.iterate_zero_apply, calcTreeWidth_zero]
    by_cases hlt : pos < vTxid.length
    · rw [if_pos hlt, calcHash, List.getElem?_eq_getElem hlt, List.getD_eq_getElem?_getD,
        List.getElem?_eq_getElem hlt, Option.getD_some]
    · rw [if_neg hlt, List.getElem?_eq_none (not_lt.mp hlt)]
  | succ height ih =>
    have hwidth : pos < calcTreeWidth vTxid.length (height + 1) ↔
        pos * 2 < calcTreeWidth vTxid.length height := by
      rw [calcTreeWidth_succ]
      omega
    rw [Function.iterate_succ_apply', getElem?_levelUp, ih, ih, Nat.mul_comm 2 pos]
    by_cases hlt : pos * 2 < calcTreeWidth vTxid.length height
    · rw [if_pos hlt, if_pos (hwidth.mpr hlt), Option.map_some, calcHash]
      by_cases hright : pos * 2 + 1 < calcTreeWidth vTxid.length height
      · simp only [if_pos hright, Option.getD_some]
      · simp only [if_neg hright, Option.getD_none]
    · rw [if_neg hlt, if_neg (mt hwidth.mp hlt), Option.map_none]

variable {hash vTxid}

theorem calcHash_ne (inj : ∀ a b a' b', hash a b = hash a' b' → a = a' ∧ b = b')
    (hnodup : vTxid.Nodup) {height pos pos' : ℕ} (hpos : pos < calcTreeWidth vTxid.length height)
    (hpos' : pos' < calcTreeWidth vTxid.length height) (hne : pos ≠ pos') :
    calcHash hash null vTxid height pos ≠ calcHash hash null vTxid height pos' := by
  have hlevel : ((levelUp hash)^[height] vTxid).Nodup := by
    clear hpos hpos'
    induction height with
    | zero => exact hnodup
    | succ height ih =>
      rw [Function.iterate_succ_apply']
      exact nodup_levelUp inj ih
  have hlength := length_levels hash vTxid height
  intro heq
  apply hne
  apply (List.getElem?_inj (hlength.symm ▸ hpos) hlevel).mp
  rw [getElem?_levels hash null, getElem?_levels hash null, if_pos hpos, if_pos hpos', heq]

variable [DecidableEq κ]

theorem computeMerkleRoot_levels (height : ℕ)
    (hlong : ∀ j < height, 1 < ((levelUp hash)^[j] vTxid).length)
    (hshort : ((levelUp hash)^[height] vTxid).length ≤ 1) :
    (computeMerkleRoot hash null vTxid).1 = ((levelUp hash)^[height] vTxid).head?.getD null := by
  induction height generalizing vTxid with
  | zero =>
    have hshort : vTxid.length ≤ 1 := hshort
    unfold computeMerkleRoot
    rw [computeLoop_short hshort]
    rfl
  | succ height ih =>
    have hfirst : 1 < vTxid.length := hlong 0 (Nat.succ_pos _)
    rw [computeMerkleRoot_up hfirst]
    exact ih (fun j hj => hlong (j + 1) (Nat.succ_lt_succ hj)) hshort

theorem computeMerkleRoot_eq_calcHash (hne : vTxid ≠ []) :
    (computeMerkleRoot hash null vTxid).1 =
      calcHash hash null vTxid (treeHeight vTxid.length) 0 := by
  obtain ⟨hshort, hlong⟩ := treeHeight_spec vTxid.length
  have hfirst : 0 < calcTreeWidth vTxid.length (treeHeight vTxid.length) := by
    rw [lt_calcTreeWidth_iff, Nat.zero_mul]
    exact List.length_pos_iff.mpr hne
  rw [computeMerkleRoot_levels null (treeHeight vTxid.length)
    (fun j hj => by rw [length_levels]; exact hlong j hj) (by rw [length_levels]; exact hshort),
    List.head?_eq_getElem?, getElem?_levels hash null, if_pos hfirst, Option.getD_some]

end

/-! ### The extractor repeats the builder's walk -/

section

variable {κ : Type} (hash : κ → κ → κ) (null : κ) (vTxid : List κ) (vMatch : List Bool)

def pushed (height pos : ℕ) : List Bool × List κ :=
  traverseAndBuild hash null vTxid vMatch height pos ([], [])

def matched (height pos : ℕ) : List ℕ :=
  (leaves vTxid.length height pos).filter fun p => vMatch.getD p false

theorem traverseAndBuild_eq (height pos : ℕ) (vBits : List Bool) (vHash : List κ) :
    traverseAndBuild hash null vTxid vMatch height pos (vBits, vHash) =
      (vBits ++ (pushed hash null vTxid vMatch height pos).1,
        vHash ++ (pushed hash null vTxid vMatch height pos).2) := by
  unfold pushed
  induction height generalizing pos vBits vHash with
  | zero => rfl
  | succ height ih =>
    simp only [traverseAndBuild]
    by_cases hstop : isParentOfMatch vTxid.length vMatch (height + 1) pos = false
    · rw [if_pos hstop, if_pos hstop]
      rfl
    · rw [if_neg hstop, if_neg hstop, ih (pos * 2) (vBits ++ _), ih (pos * 2) ([] ++ _)]
      by_cases hright : pos * 2 + 1 < calcTreeWidth vTxid.length height
      · rw [if_pos hright, if_pos hright, ih, ih (pos * 2 + 1) ([] ++ _ ++ _)]
        simp only [List.append_assoc, List.nil_append]
      · rw [if_neg hright, if_neg hright]
        simp only [List.append_assoc, List.nil_append]

variable {hash null vTxid vMatch} {height pos : ℕ}

theorem pushed_stop (h : isParentOfMatch vTxid.length vMatch (height + 1) pos = false) :
    pushed hash null vTxid vMatch (height + 1) pos =
      ([false], [calcHash hash null vTxid (height + 1) pos]) := by
  simp only [pushed, traverseAndBuild, h, if_true, List.nil_append]

theorem pushed_both (h : isParentOfMatch vTxid.length vMatch (height + 1) pos = true)
    (hright : pos * 2 + 1 < calcTreeWidth vTxid.length height) :
    pushed hash null vTxid vMatch (height + 1) pos =
      (true :: ((pushed hash null vTxid vMatch height (pos * 2)).1 ++
          (pushed hash null vTxid vMatch height (pos * 2 + 1)).1),
        (pushed hash null vTxid vMatch height (pos * 2)).2 ++
          (pushed hash null vTxid vMatch height (pos * 2 + 1)).2) := by
  rw [pushed, traverseAndBuild]
  simp only [h, Bool.true_eq_false, if_false, if_pos hright, traverseAndBuild_eq, List.nil_append,
    List.cons_append]

theorem pushed_left (h : isParentOfMatch vTxid.length vMatch (height + 1) pos = true)
    (hright : ¬ pos * 2 + 1 < calcTreeWidth vTxid.length height) :
    pushed hash null vTxid vMatch (height + 1) pos =
      (true :: (pushed hash null vTxid vMatch height (pos * 2)).1,
        (pushed hash null vTxid vMatch height (pos * 2)).2) := by
  rw [pushed, traverseAndBuild]
  simp only [h, Bool.true_eq_false, if_false, if_neg hright, traverseAndBuild_eq, List.nil_append,
    List.cons_append]

theorem matched_eq_nil (h : isParentOfMatch vTxid.length vMatch height pos = false) :
    matched vTxid vMatch height pos = [] := by
  unfold matched
  rw [List.filter_eq_nil_iff]
  exact List.any_eq_false.mp h

theorem matched_succ : matched vTxid vMatch (height + 1) pos =
    matched vTxid vMatch height (pos * 2) ++ matched vTxid vMatch height (pos * 2 + 1) := by
  unfold matched
  rw [leaves_succ, List.filter_append]

theorem matched_beyond (h : ¬ pos < calcTreeWidth vTxid.length height) :
    matched vTxid vMatch height pos = [] := by
  unfold matched
  rw [lt_calcTreeWidth_iff, not_lt] at h
  rw [leaves_eq_nil h, List.filter_nil]

theorem length_pushed (hpos : pos < calcTreeWidth vTxid.length height) :
    (pushed hash null vTxid vMatch height pos).2.length ≤
        (leaves vTxid.length height pos).length ∧
      (pushed hash null vTxid vMatch height pos).2.length ≤
        (pushed hash null vTxid vMatch height pos).1.length := by
  induction height generalizing pos with
  | zero =>
    rw [calcTreeWidth_zero] at hpos
    rw [leaves_zero hpos]
    exact ⟨le_rfl, le_rfl⟩
  | succ height ih =>
    have hleft : pos * 2 < calcTreeWidth vTxid.length height := by
      rw [calcTreeWidth_succ] at hpos
      omega
    obtain ⟨hleaves, hbits⟩ := ih hleft
    rw [leaves_succ, List.length_append]
    by_cases hmatch : isParentOfMatch vTxid.length vMatch (height + 1) pos = true
    · by_cases hright : pos * 2 + 1 < calcTreeWidth vTxid.length height
      · obtain ⟨hleaves', hbits'⟩ := ih hright
        rw [pushed_both hmatch hright]
        simp only [List.length_cons, List.length_append]
        omega
      · rw [pushed_left hmatch hright]
        simp only [List.length_cons]
        omega
    · have hsome : 0 < (leaves vTxid.length height (pos * 2)).length := by
        rw [lt_calcTreeWidth_iff] at hleft
        unfold leaves
        rw [List.length_range', Nat.shiftLeft_eq, Nat.shiftLeft_eq, Nat.succ_mul]
        have := Nat.two_pow_pos height
        omega
      rw [pushed_stop (Bool.not_eq_true _ ▸ hmatch)]
      simp only [List.length_singleton]
      omega

end

section

variable {κ : Type} {hash : κ → κ → κ} {null : κ} {vTxid : List κ} {vMatch : List Bool}

def Extraction.after (null : κ) (vTxid : List κ) (st : Extraction κ) (bits hashes : ℕ)
    (found : List ℕ) : Extraction κ :=
  { nBitsUsed := st.nBitsUsed + bits
    nHashUsed := st.nHashUsed + hashes
    vMatch := st.vMatch ++ found.map fun p => vTxid.getD p null
    vnIndex := st.vnIndex ++ found
    fBad := st.fBad }

theorem getElem?_of_drop {α : Type} {xs ys : List α} {n : ℕ} {x : α}
    (h : xs.drop n = x :: ys) : xs[n]? = some x := by
  rw [← List.head?_drop, h]
  rfl

theorem drop_of_drop {α : Type} {xs ys zs : List α} {n : ℕ} (h : xs.drop n = ys ++ zs) :
    xs.drop (n + ys.length) = zs := by
  rw [← List.drop_drop, h, List.drop_left]

variable [DecidableEq κ]

theorem traverseAndExtract_pushed (inj : ∀ a b a' b', hash a b = hash a' b' → a = a' ∧ b = b')
    (hnodup : vTxid.Nodup) {tree : CPartialMerkleTree κ}
    (hn : tree.nTransactions = vTxid.length) {height pos : ℕ}
    (hpos : pos < calcTreeWidth vTxid.length height) {st : Extraction κ} {bits : List Bool}
    {hashes : List κ}
    (hbits : tree.vBits.drop st.nBitsUsed = (pushed hash null vTxid vMatch height pos).1 ++ bits)
    (hhashes : tree.vHash.drop st.nHashUsed =
      (pushed hash null vTxid vMatch height pos).2 ++ hashes) :
    traverseAndExtract hash null tree height pos st =
      (calcHash hash null vTxid height pos,
        st.after null vTxid (pushed hash null vTxid vMatch height pos).1.length
          (pushed hash null vTxid vMatch height pos).2.length
          (matched vTxid vMatch height pos)) := by
  induction height generalizing pos st bits hashes with
  | zero =>
    rw [calcTreeWidth_zero] at hpos
    have hbit := getElem?_of_drop hbits
    have hhash := getElem?_of_drop hhashes
    have hleaf : isParentOfMatch vTxid.length vMatch 0 pos = vMatch.getD pos false := by
      rw [isParentOfMatch, leaves_zero hpos, List.any_cons, List.any_nil, Bool.or_false]
    rw [hleaf] at hbit
    rw [traverseAndExtract, hbit, matched, leaves_zero hpos]
    cases hmatch : vMatch.getD pos false with
    | false =>
      rw [List.filter_cons_of_neg (by rw [hmatch]; decide)]
      simp [takeHash, hhash, Extraction.after, pushed, traverseAndBuild]
    | true =>
      rw [List.filter_cons_of_pos (by rw [hmatch])]
      simp [takeHash, hhash, Extraction.after, pushed, traverseAndBuild, calcHash]
  | succ height ih =>
    have hleft : pos * 2 < calcTreeWidth vTxid.length height := by
      rw [calcTreeWidth_succ] at hpos
      omega
    cases hmatch : isParentOfMatch vTxid.length vMatch (height + 1) pos with
    | false =>
      rw [pushed_stop hmatch] at hbits hhashes ⊢
      rw [traverseAndExtract, getElem?_of_drop hbits, matched_eq_nil hmatch]
      simp [takeHash, getElem?_of_drop hhashes, Extraction.after]
    | true =>
      by_cases hright : pos * 2 + 1 < calcTreeWidth vTxid.length height
      · rw [pushed_both hmatch hright] at hbits hhashes ⊢
        rw [List.cons_append, List.append_assoc] at hbits
        rw [List.append_assoc] at hhashes
        have hsiblings : calcHash hash null vTxid height (pos * 2 + 1) ≠
            calcHash hash null vTxid height (pos * 2) :=
          calcHash_ne null inj hnodup hright hleft (Nat.succ_ne_self _)
        have hbits' : tree.vBits.drop (st.nBitsUsed + 1) = _ ++ (_ ++ bits) :=
          drop_of_drop (List.singleton_append ▸ hbits)
        have hl : traverseAndExtract hash null tree height (pos * 2)
            { st with nBitsUsed := st.nBitsUsed + 1 } = _ := ih hleft hbits' hhashes
        have hr : traverseAndExtract hash null tree height (pos * 2 + 1)
            (Extraction.after null vTxid { st with nBitsUsed := st.nBitsUsed + 1 } _ _
              (matched vTxid vMatch height (pos * 2))) = _ :=
          ih hright (drop_of_drop hbits') (drop_of_drop hhashes)
        rw [traverseAndExtract, getElem?_of_drop hbits]
        simp only [hl, hn, if_pos hright, hr]
        simp only [Extraction.after, calcHash, if_pos hright, decide_eq_false hsiblings,
          matched_succ, Bool.or_false, List.length_cons, List.length_append, List.map_append,
          List.append_assoc, Prod.mk.injEq, Extraction.mk.injEq, and_true, true_and]
        omega
      · rw [pushed_left hmatch hright] at hbits hhashes ⊢
        rw [List.cons_append] at hbits
        have hbits' : tree.vBits.drop (st.nBitsUsed + 1) = _ ++ bits :=
          drop_of_drop (List.singleton_append ▸ hbits)
        have hl : traverseAndExtract hash null tree height (pos * 2)
            { st with nBitsUsed := st.nBitsUsed + 1 } = _ := ih hleft hbits' hhashes
        rw [traverseAndExtract, getElem?_of_drop hbits, matched_succ, matched_beyond hright,
          List.append_nil]
        simp only [hl, hn, if_neg hright]
        simp only [Extraction.after, calcHash, if_neg hright, List.length_cons,
          Prod.mk.injEq, Extraction.mk.injEq, and_true, true_and]
        omega

variable (hash null vTxid) in
def extracted (vMatch : List Bool) (vnIndex : List ℕ) : Extracted κ :=
  { hashMerkleRoot := (computeMerkleRoot hash null vTxid).1
    vMatch := ((List.range vTxid.length).filter fun p => vMatch.getD p false).map
      fun p => vTxid.getD p null
    vnIndex := vnIndex ++ (List.range vTxid.length).filter fun p => vMatch.getD p false
    fBad := false }

theorem extractMatches_pushed (inj : ∀ a b a' b', hash a b = hash a' b' → a = a' ∧ b = b')
    (hne : vTxid ≠ []) (hnodup : vTxid.Nodup) (hsize : vTxid.length ≤ maxBlockSize true / 60)
    (vMatch : List Bool) {tree : CPartialMerkleTree κ} {padding : List Bool}
    (hn : tree.nTransactions = vTxid.length)
    (hbits : tree.vBits =
      (pushed hash null vTxid vMatch (treeHeight vTxid.length) 0).1 ++ padding)
    (hbytes : (tree.vBits.length + 7) / 8 =
      ((pushed hash null vTxid vMatch (treeHeight vTxid.length) 0).1.length + 7) / 8)
    (hhashes : tree.vHash = (pushed hash null vTxid vMatch (treeHeight vTxid.length) 0).2)
    (hbad : tree.fBad = false) (vnIndex : List ℕ) :
    extractMatches hash null tree vnIndex = extracted hash null vTxid vMatch vnIndex := by
  have hroot : 0 < calcTreeWidth vTxid.length (treeHeight vTxid.length) := by
    rw [lt_calcTreeWidth_iff, Nat.zero_mul]
    exact List.length_pos_iff.mpr hne
  have hwalk := @traverseAndExtract_pushed κ hash null vTxid vMatch _ inj hnodup tree hn
    (treeHeight vTxid.length) 0 hroot ⟨0, 0, [], vnIndex, tree.fBad⟩ padding [] hbits
    (by rw [List.append_nil]; exact hhashes)
  obtain ⟨hleaves, hmore⟩ := @length_pushed κ hash null vTxid vMatch (treeHeight vTxid.length) 0 hroot
  have hguard : ¬ (tree.nTransactions = 0 ∨ tree.nTransactions > maxBlockSize true / 60 ∨
      tree.vHash.length > tree.nTransactions ∨ tree.vBits.length < tree.vHash.length) := by
    have hpos := List.length_pos_iff.mpr hne
    rw [leaves_root, List.length_range] at hleaves
    rw [hn, hhashes, hbits, List.length_append]
    omega
  unfold extractMatches
  rw [if_neg hguard, hn, hwalk]
  simp only [extracted, Extraction.after, hbad, Nat.zero_add, hbytes, hhashes, ne_eq, not_true_eq_false,
    or_self, Bool.false_eq_true, if_false, List.nil_append, matched, leaves_root,
    computeMerkleRoot_eq_calcHash null hne]

theorem extractMatches_ofTxids (inj : ∀ a b a' b', hash a b = hash a' b' → a = a' ∧ b = b')
    (hne : vTxid ≠ []) (hnodup : vTxid.Nodup) (hsize : vTxid.length ≤ maxBlockSize true / 60)
    (vMatch : List Bool) (vnIndex : List ℕ) :
    ∀ tree ∈ [CPartialMerkleTree.ofTxids hash null vTxid vMatch,
      (CPartialMerkleTree.ofTxids hash null vTxid vMatch).roundTrip],
      extractMatches hash null tree vnIndex = extracted hash null vTxid vMatch vnIndex := by
  intro tree htree
  rw [List.mem_cons, List.mem_singleton] at htree
  rcases htree with rfl | rfl
  · exact extractMatches_pushed inj hne hnodup hsize vMatch rfl (List.append_nil _).symm rfl rfl
      rfl vnIndex
  · apply extractMatches_pushed inj hne hnodup hsize vMatch rfl (BitPack.unpack_pack _) _ rfl rfl
    show ((BitPack.unpack (BitPack.pack (pushed hash null vTxid vMatch
      (treeHeight vTxid.length) 0).1)).length + 7) / 8 = _
    rw [BitPack.unpack_pack, List.length_append, List.length_replicate]
    omega

/-! ### What a peer's tree can show -/

omit [DecidableEq κ] in
theorem takeHash_under (tree : CPartialMerkleTree κ) (flag : Bool) (pos : ℕ) (st : Extraction κ)
    (h : (takeHash null tree flag pos st).2.fBad = false) :
    st.fBad = false ∧
      ∃ found, (takeHash null tree flag pos st).2.vMatch = st.vMatch ++ found ∧
        ∀ x ∈ found, Under hash x (takeHash null tree flag pos st).1 := by
  unfold takeHash at h ⊢
  cases hread : tree.vHash[st.nHashUsed]? with
  | none => rw [hread] at h; cases h
  | some x =>
    rw [hread] at h
    cases flag with
    | false => exact ⟨h, [], (List.append_nil _).symm, by simp⟩
    | true => exact ⟨h, [x], rfl, by simpa using Under.self⟩

theorem traverseAndExtract_under (tree : CPartialMerkleTree κ) (height pos : ℕ) (st : Extraction κ)
    (h : (traverseAndExtract hash null tree height pos st).2.fBad = false) :
    st.fBad = false ∧
      ∃ found, (traverseAndExtract hash null tree height pos st).2.vMatch = st.vMatch ++ found ∧
        ∀ x ∈ found, Under hash x (traverseAndExtract hash null tree height pos st).1 := by
  induction height generalizing pos st with
  | zero =>
    rw [traverseAndExtract] at h ⊢
    cases hbit : tree.vBits[st.nBitsUsed]? with
    | none => rw [hbit] at h; cases h
    | some flag => rw [hbit] at h; exact takeHash_under tree flag pos _ h
  | succ height ih =>
    rw [traverseAndExtract] at h ⊢
    cases hbit : tree.vBits[st.nBitsUsed]? with
    | none => rw [hbit] at h; cases h
    | some flag =>
      rw [hbit] at h
      cases flag with
      | false => exact takeHash_under tree false pos _ h
      | true =>
        simp only at h ⊢
        have hleft := ih (pos * 2) { st with nBitsUsed := st.nBitsUsed + 1 }
        generalize traverseAndExtract hash null tree height (pos * 2)
          { st with nBitsUsed := st.nBitsUsed + 1 } = left at h hleft ⊢
        by_cases hwide : pos * 2 + 1 < calcTreeWidth tree.nTransactions height
        · rw [if_pos hwide] at h ⊢
          have hright := ih (pos * 2 + 1) left.2
          generalize traverseAndExtract hash null tree height (pos * 2 + 1) left.2 = right
            at h hright ⊢
          obtain ⟨hgood, found', hfound', hunder'⟩ := hright (Bool.or_eq_false_iff.mp h).1
          obtain ⟨hgood, found, hfound, hunder⟩ := hleft hgood
          refine ⟨hgood, found ++ found', ?_, ?_⟩
          · rw [hfound', hfound, List.append_assoc]
          · intro x hx
            rcases List.mem_append.mp hx with hx | hx
            · exact .left (hunder x hx)
            · exact .right (hunder' x hx)
        · rw [if_neg hwide] at h ⊢
          obtain ⟨hgood, found, hfound, hunder⟩ := hleft h
          exact ⟨hgood, found, hfound, fun x hx => .left (hunder x hx)⟩

theorem extractMatches_under (tree : CPartialMerkleTree κ) (vnIndex : List ℕ)
    (h : (extractMatches hash null tree vnIndex).hashMerkleRoot ≠ null) :
    ∀ x ∈ (extractMatches hash null tree vnIndex).vMatch,
      Under hash x (extractMatches hash null tree vnIndex).hashMerkleRoot := by
  have hwalk := @traverseAndExtract_under κ hash null _ tree (treeHeight tree.nTransactions) 0
    ⟨0, 0, [], vnIndex, tree.fBad⟩
  unfold extractMatches at h ⊢
  generalize traverseAndExtract hash null tree (treeHeight tree.nTransactions) 0
    ⟨0, 0, [], vnIndex, tree.fBad⟩ = walk at h hwalk ⊢
  split at h
  · exact absurd rfl h
  · rename_i hguard
    rw [if_neg hguard]
    simp only at h ⊢
    split at h
    · exact absurd rfl h
    · rename_i hchecks
      rw [if_neg hchecks]
      rw [not_or, Bool.not_eq_true] at hchecks
      obtain ⟨-, found, hfound, hunder⟩ := hwalk hchecks.1
      intro x hx
      apply hunder
      rwa [hfound] at hx

theorem mem_of_under_root {txid : κ → Prop}
    (inj : ∀ a b a' b', hash a b = hash a' b' → a = a' ∧ b = b')
    (hout : ∀ a b, ¬ txid (hash a b)) {x : κ} (hx : txid x) {hashes : List κ} (hne : hashes ≠ [])
    (h : Under hash x (computeMerkleRoot hash null hashes).1) : ∃ y ∈ hashes, Under hash x y := by
  induction hlength : hashes.length using Nat.strongRecOn generalizing hashes with
  | ind n ih =>
    by_cases hlong : 1 < hashes.length
    · have hup := length_levelUp (H := hash) hashes
      rw [computeMerkleRoot_up hlong] at h
      obtain ⟨z, hz, hxz⟩ := ih _ (by omega) (List.length_pos_iff.mp (by omega)) h rfl
      exact Under.of_levelUp inj hout hx hz hxz
    · match hashes, hne with
      | [y], _ =>
        rw [computeMerkleRoot_single] at h
        exact ⟨y, List.mem_singleton_self y, h⟩
      | y :: z :: rest, _ => exact absurd (by simp) hlong

end

/-- The pair hash is free of collisions and its values are not transaction ids. Then the tree built
from a list of ids gives the root of the list and the matched ids with their positions, also from
its serialised form. And a value other than null that is the root of a list of ids comes with
ids of that list only, whatever tree it was extracted from. -/
theorem extractMatches_proves {κ : Type} [DecidableEq κ] (hash : κ → κ → κ) (null : κ)
    (txid : κ → Prop) (inj : ∀ a b a' b', hash a b = hash a' b' → a = a' ∧ b = b')
    (hout : ∀ a b, ¬ txid (hash a b)) :
    (∀ (vTxid : List κ) (vMatch : List Bool), vTxid ≠ [] → vTxid.Nodup →
      vTxid.length ≤ maxBlockSize true / 60 → ∀ vnIndex : List ℕ,
      ∀ tree ∈ [CPartialMerkleTree.ofTxids hash null vTxid vMatch,
        (CPartialMerkleTree.ofTxids hash null vTxid vMatch).roundTrip],
        extractMatches hash null tree vnIndex =
          { hashMerkleRoot := (computeMerkleRoot hash null vTxid).1
            vMatch := ((List.range vTxid.length).filter fun p => vMatch.getD p false).map
              fun p => vTxid.getD p null
            vnIndex := vnIndex ++ (List.range vTxid.length).filter fun p => vMatch.getD p false
            fBad := false }) ∧
    ∀ (tree : CPartialMerkleTree κ) (vnIndex : List ℕ) (L : List κ), (∀ x ∈ L, txid x) →
      (extractMatches hash null tree vnIndex).hashMerkleRoot = (computeMerkleRoot hash null L).1 →
      (extractMatches hash null tree vnIndex).hashMerkleRoot ≠ null →
      ∀ x ∈ (extractMatches hash null tree vnIndex).vMatch, txid x → x ∈ L := by
  refine ⟨fun vTxid vMatch hne hnodup hsize vnIndex =>
    extractMatches_ofTxids inj hne hnodup hsize vMatch vnIndex, ?_⟩
  intro tree vnIndex L hids hroot hnull x hx htxid
  have hne : L ≠ [] := by
    rintro rfl
    exact hnull hroot
  have hunder := extractMatches_under tree vnIndex hnull x hx
  rw [hroot] at hunder
  obtain ⟨y, hy, hxy⟩ := mem_of_under_root inj hout htxid hne hunder
  rw [Under.leaf_eq hout hxy (hids y hy)]
  exact hy

theorem extractMatches_proves_threeIds :
    extractMatches Digest.pair .null (CPartialMerkleTree.ofTxids Digest.pair .null
        [.txid 1, .txid 2, .txid 3] [true, false, true]).roundTrip [] =
      ⟨.pair (.pair (.txid 1) (.txid 2)) (.pair (.txid 3) (.txid 3)), [.txid 1, .txid 3], [0, 2],
        false⟩ ∧
    ∀ x ∈ (extractMatches Digest.pair .null ⟨3, [true, true, true, false, true, true], [.txid 1,
      .txid 2, .txid 3], false⟩ []).vMatch, x.IsTxid → x ∈ [.txid 1, .txid 2, .txid 3] :=
  ⟨((extractMatches_proves Digest.pair .null Digest.IsTxid Digest.pair_injective
      (fun _ _ => id)).1 _ _ (by decide) (by decide) (by decide) [] _
        (List.mem_cons_of_mem _ (List.mem_singleton_self _))).trans (by decide),
    (extractMatches_proves Digest.pair .null Digest.IsTxid Digest.pair_injective
      (fun _ _ => id)).2 _ [] _ (by decide) (by decide) (by decide)⟩

/-- The root of no ids is null, which is also returned when the bits of a peer's tree do not fit;
the matches collected until then are left in the vector. -/
theorem extractMatches_empty_list :
    (extractMatches Digest.pair .null ⟨1, true :: List.replicate 15 false, [.txid 5], false⟩
        []).hashMerkleRoot = (computeMerkleRoot Digest.pair .null []).1 ∧
      .txid 5 ∈ (extractMatches Digest.pair .null ⟨1, true :: List.replicate 15 false, [.txid 5],
        false⟩ []).vMatch ∧
      Digest.IsTxid (.txid 5) ∧ Digest.txid 5 ∉ ([] : List Digest) := by
  decide

end ButCore.Merkle
