import ButCore.Lib.MerkleTree
import ButCore.Validation.CheckBlock

/-!
# The Merkle root of a block

`ComputeMerkleRoot` repeats the last hash of an odd level, so lists of transaction ids of different
lengths can have one root; the flag `mutated` reports two equal hashes in one pair. Hashes are any
type with a pair hash. Where the pair hash has to be free of collisions it cannot live on 256 bits,
so the results are about such a type.
-/
namespace ButCore.Merkle
open MerkleTree Checked

section

variable {κ : Type} (sha256D64 : κ → κ → κ)

def padOdd (hashes : List κ) : List κ :=
  if hashes.length % 2 = 1 then hashes ++ hashes.getLast?.toList else hashes

def hashPairs : List κ → List κ
  | left :: right :: rest => sha256D64 left right :: hashPairs rest
  | _ => []

variable [DecidableEq κ]

def equalPair : List κ → Bool
  | left :: right :: rest => decide (left = right) || equalPair rest
  | _ => false

/-- The loop of `ComputeMerkleRoot`. -/
def computeLoop : ℕ → List κ → Bool → List κ × Bool
  | 0, hashes, mutation => (hashes, mutation)
  | fuel + 1, hashes, mutation =>
    if 1 < hashes.length then
      computeLoop fuel (hashPairs sha256D64 (padOdd hashes)) (mutation || equalPair hashes)
    else (hashes, mutation)

/-- The root and `mutated`. Every round shortens the list, so its length is fuel enough. -/
def computeMerkleRoot (null : κ) (hashes : List κ) : κ × Bool :=
  let (hashes, mutation) := computeLoop sha256D64 hashes.length hashes false
  (hashes.head?.getD null, mutation)

def blockMerkleRoot {τ : Type} (null : κ) (getHash : τ → κ) (vtx : List τ) : κ × Bool :=
  computeMerkleRoot sha256D64 null (vtx.map getHash)

/-- The part of `CheckBlock` that reads the root. -/
def checkMerkleRoot {τ : Type} (null : κ) (getHash : τ → κ) (hashMerkleRoot : κ) (vtx : List τ) :
    Except Validation.Invalid Unit := do
  let (hashMerkleRoot2, mutated) := blockMerkleRoot sha256D64 null getHash vtx
  failIf (hashMerkleRoot ≠ hashMerkleRoot2) ⟨100, .invalid, "bad-txnmrklroot", true⟩
  failIf (mutated = true) ⟨100, .invalid, "bad-txns-duplicate", true⟩

end

section

variable {κ : Type} {sha256D64 : κ → κ → κ}

theorem hashPairs_append (hashes : List κ) (h : hashes.length % 2 = 0) {pairs rest : List κ}
    (hrest : hashPairs sha256D64 pairs = levelUp sha256D64 rest) :
    hashPairs sha256D64 (hashes ++ pairs) = levelUp sha256D64 (hashes ++ rest) := by
  induction hashes using hashPairs.induct with
  | case1 left right hashes ih =>
    have heven : hashes.length % 2 = 0 := by
      simp only [List.length_cons] at h
      omega
    exact congrArg (sha256D64 left right :: ·) (ih heven)
  | case2 hashes hshort =>
    match hashes with
    | [] => exact hrest
    | [x] => simp at h
    | left :: right :: hashes => exact absurd rfl (hshort left right hashes)

theorem hashPairs_padOdd (hashes : List κ) :
    hashPairs sha256D64 (padOdd hashes) = levelUp sha256D64 hashes := by
  unfold padOdd
  by_cases hodd : hashes.length % 2 = 1
  · rw [if_pos hodd]
    cases hashes using List.reverseRecOn with
    | nil => simp at hodd
    | append_singleton init last _ =>
      rw [List.getLast?_append, List.getLast?_singleton]
      rw [List.length_append, List.length_singleton] at hodd
      rw [List.append_assoc]
      exact hashPairs_append init (by omega) rfl
  · rw [if_neg hodd]
    have hnil : hashPairs sha256D64 ([] : List κ) = levelUp sha256D64 [] := rfl
    simpa only [List.append_nil] using hashPairs_append hashes (by omega) hnil

variable [DecidableEq κ]

theorem equalPair_eq (hashes : List κ) : equalPair hashes = twins hashes := by
  induction hashes using equalPair.induct with
  | case1 left right rest ih => rw [equalPair, twins, ih]
  | case2 hashes hshort =>
    rcases hashes with _ | ⟨left, _ | ⟨right, rest⟩⟩
    · rfl
    · rfl
    · exact absurd rfl (hshort left right rest)

theorem computeLoop_succ {fuel : ℕ} {hashes : List κ} (h : 1 < hashes.length) (mutation : Bool) :
    computeLoop sha256D64 (fuel + 1) hashes mutation =
      computeLoop sha256D64 fuel (levelUp sha256D64 hashes) (mutation || twins hashes) := by
  rw [computeLoop, if_pos h, hashPairs_padOdd, equalPair_eq]

theorem computeLoop_short {fuel : ℕ} {hashes : List κ} (h : hashes.length ≤ 1) (mutation : Bool) :
    computeLoop sha256D64 fuel hashes mutation = (hashes, mutation) := by
  cases fuel with
  | zero => rfl
  | succ fuel => rw [computeLoop, if_neg (not_lt.mpr h)]

theorem computeLoop_mutation (fuel : ℕ) (hashes : List κ) (mutation : Bool) :
    computeLoop sha256D64 fuel hashes mutation =
      ((computeLoop sha256D64 fuel hashes false).1,
        mutation || (computeLoop sha256D64 fuel hashes false).2) := by
  induction fuel generalizing hashes mutation with
  | zero => simp [computeLoop]
  | succ fuel ih =>
    by_cases hlong : 1 < hashes.length
    · rw [computeLoop_succ hlong, computeLoop_succ hlong, ih, ih _ (false || twins hashes)]
      simp [Bool.or_assoc]
    · rw [computeLoop_short (not_lt.mp hlong), computeLoop_short (not_lt.mp hlong),
        Bool.or_false]

theorem computeLoop_fuel {fuel fuel' : ℕ} {hashes : List κ} (h : hashes.length ≤ fuel)
    (h' : hashes.length ≤ fuel') (mutation : Bool) :
    computeLoop sha256D64 fuel hashes mutation = computeLoop sha256D64 fuel' hashes mutation := by
  induction fuel generalizing fuel' hashes mutation with
  | zero => rw [computeLoop_short (by omega), computeLoop_short (by omega)]
  | succ fuel ih =>
    by_cases hlong : 1 < hashes.length
    · obtain ⟨fuel', rfl⟩ := Nat.exists_eq_succ_of_ne_zero (by omega : fuel' ≠ 0)
      have hup := length_levelUp (H := sha256D64) hashes
      rw [computeLoop_succ hlong, computeLoop_succ hlong]
      exact ih (by omega) (by omega) _
    · rw [computeLoop_short (not_lt.mp hlong), computeLoop_short (not_lt.mp hlong)]

variable {null : κ}

theorem computeMerkleRoot_single (x : κ) : computeMerkleRoot sha256D64 null [x] = (x, false) := by
  unfold computeMerkleRoot
  rw [computeLoop_short (by simp)]
  rfl

theorem computeMerkleRoot_up {hashes : List κ} (h : 1 < hashes.length) :
    computeMerkleRoot sha256D64 null hashes =
      ((computeMerkleRoot sha256D64 null (levelUp sha256D64 hashes)).1,
        twins hashes || (computeMerkleRoot sha256D64 null (levelUp sha256D64 hashes)).2) := by
  have hup := length_levelUp (H := sha256D64) hashes
  have hmore : computeLoop sha256D64 hashes.length hashes false =
      computeLoop sha256D64 (hashes.length + 1) hashes false :=
    computeLoop_fuel le_rfl (Nat.le_succ _) false
  have hless : computeLoop sha256D64 hashes.length (levelUp sha256D64 hashes) (twins hashes) =
      computeLoop sha256D64 (levelUp sha256D64 hashes).length (levelUp sha256D64 hashes)
        (twins hashes) :=
    computeLoop_fuel (by omega) le_rfl _
  unfold computeMerkleRoot
  rw [hmore, computeLoop_succ h, Bool.false_or, hless, computeLoop_mutation]

end

/-! ### Collisions of the root -/

section

variable {κ : Type} [DecidableEq κ] {sha256D64 : κ → κ → κ} {txid : κ → Prop}

theorem rank_root (null : κ) {k : ℕ} {hashes : List κ} (hne : hashes ≠ [])
    (h : ∀ x ∈ hashes, Rank sha256D64 txid k x) :
    ∃ d, Rank sha256D64 txid (k + d) (computeMerkleRoot sha256D64 null hashes).1 ∧
      (1 < hashes.length ↔ 0 < d) := by
  induction hlength : hashes.length using Nat.strongRecOn generalizing k hashes with
  | ind n ih =>
    by_cases hlong : 1 < hashes.length
    · have hup := length_levelUp (H := sha256D64) hashes
      have hne' : levelUp sha256D64 hashes ≠ [] := by
        rw [← List.length_pos_iff]
        omega
      obtain ⟨d, hd, -⟩ := ih _ (by omega) hne' (rank_levelUp h) rfl
      refine ⟨d + 1, ?_, iff_of_true (hlength ▸ hlong) (Nat.succ_pos d)⟩
      rw [computeMerkleRoot_up hlong]
      rwa [Nat.add_comm d 1, ← Nat.add_assoc]
    · match hashes, hne with
      | [x], _ =>
        refine ⟨0, ?_, iff_of_false (hlength ▸ hlong) (lt_irrefl 0)⟩
        rw [computeMerkleRoot_single]
        exact h x (List.mem_singleton_self x)
      | x :: y :: rest, _ => exact absurd (by simp) hlong

variable (inj : ∀ a b a' b', sha256D64 a b = sha256D64 a' b' → a = a' ∧ b = b')

include inj

theorem mutated_of_nodup (null : κ) {hashes : List κ} (h : hashes.Nodup) :
    (computeMerkleRoot sha256D64 null hashes).2 = false := by
  induction hlength : hashes.length using Nat.strongRecOn generalizing hashes with
  | ind n ih =>
    by_cases hlong : 1 < hashes.length
    · have hup := length_levelUp (H := sha256D64) hashes
      rw [computeMerkleRoot_up hlong]
      exact Bool.or_eq_false_iff.mpr
        ⟨twins_of_nodup h, ih _ (by omega) (nodup_levelUp inj h) rfl⟩
    · unfold computeMerkleRoot
      rw [computeLoop_short (not_lt.mp hlong)]

variable (hout : ∀ a b, ¬ txid (sha256D64 a b))

include hout

/-- By the levels: with one root the lists have equally many levels, and without a flag a level is
determined by the one above. -/
theorem eq_of_root_eq (null : κ) {k : ℕ} {xs ys : List κ} (hxne : xs ≠ []) (hyne : ys ≠ [])
    (hx : ∀ x ∈ xs, Rank sha256D64 txid k x) (hy : ∀ y ∈ ys, Rank sha256D64 txid k y)
    (hroot : (computeMerkleRoot sha256D64 null xs).1 = (computeMerkleRoot sha256D64 null ys).1)
    (hxflag : (computeMerkleRoot sha256D64 null xs).2 = false)
    (hyflag : (computeMerkleRoot sha256D64 null ys).2 = false) : xs = ys := by
  induction hlength : xs.length using Nat.strongRecOn generalizing k xs ys with
  | ind n ih =>
    obtain ⟨dx, hrankx, hposx⟩ := rank_root null hxne hx
    obtain ⟨dy, hranky, hposy⟩ := rank_root null hyne hy
    have hdepth : k + dx = k + dy := Rank.unique inj hout hrankx (hroot ▸ hranky)
    by_cases hxlong : 1 < xs.length
    · by_cases hylong : 1 < ys.length
      · have hxup := length_levelUp (H := sha256D64) xs
        have hyup := length_levelUp (H := sha256D64) ys
        rw [computeMerkleRoot_up hxlong, computeMerkleRoot_up hylong] at hroot
        rw [computeMerkleRoot_up hxlong, Bool.or_eq_false_iff] at hxflag
        rw [computeMerkleRoot_up hylong, Bool.or_eq_false_iff] at hyflag
        have hup : levelUp sha256D64 xs = levelUp sha256D64 ys :=
          ih _ (by omega) (List.length_pos_iff.mp (by omega)) (List.length_pos_iff.mp (by omega))
            (rank_levelUp hx) (rank_levelUp hy) hroot hxflag.2 hyflag.2 rfl
        exact levelUp_inj inj hxflag.1 hyflag.1 hup
      · -- the root of `ys` is its only hash, of a lower rank than the root of `xs`
        omega
    · match xs, hxne, ys, hyne with
      | [x], _, [y], _ =>
        rw [computeMerkleRoot_single, computeMerkleRoot_single] at hroot
        rw [show x = y from hroot]
      | [x], _, y :: z :: rest, _ =>
        simp only [List.length_cons] at hposy
        omega
      | x :: z :: rest, _, _, _ => exact absurd (by simp) hxlong

theorem mutated_of_root_eq (null : κ) {xs ys : List κ} (hxne : xs ≠ []) (hyne : ys ≠ [])
    (hx : ∀ x ∈ xs, txid x) (hy : ∀ y ∈ ys, txid y) (hdiff : xs ≠ ys)
    (hroot : (computeMerkleRoot sha256D64 null xs).1 = (computeMerkleRoot sha256D64 null ys).1) :
    (computeMerkleRoot sha256D64 null xs).2 = true ∨
      (computeMerkleRoot sha256D64 null ys).2 = true := by
  by_contra hflags
  rw [not_or, Bool.not_eq_true, Bool.not_eq_true] at hflags
  exact hdiff (eq_of_root_eq inj hout null hxne hyne (fun x h => .leaf (hx x h))
    (fun y h => .leaf (hy y h)) hroot hflags.1 hflags.2)

end

theorem checkMerkleRoot_eq_ok {κ τ : Type} [DecidableEq κ] {sha256D64 : κ → κ → κ} {null : κ}
    {getHash : τ → κ} {hashMerkleRoot : κ} {vtx : List τ} :
    checkMerkleRoot sha256D64 null getHash hashMerkleRoot vtx = .ok () ↔
      blockMerkleRoot sha256D64 null getHash vtx = (hashMerkleRoot, false) := by
  unfold checkMerkleRoot
  cases blockMerkleRoot sha256D64 null getHash vtx with
  | mk root mutated =>
    simp only [bind_eq_ok, failIf_eq_ok, Prod.mk.injEq]
    cases mutated <;> simp [eq_comm]

/-- The hash of pairs is free of collisions and its values are not transaction ids. Then of two
lists of ids with one root at least one is flagged, a list without repeated ids never is, and no
two bodies pass the check against one root. -/
theorem computeMerkleRoot_binds {κ τ : Type} [DecidableEq κ] (sha256D64 : κ → κ → κ) (null : κ)
    (txid : κ → Prop) (inj : ∀ a b a' b', sha256D64 a b = sha256D64 a' b' → a = a' ∧ b = b')
    (hout : ∀ a b, ¬ txid (sha256D64 a b)) :
    (∀ xs ys : List κ, xs ≠ [] → ys ≠ [] → (∀ x ∈ xs, txid x) → (∀ y ∈ ys, txid y) → xs ≠ ys →
      (computeMerkleRoot sha256D64 null xs).1 = (computeMerkleRoot sha256D64 null ys).1 →
      (computeMerkleRoot sha256D64 null xs).2 = true ∨
        (computeMerkleRoot sha256D64 null ys).2 = true) ∧
    (∀ xs : List κ, xs.Nodup → (computeMerkleRoot sha256D64 null xs).2 = false) ∧
    ∀ getHash : τ → κ, Function.Injective getHash → (∀ tx, txid (getHash tx)) →
      ∀ (hashMerkleRoot : κ) (vtx vtx' : List τ), vtx ≠ [] → vtx' ≠ [] →
        checkMerkleRoot sha256D64 null getHash hashMerkleRoot vtx = .ok () →
        checkMerkleRoot sha256D64 null getHash hashMerkleRoot vtx' = .ok () → vtx = vtx' := by
  refine ⟨fun xs ys hxne hyne hx hy => mutated_of_root_eq inj hout null hxne hyne hx hy,
    fun xs => mutated_of_nodup inj null, ?_⟩
  intro getHash hinj hids hashMerkleRoot vtx vtx' hne hne' hcheck hcheck'
  rw [checkMerkleRoot_eq_ok, blockMerkleRoot] at hcheck hcheck'
  have hrank : ∀ vtx : List τ, ∀ x ∈ vtx.map getHash, Rank sha256D64 txid 0 x := by
    intro vtx x hx
    obtain ⟨tx, -, rfl⟩ := List.mem_map.mp hx
    exact .leaf (hids tx)
  apply List.map_injective_iff.mpr hinj
  apply eq_of_root_eq inj hout null (by simpa using hne) (by simpa using hne')
    (hrank vtx) (hrank vtx')
  · rw [hcheck, hcheck']
  · rw [hcheck]
  · rw [hcheck']

/-- Hashes that are null, ids or pairs of hashes: a pair hash without collisions. -/
inductive Digest where
  | null
  | txid (n : ℕ)
  | pair (left right : Digest)
  deriving DecidableEq

def Digest.IsTxid : Digest → Prop
  | .txid _ => True
  | _ => False

instance : DecidablePred Digest.IsTxid
  | .null => isFalse id
  | .txid _ => isTrue trivial
  | .pair _ _ => isFalse id

theorem Digest.pair_injective (a b a' b' : Digest) (h : pair a b = pair a' b') :
    a = a' ∧ b = b' := by
  cases h
  exact ⟨rfl, rfl⟩

/-- The lists of the comment in the source, shortened: three ids, and four with the last repeated. -/
theorem computeMerkleRoot_binds_repeatedLast :
    (computeMerkleRoot Digest.pair .null [.txid 1, .txid 2, .txid 3]).1 =
      (computeMerkleRoot Digest.pair .null [.txid 1, .txid 2, .txid 3, .txid 3]).1 ∧
    ((computeMerkleRoot Digest.pair .null [.txid 1, .txid 2, .txid 3]).2 = true ∨
      (computeMerkleRoot Digest.pair .null [.txid 1, .txid 2, .txid 3, .txid 3]).2 = true) :=
  ⟨by decide, (@computeMerkleRoot_binds Digest Unit _ Digest.pair .null Digest.IsTxid
    Digest.pair_injective (fun _ _ => id)).1 _ _ (by decide) (by decide) (by decide) (by decide)
    (by decide) (by decide)⟩

end ButCore.Merkle
