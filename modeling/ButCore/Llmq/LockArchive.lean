import ButCore.Lib.KeyScan
import ButCore.Llmq.InputRequests

/-!
# Mined and archived InstantSend locks

The keys `is_m` and `is_a1` hold the height from above and in big-endian order, so that an iterator
meets the highest entries first.
-/
namespace ButCore.Llmq.LockArchive
open InstantSendDb InputRequests
open Std (ExtTreeMap)

inductive Family where
  | isI | isTx | isIn | isM | isA1 | isA2
  deriving DecidableEq

def Family.name : Family → List (BitVec 8)
  | .isI => [0x69, 0x73, 0x5f, 0x69]
  | .isTx => [0x69, 0x73, 0x5f, 0x74, 0x78]
  | .isIn => [0x69, 0x73, 0x5f, 0x69, 0x6e]
  | .isM => [0x69, 0x73, 0x5f, 0x6d]
  | .isA1 => [0x69, 0x73, 0x5f, 0x61, 0x31]
  | .isA2 => [0x69, 0x73, 0x5f, 0x61, 0x32]

def Family.word (k : Family) : List (BitVec 8) := serializeBytes k.name

structure ForeignKey where
  bytes : List (BitVec 8)
  foreign : ∀ k : Family, ¬ k.word <+: bytes

def inversedHeight (nHeight : BitVec 32) : List (BitVec 8) :=
  (leBytes 4 (0xffffffff - nHeight)).reverse

def buildInversedISLockKey (k : Family) (nHeight : BitVec 32) (islockHash : Uint256) :
    List (BitVec 8) :=
  k.word ++ (inversedHeight nHeight ++ leBytes 32 islockHash)

inductive DbKey where
  | isI (hash : Uint256)
  | isTx (txid : Uint256)
  | isIn (outpoint : COutPoint)
  | isM (nHeight : BitVec 32) (hash : Uint256)
  | isA1 (nHeight : BitVec 32) (hash : Uint256)
  | isA2 (hash : Uint256)
  | other (key : ForeignKey)

namespace DbKey

def serialize : DbKey → List (BitVec 8)
  | .isI hash => Family.isI.word ++ leBytes 32 hash
  | .isTx txid => Family.isTx.word ++ leBytes 32 txid
  | .isIn outpoint => Family.isIn.word ++ serializeOutPoint outpoint
  | .isM nHeight hash => buildInversedISLockKey .isM nHeight hash
  | .isA1 nHeight hash => buildInversedISLockKey .isA1 nHeight hash
  | .isA2 hash => Family.isA2.word ++ leBytes 32 hash
  | .other key => key.bytes

/-- `GetKey` into a key of the family `k` with a height. -/
def inversed : Family → DbKey → Option (BitVec 32 × Uint256)
  | .isM, .isM nHeight hash => some (nHeight, hash)
  | .isA1, .isA1 nHeight hash => some (nHeight, hash)
  | _, _ => none

end DbKey

def rank (bytes : List (BitVec 8)) : List ℕ := bytes.map BitVec.toNat

/-- The database of the locks with its other keys; the caches agree with it. -/
structure ArchiveDb where
  locks : CInstantSendDb
  coherent : Coherent locks
  isM : List (BitVec 32 × Uint256)
  isA1 : List (BitVec 32 × Uint256)
  isA2 : List Uint256
  others : List ForeignKey

namespace ArchiveDb

def keys (s : ArchiveDb) : List DbKey :=
  s.locks.db.isI.keys.map .isI ++ s.locks.db.isTx.keys.map .isTx ++ s.locks.db.isIn.keys.map .isIn ++
    s.isM.map (fun e => .isM e.1 e.2) ++ s.isA1.map (fun e => .isA1 e.1 e.2) ++ s.isA2.map .isA2 ++
    s.others.map .other

/-- The test of the loops of `RemoveConfirmedInstantSendLocks` and
`RemoveArchivedInstantSendLocks`. -/
def wanted (k : Family) (nUntilHeight : BitVec 32) (curKey : DbKey) : Bool :=
  match curKey.inversed k with
  | none => false
  | some (nHeight, _) => decide (¬ nHeight > nUntilHeight)

def entriesUntil (s : ArchiveDb) (k : Family) (nUntilHeight : BitVec 32) :
    List (BitVec 32 × Uint256) :=
  (KeyScan.scan (fun key => rank key.serialize) (rank (buildInversedISLockKey k nUntilHeight 0))
    (wanted k nUntilHeight) s.keys).filterMap (DbKey.inversed k)

def empty : ArchiveDb :=
  ⟨.empty, ⟨LruCache.coherent_empty, LruCache.coherent_empty, LruCache.coherent_empty⟩, [], [], [], []⟩

def writeNewInstantSendLock (s : ArchiveDb) (hash : Uint256) (islock : Lock) : ArchiveDb :=
  { s with
    locks := s.locks.writeNewInstantSendLock hash islock
    coherent := s.coherent.writeNewInstantSendLock hash islock }

end ArchiveDb

/-- The body of the loop of `RemoveConfirmedInstantSendLocks`, with the map it returns. -/
def removeConfirmed (st : Removal × List (Uint256 × Lock)) (islockHash : Uint256) :
    Removal × List (Uint256 × Lock) :=
  match removeInstantSendLock st.1 islockHash with
  | (none, r) => (r, st.2)
  | (some islock, r) =>
    (r, if islockHash ∈ st.2.map Prod.fst then st.2 else st.2 ++ [(islockHash, islock)])

section

@[simp] theorem rank_append (a b : List (BitVec 8)) : rank (a ++ b) = rank a ++ rank b :=
  List.map_append

variable {a : List (BitVec 8)}

theorem rank_prefix {b : List (BitVec 8)} : rank a <+: rank b ↔ a <+: b := by
  constructor
  · intro h
    obtain ⟨c, hc, heq⟩ := List.prefix_map_iff.mp h
    rwa [List.map_injective_iff.mpr BitVec.toNat_injective heq]
  · exact fun h => List.IsPrefix.map _ h

theorem word_not_initial {k l : Family} (h : k ≠ l) (rest : List (BitVec 8)) :
    ¬ k.word <+: l.word ++ rest := by
  cases k <;> cases l <;>
    simp_all [Family.word, Family.name, serializeBytes, writeCompactSize]

variable {w : ℕ}

theorem leBytes_succ (count : ℕ) (x : BitVec w) :
    leBytes (count + 1) x = x.setWidth 8 :: leBytes count (x >>> 8) := by
  rw [leBytes, List.range_succ_eq_map, List.map_cons, List.map_map, leBytes]
  refine congrArg₂ _ (by simp) (List.map_congr_left fun i _ => ?_)
  rw [Function.comp_apply, Nat.mul_succ, Nat.add_comm, BitVec.shiftRight_add]

theorem word_of_between {w x y : List (BitVec 8)} (hfirst : rank (w ++ x) ≤ rank a)
    (hlast : rank a ≤ rank (w ++ y)) : w <+: a := by
  rw [← rank_prefix]
  by_contra hnot
  have hlt : rank a < rank (w ++ y) := by
    refine lt_of_le_of_ne hlast fun heq => hnot ?_
    rw [heq, rank_append]
    exact List.prefix_append _ _
  rw [rank_append, KeyScan.lt_append_iff hnot, ← rank_append] at hlt
  exact absurd hlt (not_lt.mpr hfirst)

theorem rank_leBytes (count : ℕ) (x : BitVec w) :
    rank (leBytes count x).reverse = KeyScan.digits 256 count x.toNat := by
  induction count generalizing x with
  | zero => rfl
  | succ count ih =>
    rw [leBytes_succ, List.reverse_cons, rank_append, ih, KeyScan.digits,
      BitVec.toNat_ushiftRight, Nat.shiftRight_eq_div_pow]
    simp [rank]

theorem rank_inversedHeight (nHeight : BitVec 32) :
    rank (inversedHeight nHeight) = KeyScan.digits 256 4 (2 ^ 32 - 1 - nHeight.toNat) := by
  have hsub : (0xffffffff - nHeight).toNat = 2 ^ 32 - 1 - nHeight.toNat := by bv_omega
  rw [inversedHeight, rank_leBytes, hsub]

theorem inversedHeight_lt (a b : BitVec 32) :
    rank (inversedHeight a) < rank (inversedHeight b) ↔ b < a := by
  have ha := a.isLt
  rw [rank_inversedHeight, rank_inversedHeight,
    KeyScan.digits_lt (by omega) (by omega), BitVec.lt_def]
  omega

theorem length_rank (bytes : List (BitVec 8)) : (rank bytes).length = bytes.length :=
  List.length_map _

theorem not_lt_zeros (count : ℕ) (x : BitVec w) :
    ¬ rank (leBytes count x) < rank (leBytes count (0 : BitVec w)) := by
  have hzeros : rank (leBytes count (0 : BitVec w)) = List.replicate count 0 := by
    simp [rank, leBytes]
  have hleast : ∀ l : List ℕ, ¬ l < List.replicate l.length 0 := by
    intro l
    induction l with
    | nil => simp
    | cons n l ih =>
      rw [List.length_cons, List.replicate_succ, List.cons_lt_cons_iff]
      rintro (h | ⟨-, h⟩)
      · exact Nat.not_lt_zero n h
      · exact ih h
  have h := hleast (rank (leBytes count x))
  rwa [length_rank, length_leBytes, ← hzeros] at h

theorem firstKey_le_iff (k : Family) (nUntilHeight nHeight : BitVec 32) (hash : Uint256) :
    rank (buildInversedISLockKey k nUntilHeight 0) ≤ rank (buildInversedISLockKey k nHeight hash) ↔
      ¬ nHeight > nUntilHeight := by
  have hlength : (rank (inversedHeight nHeight)).length =
      (rank (inversedHeight nUntilHeight)).length := by
    rw [rank_inversedHeight, rank_inversedHeight, KeyScan.length_digits, KeyScan.length_digits]
  rw [buildInversedISLockKey, buildInversedISLockKey, rank_append k.word, rank_append k.word,
    KeyScan.append_le_append_iff, ← not_lt, rank_append, rank_append,
    KeyScan.append_lt_append_of_length hlength, inversedHeight_lt]
  simp only [not_lt_zeros, and_false, or_false]

variable {k : Family} {key : DbKey} {e : BitVec 32 × Uint256}

theorem serialize_inversed (h : key.inversed k = some e) :
    key.serialize = buildInversedISLockKey k e.1 e.2 := by
  cases k <;> cases key <;> simp only [DbKey.inversed, Option.some.injEq, reduceCtorEq] at h
  all_goals
    subst h
    rfl

theorem inversed_of_word (h : key.inversed k = some e) {key' : DbKey}
    (hword : k.word <+: key'.serialize) : ∃ e', key'.inversed k = some e' := by
  cases k <;> cases key <;> simp only [DbKey.inversed, Option.some.injEq, reduceCtorEq] at h
  all_goals
    cases key' with
    | isI hash => exact absurd hword (word_not_initial (by decide) _)
    | isTx txid => exact absurd hword (word_not_initial (by decide) _)
    | isIn outpoint => exact absurd hword (word_not_initial (by decide) _)
    | isM nHeight hash => first | exact ⟨_, rfl⟩ | exact absurd hword (word_not_initial (by decide) _)
    | isA1 nHeight hash => first | exact ⟨_, rfl⟩ | exact absurd hword (word_not_initial (by decide) _)
    | isA2 hash => exact absurd hword (word_not_initial (by decide) _)
    | other key => exact absurd hword (key.foreign _)

end

section

variable (s : ArchiveDb) (k : Family) (nUntilHeight : BitVec 32)

theorem mem_entriesUntil (e : BitVec 32 × Uint256) :
    e ∈ s.entriesUntil k nUntilHeight ↔
      (∃ key ∈ s.keys, key.inversed k = some e) ∧ ¬ e.1 > nUntilHeight := by
  have closed : ∀ a ∈ s.keys, ∀ b ∈ s.keys,
      rank (buildInversedISLockKey k nUntilHeight 0) ≤ rank a.serialize →
      rank a.serialize ≤ rank b.serialize → ArchiveDb.wanted k nUntilHeight b = true →
      ArchiveDb.wanted k nUntilHeight a = true := by
    intro a _ b _ hfirst hab hb
    cases hkey : b.inversed k with
    | none => simp [ArchiveDb.wanted, hkey] at hb
    | some e' =>
      rw [serialize_inversed hkey] at hab
      have hword : k.word <+: a.serialize := word_of_between hfirst hab
      obtain ⟨e'', ha⟩ := inversed_of_word hkey hword
      rw [serialize_inversed ha, firstKey_le_iff] at hfirst
      simpa [ArchiveDb.wanted, ha] using hfirst
  rw [ArchiveDb.entriesUntil, ((KeyScan.scan_perm _ closed).filterMap _).mem_iff]
  simp only [List.mem_filterMap, List.mem_filter, Bool.and_eq_true, decide_eq_true_eq]
  constructor
  · rintro ⟨key, ⟨hmem, -, hwanted⟩, hkey⟩
    refine ⟨⟨key, hmem, hkey⟩, ?_⟩
    simpa [ArchiveDb.wanted, hkey] using hwanted
  · rintro ⟨⟨key, hmem, hkey⟩, hheight⟩
    refine ⟨key, ⟨hmem, ?_, ?_⟩, hkey⟩
    · rw [serialize_inversed hkey, firstKey_le_iff]
      exact hheight
    · simpa [ArchiveDb.wanted, hkey] using hheight

theorem mem_keys_isM (e : BitVec 32 × Uint256) :
    (∃ key ∈ s.keys, key.inversed .isM = some e) ↔ e ∈ s.isM := by
  constructor
  · rintro ⟨key, hmem, hkey⟩
    cases key <;> cases hkey
    simpa [ArchiveDb.keys] using hmem
  · exact fun h => ⟨.isM e.1 e.2, by simp [ArchiveDb.keys, h], rfl⟩

theorem mem_keys_isA1 (e : BitVec 32 × Uint256) :
    (∃ key ∈ s.keys, key.inversed .isA1 = some e) ↔ e ∈ s.isA1 := by
  constructor
  · rintro ⟨key, hmem, hkey⟩
    cases key <;> cases hkey
    simpa [ArchiveDb.keys] using hmem
  · exact fun h => ⟨.isA1 e.1 e.2, by simp [ArchiveDb.keys, h], rfl⟩

end

section

variable {D : LockTables} {visited : List Uint256} {r : Removal} {ret : List (Uint256 × Lock)}

structure Returned (D : LockTables) (visited : List Uint256) (ret : List (Uint256 × Lock)) :
    Prop where
  mem : ∀ h islock, (h, islock) ∈ ret ↔ h ∈ visited ∧ D.isI[h]? = some islock
  nodup : (ret.map Prod.fst).Nodup

theorem removeConfirmed_fst (st : Removal × List (Uint256 × Lock)) (h : Uint256) :
    (removeConfirmed st h).1 = (removeInstantSendLock st.1 h).2 := by
  unfold removeConfirmed
  split
  · next heq => rw [heq]
  · next heq => rw [heq]

theorem foldl_removeConfirmed_fst (hashes : List Uint256) (st : Removal × List (Uint256 × Lock)) :
    (hashes.foldl removeConfirmed st).1 =
      hashes.foldl (fun r hash => (removeInstantSendLock r hash).2) st.1 := by
  induction hashes generalizing st with
  | nil => rfl
  | cons h hashes ih => rw [List.foldl_cons, List.foldl_cons, ih, removeConfirmed_fst]

/-- A hash that is not stored, or was returned before, adds nothing. -/
theorem Returned.visit (returned : Returned D visited ret) {h : Uint256}
    (old : ∀ islock, D.isI[h]? = some islock → h ∈ visited) : Returned D (h :: visited) ret := by
  refine ⟨fun k islock => ?_, returned.nodup⟩
  rw [returned.mem, List.mem_cons]
  constructor
  · exact fun hk => ⟨Or.inr hk.1, hk.2⟩
  · rintro ⟨rfl | hk, hstored⟩
    · exact ⟨old islock hstored, hstored⟩
    · exact ⟨hk, hstored⟩

theorem Returned.step (returned : Returned D visited ret) (rem : Removing D visited r)
    (h : Uint256) : Returned D (h :: visited) (removeConfirmed (r, ret) h).2 := by
  have hfst := (rem.step h).1
  unfold removeConfirmed
  cases hremove : removeInstantSendLock r h with
  | mk found r' =>
    rw [hremove] at hfst
    dsimp only at hfst
    subst hfst
    cases hfound : D.isI[h]? with
    | none =>
      refine returned.visit fun islock hstored => ?_
      rw [hfound] at hstored
      cases hstored
    | some islock =>
      dsimp only
      split
      · next hmem =>
          -- the hash had a mined entry at another height
          obtain ⟨⟨h', other⟩, hother, rfl⟩ := List.mem_map.mp hmem
          exact returned.visit fun _ _ => ((returned.mem h' other).mp hother).1
      · next hmem =>
          constructor
          · intro k islock'
            rw [List.mem_append, returned.mem, List.mem_singleton, Prod.mk.injEq, List.mem_cons]
            constructor
            · rintro (hk | ⟨rfl, rfl⟩)
              · exact ⟨Or.inr hk.1, hk.2⟩
              · exact ⟨Or.inl rfl, hfound⟩
            · rintro ⟨rfl | hk, hstored⟩
              · rw [hfound, Option.some.injEq] at hstored
                exact Or.inr ⟨rfl, hstored.symm⟩
              · exact Or.inl ⟨hk, hstored⟩
          · rw [List.map_append, List.map_singleton, List.nodup_append]
            refine ⟨returned.nodup, List.nodup_singleton _, ?_⟩
            rintro a ha b hb rfl
            rw [List.mem_singleton.mp hb] at ha
            exact hmem ha

theorem Returned.foldl (returned : Returned D visited ret) (rem : Removing D visited r)
    (hashes : List Uint256) :
    Returned D (hashes.reverse ++ visited) (hashes.foldl removeConfirmed (r, ret)).2 := by
  induction hashes generalizing visited r ret with
  | nil => exact returned
  | cons h hashes ih =>
    rw [List.reverse_cons, List.append_assoc, List.foldl_cons]
    have hrem : Removing D (h :: visited) (removeConfirmed (r, ret) h).1 := by
      rw [removeConfirmed_fst]
      exact (rem.step h).2
    exact ih (returned.step rem h) hrem

theorem removing_confirmed (s : ArchiveDb) (hashes : List Uint256) :
    Removing s.locks.db hashes.reverse
      (hashes.foldl removeConfirmed (⟨s.locks, .empty, []⟩, [])).1 := by
  have h := (removing_start s.coherent).foldl_remove hashes
  rwa [List.append_nil, ← foldl_removeConfirmed_fst hashes (_, [])] at h

end

def written (r : Removal) : CInstantSendDb := { r.s with db := r.s.db.writeBatch r.batch }

theorem coherent_written {D : LockTables} {visited : List Uint256} {r : Removal}
    (rem : Removing D visited r) : Coherent (written r) := rem.coherent_writeBatch

namespace ArchiveDb

def removeConfirmedInstantSendLocks (s : ArchiveDb) (nUntilHeight : BitVec 32) :
    ArchiveDb × List (Uint256 × Lock) :=
  let found := s.entriesUntil .isM nUntilHeight
  let st := (found.map Prod.snd).foldl removeConfirmed (⟨s.locks, .empty, []⟩, [])
  ({ s with
      locks := written st.1
      coherent := coherent_written (removing_confirmed s (found.map Prod.snd))
      isM := s.isM.filter (· ∉ found)
      isA1 := found ∪ s.isA1
      isA2 := found.map Prod.snd ∪ s.isA2 }, st.2)

def removeArchivedInstantSendLocks (s : ArchiveDb) (nUntilHeight : BitVec 32) : ArchiveDb :=
  let found := s.entriesUntil .isA1 nUntilHeight
  { s with
    isA1 := s.isA1.filter (· ∉ found)
    isA2 := s.isA2.filter (· ∉ found.map Prod.snd) }

def searchChained (s : ArchiveDb) (txid : Uint256) : Removal × Worklist Uint256 :=
  removeLoop (s.locks.db.isI.size + 1) (⟨s.locks, .empty, []⟩, .start txid)

theorem removing_chained (s : ArchiveDb) (islockHash txid : Uint256) :
    ∃ visited, Removing s.locks.db visited
        (removeInstantSendLock (s.searchChained txid).1 islockHash).2 ∧
      ∀ c, c ∈ visited ↔ s.locks.db.Chained islockHash txid c :=
  removeChained_removing s.coherent islockHash txid

def removeChainedInstantSendLocks (s : ArchiveDb) (islockHash txid : Uint256)
    (nHeight : BitVec 32) : ArchiveDb × List Uint256 :=
  let r := InstantSendDb.removeChainedInstantSendLocks s.locks islockHash txid
  let result := r.2
  ({ s with
      locks := r.1
      coherent := coherent_written (s.removing_chained islockHash txid).choose_spec.1
      isA1 := result.map (nHeight, ·) ∪ s.isA1
      isA2 := result ∪ s.isA2 }, result)

end ArchiveDb

variable {R : Uint256 → Prop} {out : LockTables}

section

variable {D : LockTables} {visited : List Uint256} {r : Removal}

/-- The tables without the locks `R` and without the keys these locks are indexed under. -/
structure Erased (D : LockTables) (R : Uint256 → Prop) (out : LockTables) : Prop where
  isI : ∀ h islock, out.isI[h]? = some islock ↔ D.isI[h]? = some islock ∧ ¬ R h
  isTx : ∀ t h, out.isTx[t]? = some h ↔ D.isTx[t]? = some h ∧
    ¬ ∃ k, R k ∧ ∃ islock, D.isI[k]? = some islock ∧ islock.txid = t
  isIn : ∀ (o : COutPoint) h, out.isIn[o]? = some h ↔ D.isIn[o]? = some h ∧
    ¬ ∃ k, R k ∧ ∃ islock, D.isI[k]? = some islock ∧ o ∈ islock.inputs

theorem ite_none_eq_some {α : Type} {p : Prop} [Decidable p] {x : Option α} {a : α} :
    (if p then none else x) = some a ↔ x = some a ∧ ¬ p := by
  split <;> simp_all

theorem erased_written (rem : Removing D visited r) : Erased D (· ∈ visited) (written r).db := by
  have hdb : (written r).db = D.writeBatch r.batch := by rw [written, rem.db]
  refine ⟨?_, ?_, ?_⟩
  · intro h islock
    rw [hdb, writeBatch_isI, ite_none_eq_some, rem.eraseI]
    constructor
    · rintro ⟨hstored, hnot⟩
      exact ⟨hstored, fun hmem => hnot ⟨hmem, by simp [hstored]⟩⟩
    · rintro ⟨hstored, hnot⟩
      exact ⟨hstored, fun hmem => hnot hmem.1⟩
  · intro t h
    rw [hdb, writeBatch_isTx, ite_none_eq_some, rem.eraseTx]
  · intro o h
    rw [hdb, writeBatch_isIn, ite_none_eq_some, rem.eraseIn]

theorem Erased.congr {R' : Uint256 → Prop} (erased : Erased D R out) (h : ∀ k, R k ↔ R' k) : Erased D R' out := by
  rwa [show R' = R from funext fun k => propext (h k).symm]

end

section

variable (s : ArchiveDb) (nUntilHeight : BitVec 32)

def ArchiveDb.Confirmed (h : Uint256) : Prop := ∃ nHeight, ¬ nHeight > nUntilHeight ∧ (nHeight, h) ∈ s.isM

theorem mem_confirmed (h : Uint256) :
    h ∈ ((s.entriesUntil .isM nUntilHeight).map Prod.snd).reverse ↔ s.Confirmed nUntilHeight h := by
  simp only [List.mem_reverse, List.mem_map, mem_entriesUntil, mem_keys_isM, ArchiveDb.Confirmed]
  constructor
  · rintro ⟨⟨nHeight, h⟩, ⟨hmem, hheight⟩, rfl⟩
    exact ⟨nHeight, hheight, hmem⟩
  · rintro ⟨nHeight, hheight, hmem⟩
    exact ⟨(nHeight, h), ⟨hmem, hheight⟩, rfl⟩

end

/-- The loops remove the locks and the entries up to the height, and nothing else. -/
theorem removeInstantSendLocks_until (s : ArchiveDb) (nUntilHeight : BitVec 32) :
    let out := (s.removeConfirmedInstantSendLocks nUntilHeight).1
    let ret := (s.removeConfirmedInstantSendLocks nUntilHeight).2
    let rest := s.removeArchivedInstantSendLocks nUntilHeight
    (Erased s.locks.db (s.Confirmed nUntilHeight) out.locks.db ∧
      (∀ h islock, (h, islock) ∈ ret ↔ s.locks.db.isI[h]? = some islock ∧ s.Confirmed nUntilHeight h) ∧
      (ret.map Prod.fst).Nodup ∧
      (∀ e, e ∈ out.isM ↔ e ∈ s.isM ∧ e.1 > nUntilHeight) ∧
      (∀ e, e ∈ out.isA1 ↔ e ∈ s.isA1 ∨ e ∈ s.isM ∧ e.1 ≤ nUntilHeight) ∧
      (∀ h, h ∈ out.isA2 ↔ h ∈ s.isA2 ∨ s.Confirmed nUntilHeight h) ∧
      out.others = s.others) ∧
    (∀ e, e ∈ rest.isA1 ↔ e ∈ s.isA1 ∧ e.1 > nUntilHeight) ∧
      (∀ h, h ∈ rest.isA2 ↔ h ∈ s.isA2 ∧ ¬ ∃ nHeight, nHeight ≤ nUntilHeight ∧ (nHeight, h) ∈ s.isA1) ∧
      rest.locks = s.locks ∧ rest.isM = s.isM ∧ rest.others = s.others := by
  intro out ret rest
  have rem := removing_confirmed s ((s.entriesUntil .isM nUntilHeight).map Prod.snd)
  have returned : Returned s.locks.db [] [] := ⟨by simp, by simp⟩
  have hret := returned.foldl (removing_start s.coherent)
    ((s.entriesUntil .isM nUntilHeight).map Prod.snd)
  rw [List.append_nil] at hret
  have hmined := mem_confirmed s nUntilHeight
  refine ⟨⟨?_, ?_, ?_, ?_, ?_, ?_, rfl⟩, ?_, ?_, rfl, rfl, rfl⟩
  · exact (erased_written rem).congr hmined
  · intro h islock
    rw [and_comm, ← hmined]
    exact hret.mem h islock
  · exact hret.nodup
  · intro e
    simp only [out, ArchiveDb.removeConfirmedInstantSendLocks, List.mem_filter, decide_eq_true_eq,
      mem_entriesUntil, mem_keys_isM]
    tauto
  · intro e
    simp only [out, ArchiveDb.removeConfirmedInstantSendLocks, List.mem_union_iff, mem_entriesUntil,
      mem_keys_isM, gt_iff_lt, BitVec.not_lt]
    tauto
  · intro h
    rw [← hmined, List.mem_reverse, or_comm]
    exact List.mem_union_iff
  · intro e
    simp only [rest, ArchiveDb.removeArchivedInstantSendLocks, List.mem_filter, decide_eq_true_eq,
      mem_entriesUntil, mem_keys_isA1]
    tauto
  · intro h
    simp only [rest, ArchiveDb.removeArchivedInstantSendLocks, List.mem_filter, decide_eq_true_eq,
      List.mem_map, mem_entriesUntil, mem_keys_isA1, Prod.exists, exists_eq_right, gt_iff_lt,
      BitVec.not_lt]
    simp only [and_comm]

section

/-- Every lock is stored with its keys, and every key belongs to a stored lock: there is one lock per
transaction and per input. -/
structure Mirrors (D : LockTables) : Prop where
  indexedTx : ∀ {h} {islock : Lock}, D.isI[h]? = some islock → D.isTx[islock.txid]? = some h
  indexedIn : ∀ {h} {islock : Lock} {o : COutPoint}, D.isI[h]? = some islock → o ∈ islock.inputs →
    D.isIn[o]? = some h
  ownTx : ∀ {t h}, D.isTx[t]? = some h → ∃ islock : Lock, D.isI[h]? = some islock ∧ islock.txid = t
  ownIn : ∀ {o : COutPoint} {h}, D.isIn[o]? = some h →
    ∃ islock : Lock, D.isI[h]? = some islock ∧ o ∈ islock.inputs

def SpentBy (D : LockTables) (parent txid : Uint256) : Prop :=
  ∃ (h : Uint256) (islock : Lock), D.isI[h]? = some islock ∧ islock.txid = txid ∧
    ∃ o ∈ islock.inputs, o.hash = parent

/-- The lock itself, and the locks of the transactions that descend from `txid`. -/
def Removed (D : LockTables) (islockHash txid h : Uint256) : Prop :=
  h = islockHash ∨
    ∃ islock, D.isI[h]? = some islock ∧ Relation.TransGen (SpentBy D) txid islock.txid

variable {D : LockTables} {islockHash txid h : Uint256}
variable {parent : Uint256}

theorem Mirrors.child_iff (mirror : Mirrors D) {c : Uint256} :
    D.Child parent c ↔
      ∃ islock, D.isI[c]? = some islock ∧ ∃ o ∈ islock.inputs, o.hash = parent := by
  constructor
  · rintro ⟨o, rfl, hin⟩
    obtain ⟨islock, hstored, hmem⟩ := mirror.ownIn hin
    exact ⟨islock, hstored, o, hmem, rfl⟩
  · rintro ⟨islock, hstored, o, hmem, rfl⟩
    exact ⟨o, rfl, mirror.indexedIn hstored hmem⟩

theorem Mirrors.spends_iff (mirror : Mirrors D) :
    D.Spends parent txid ↔ SpentBy D parent txid := by
  constructor
  · rintro ⟨c, islock, hchild, hstored, htxid⟩
    obtain ⟨islock', hstored', hin⟩ := mirror.child_iff.mp hchild
    rw [hstored, Option.some.injEq] at hstored'
    subst hstored'
    exact ⟨c, islock, hstored, htxid, hin⟩
  · rintro ⟨c, islock, hstored, htxid, hin⟩
    exact ⟨c, islock, mirror.child_iff.mpr ⟨islock, hstored, hin⟩, hstored, htxid⟩

theorem Mirrors.descendant_iff (mirror : Mirrors D) :
    (∃ parent, Relation.ReflTransGen D.Spends txid parent ∧ D.Child parent h) ↔
      ∃ islock, D.isI[h]? = some islock ∧ Relation.TransGen (SpentBy D) txid islock.txid := by
  have hspends : D.Spends = SpentBy D := by
    funext parent t
    exact propext mirror.spends_iff
  rw [hspends]
  constructor
  · rintro ⟨parent, hpath, hchild⟩
    obtain ⟨islock, hstored, hin⟩ := mirror.child_iff.mp hchild
    exact ⟨islock, hstored, Relation.TransGen.tail' hpath ⟨h, islock, hstored, rfl, hin⟩⟩
  · rintro ⟨islock, hstored, hpath⟩
    obtain ⟨parent, hpath, h', islock', hstored', htxid, hin⟩ := Relation.TransGen.tail'_iff.mp hpath
    -- the last lock of the path has the same transaction, so it is this lock
    have hsame : h' = h := by
      have htx := mirror.indexedTx hstored'
      rw [htxid, mirror.indexedTx hstored, Option.some.injEq] at htx
      exact htx.symm
    subst hsame
    exact ⟨parent, hpath, mirror.child_iff.mpr ⟨islock', hstored', hin⟩⟩

theorem Mirrors.chained_iff (mirror : Mirrors D) :
    D.Chained islockHash txid h ↔ Removed D islockHash txid h :=
  or_congr_right mirror.descendant_iff

theorem Mirrors.erased_isTx (mirror : Mirrors D) (erased : Erased D R out) (t h : Uint256) :
    out.isTx[t]? = some h ↔ D.isTx[t]? = some h ∧ ¬ R h := by
  rw [erased.isTx, and_congr_right_iff]
  intro htx
  refine not_congr ⟨?_, fun hR => ?_⟩
  · rintro ⟨k, hR, islock, hstored, rfl⟩
    rw [mirror.indexedTx hstored, Option.some.injEq] at htx
    exact htx ▸ hR
  · obtain ⟨islock, hstored, htxid⟩ := mirror.ownTx htx
    exact ⟨h, hR, islock, hstored, htxid⟩

theorem Mirrors.erased_isIn (mirror : Mirrors D) (erased : Erased D R out) (o : COutPoint)
    (h : Uint256) :
    out.isIn[o]? = some h ↔ D.isIn[o]? = some h ∧ ¬ R h := by
  rw [erased.isIn, and_congr_right_iff]
  intro hin
  refine not_congr ⟨?_, fun hR => ?_⟩
  · rintro ⟨k, hR, islock, hstored, hmem⟩
    rw [mirror.indexedIn hstored hmem, Option.some.injEq] at hin
    exact hin ▸ hR
  · obtain ⟨islock, hstored, hmem⟩ := mirror.ownIn hin
    exact ⟨h, hR, islock, hstored, hmem⟩

theorem mirrors_empty : Mirrors ArchiveDb.empty.locks.db := by
  constructor <;> simp [ArchiveDb.empty, CInstantSendDb.empty]

theorem Mirrors.writeNewInstantSendLock {s : CInstantSendDb} (mirror : Mirrors s.db) {islock : Lock}
    (newI : s.db.isI[h]? = none) (newTx : s.db.isTx[islock.txid]? = none)
    (newIn : ∀ o ∈ islock.inputs, s.db.isIn[o]? = none) :
    Mirrors (s.writeNewInstantSendLock h islock).db := by
  have hother : ∀ {k other}, s.db.isI[k]? = some other → k ≠ h := by
    rintro k other hstored rfl
    rw [newI] at hstored
    cases hstored
  refine ⟨?_, ?_, ?_, ?_⟩
  · intro k other hstored
    rw [writeNew_isI] at hstored
    split at hstored
    · next hk =>
        cases hstored
        rw [writeNew_isTx, if_pos rfl, hk]
    · have htx := mirror.indexedTx hstored
      rw [writeNew_isTx, if_neg ?_, htx]
      intro heq
      rw [heq, newTx] at htx
      cases htx
  · intro k other o hstored ho
    rw [writeNew_isI] at hstored
    split at hstored
    · next hk =>
        cases hstored
        rw [writeNew_isIn, if_pos ho, hk]
    · have hin := mirror.indexedIn hstored ho
      rw [writeNew_isIn, if_neg ?_, hin]
      intro hmem
      rw [newIn o hmem] at hin
      cases hin
  · intro t k htx
    rw [writeNew_isTx] at htx
    split at htx
    · next ht =>
        cases htx
        exact ⟨islock, by rw [writeNew_isI, if_pos rfl], ht.symm⟩
    · obtain ⟨other, hstored, htxid⟩ := mirror.ownTx htx
      exact ⟨other, by rw [writeNew_isI, if_neg (hother hstored), hstored], htxid⟩
  · intro o k hin
    rw [writeNew_isIn] at hin
    split at hin
    · next ho =>
        cases hin
        exact ⟨islock, by rw [writeNew_isI, if_pos rfl], ho⟩
    · obtain ⟨other, hstored, hmem⟩ := mirror.ownIn hin
      exact ⟨other, by rw [writeNew_isI, if_neg (hother hstored), hstored], hmem⟩

theorem removeInstantSendLock_result {r : Removal} (hr : r.result = r.batch.eraseI) (h : Uint256) :
    (removeInstantSendLock r h).2.result = (removeInstantSendLock r h).2.batch.eraseI := by
  unfold removeInstantSendLock
  split
  · exact hr
  · exact congrArg (· ++ [h]) hr

variable {st : Removal × Worklist Uint256}

theorem removeChild_result (hr : st.1.result = st.1.batch.eraseI) (c : Uint256) : (removeChild st c).1.result = (removeChild st c).1.batch.eraseI := by
  have h := removeInstantSendLock_result hr c
  unfold removeChild
  split
  · next heq =>
      rw [heq] at h
      exact h
  · next heq =>
      rw [heq] at h
      exact h

theorem removeLoop_result (fuel : ℕ) (hr : st.1.result = st.1.batch.eraseI) :
    (removeLoop fuel st).1.result = (removeLoop fuel st).1.batch.eraseI := by
  induction fuel generalizing st with
  | zero => exact hr
  | succ fuel ih =>
    rw [removeLoop]
    split
    · exact hr
    · apply ih
      exact List.foldlRecOn
        (motive := fun st : Removal × Worklist Uint256 => st.1.result = st.1.batch.eraseI) _ _ hr
        fun st' hst' c _ => removeChild_result hst' c

theorem Mirrors.mem_result {s : ArchiveDb} (mirror : Mirrors s.locks.db) :
    h ∈ (s.searchChained txid).1.result ++ [islockHash] ↔
      Removed s.locks.db islockHash txid h := by
  obtain ⟨visited, rem, hvisited⟩ := (searching_start s.coherent txid).removeLoop
    (s.locks.db.isI.size + 1) (roundsLeft_start s.locks.db txid)
  have hresult : (s.searchChained txid).1.result = (s.searchChained txid).1.batch.eraseI :=
    removeLoop_result _ rfl
  have hvisited' := hvisited h
  rw [mirror.descendant_iff] at hvisited'
  rw [List.mem_append, List.mem_singleton, or_comm, hresult, Removed, ← hvisited']
  refine or_congr_right ?_
  rw [ArchiveDb.searchChained, rem.eraseI, and_iff_left_iff_imp, hvisited']
  rintro ⟨islock, hstored, -⟩
  simp [hstored]

end

/-- The removal ends; it takes the lock and the locks that descend from its transaction, archives
them at the height, and leaves the other locks and their keys. -/
theorem removeChainedInstantSendLocks_exact (s : ArchiveDb) (mirror : Mirrors s.locks.db)
    (islockHash txid : Uint256) (nHeight : BitVec 32) :
    let out := (s.removeChainedInstantSendLocks islockHash txid nHeight).1
    let result := (s.removeChainedInstantSendLocks islockHash txid nHeight).2
    let R := Removed s.locks.db islockHash txid
    (s.searchChained txid).2.stack = [] ∧
      (∀ (h : Uint256) islock, out.locks.db.isI[h]? = some islock ↔
        s.locks.db.isI[h]? = some islock ∧ ¬ R h) ∧
      (∀ (t h : Uint256), out.locks.db.isTx[t]? = some h ↔ s.locks.db.isTx[t]? = some h ∧ ¬ R h) ∧
      (∀ (o : COutPoint) h, out.locks.db.isIn[o]? = some h ↔ s.locks.db.isIn[o]? = some h ∧ ¬ R h) ∧
      (∀ h, h ∈ result ↔ R h) ∧
      (∀ e, e ∈ out.isA1 ↔ e ∈ s.isA1 ∨ e.1 = nHeight ∧ R e.2) ∧
      (∀ h, h ∈ out.isA2 ↔ h ∈ s.isA2 ∨ R h) ∧
      out.isM = s.isM ∧ out.others = s.others ∧
      Coherent out.locks := by
  intro out result R
  obtain ⟨visited, rem, hvisited⟩ := s.removing_chained islockHash txid
  have erased : Erased s.locks.db R out.locks.db :=
    (erased_written rem).congr fun h => (hvisited h).trans mirror.chained_iff
  have hresult : ∀ h, h ∈ result ↔ R h := fun h => mirror.mem_result
  have hends := (searching_start s.coherent txid).removeLoop_ends (s.locks.db.isI.size + 1)
    (roundsLeft_start s.locks.db txid)
  refine ⟨hends.2, erased.isI, mirror.erased_isTx erased, mirror.erased_isIn erased, hresult,
    ?_, ?_, rfl, rfl, out.coherent⟩
  · rintro ⟨height, h⟩
    refine List.mem_union_iff.trans ?_
    rw [or_comm, List.mem_map]
    refine or_congr_right ⟨?_, ?_⟩
    · rintro ⟨h', hmem, heq⟩
      rw [Prod.mk.injEq] at heq
      obtain ⟨rfl, rfl⟩ := heq
      exact ⟨rfl, (hresult h').mp hmem⟩
    · rintro ⟨rfl, hR⟩
      exact ⟨h, (hresult h).mpr hR, rfl⟩
  · intro h
    rw [← hresult, or_comm]
    exact List.mem_union_iff

def toyArchive : ArchiveDb :=
  (ArchiveDb.empty.writeNewInstantSendLock 101 ⟨[⟨9, 0⟩], 1, none⟩).writeNewInstantSendLock 102
    ⟨[⟨1, 0⟩], 2, none⟩

theorem toyArchive_mirrors : Mirrors toyArchive.locks.db := by
  have first : Mirrors (ArchiveDb.empty.writeNewInstantSendLock 101 ⟨[⟨9, 0⟩], 1, none⟩).locks.db := by
    refine mirrors_empty.writeNewInstantSendLock ?_ ?_ ?_
    · simp [ArchiveDb.empty, CInstantSendDb.empty]
    · simp [ArchiveDb.empty, CInstantSendDb.empty]
    · simp [ArchiveDb.empty, CInstantSendDb.empty]
  refine first.writeNewInstantSendLock ?_ ?_ ?_
  · exact (writeNew_isI _ _ _ 102).trans (by simp [ArchiveDb.empty, CInstantSendDb.empty])
  · exact (writeNew_isTx _ _ _ 2).trans (by simp [ArchiveDb.empty, CInstantSendDb.empty])
  · intro o ho
    rw [List.mem_singleton.mp ho]
    exact (writeNew_isIn _ _ _ ⟨1, 0⟩).trans (by simp [ArchiveDb.empty, CInstantSendDb.empty])

theorem removeChainedInstantSendLocks_toy :
    Mirrors toyArchive.locks.db ∧
      (7, 102) ∈ (toyArchive.removeChainedInstantSendLocks 101 1 7).1.isA1 ∧
      (7, 101) ∈ (toyArchive.removeChainedInstantSendLocks 101 1 7).1.isA1 := by
  have harchive := (removeChainedInstantSendLocks_exact toyArchive toyArchive_mirrors 101 1 7).2.2.2.2.2.1
  have hstored : toyArchive.locks.db.isI[(102 : Uint256)]? = some ⟨[⟨1, 0⟩], 2, none⟩ :=
    (writeNew_isI _ _ _ 102).trans (if_pos rfl)
  have hspent : SpentBy toyArchive.locks.db 1 2 :=
    ⟨102, _, hstored, rfl, ⟨1, 0⟩, List.mem_singleton.mpr rfl, rfl⟩
  refine ⟨toyArchive_mirrors, (harchive (7, 102)).mpr (Or.inr ⟨rfl, Or.inr ?_⟩),
    (harchive (7, 101)).mpr (Or.inr ⟨rfl, Or.inl rfl⟩)⟩
  exact ⟨_, hstored, .single hspent⟩

end ButCore.Llmq.LockArchive
