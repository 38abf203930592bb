import ButCore.Lib.Ranking
import ButCore.Evo.BuildSafety
import ButCore.Merkle

/-!
# Simplified lists and their differences

A light client keeps the simplified entries of a list.
-/
namespace ButCore.Evo

open CDeterministicMNList

structure CSimplifiedMNListEntry where
  proRegTxHash : Uint256
  confirmedHash : Uint256
  service : CService
  pubKeyOperator : CBLSPublicKey
  keyIDVoting : CKeyID
  isValid : Bool
  deriving DecidableEq

def CSimplifiedMNListEntry.ofMN (dmn : CDeterministicMN) : CSimplifiedMNListEntry where
  proRegTxHash := dmn.proTxHash
  confirmedHash := dmn.pdmnState.confirmedHash
  service := dmn.pdmnState.addr
  pubKeyOperator := dmn.pdmnState.pubKeyOperator
  keyIDVoting := dmn.pdmnState.keyIDVoting
  isValid := dmn.pdmnState.nPoSeBanHeight == -1

open CSimplifiedMNListEntry (ofMN)

structure CSimplifiedMNListDiff where
  baseBlockHash : Uint256
  blockHash : Uint256
  deletedMNs : List Uint256
  mnList : List CSimplifiedMNListEntry

def CDeterministicMNList.buildSimplifiedDiff (list target : CDeterministicMNList) :
    CSimplifiedMNListDiff where
  baseBlockHash := list.blockHash
  blockHash := target.blockHash
  mnList := (target.allMNs.filter fun toPtr =>
    match list.getMN toPtr.proTxHash with
    | none => true
    | some fromPtr => decide (ofMN toPtr ≠ ofMN fromPtr)).map ofMN
  deletedMNs := (list.allMNs.filter fun fromPtr =>
    (target.getMN fromPtr.proTxHash).isNone).map (·.proTxHash)

def CSimplifiedMNList.sorted (entries : List CSimplifiedMNListEntry) :
    List CSimplifiedMNListEntry :=
  entries.insertionSort fun a b => a.proRegTxHash ≤ b.proRegTxHash

def CDeterministicMNList.simplified (list : CDeterministicMNList) : List CSimplifiedMNListEntry :=
  list.allMNs.map ofMN

section

variable {κ : Type} [DecidableEq κ] (sha256D64 : κ → κ → κ) (null : κ)
  (calcHash : CSimplifiedMNListEntry → κ)

def CSimplifiedMNList.calcMerkleRoot (mnList : List CSimplifiedMNListEntry) : κ × Bool :=
  Merkle.computeMerkleRoot sha256D64 null (mnList.map calcHash)

end

/-! ### The receiver -/

def replaceEntry (entries : List CSimplifiedMNListEntry) (entry : CSimplifiedMNListEntry) :
    List CSimplifiedMNListEntry :=
  entry :: entries.filter fun e => decide (e.proRegTxHash ≠ entry.proRegTxHash)

def applySimplified (entries : List CSimplifiedMNListEntry) (diff : CSimplifiedMNListDiff) :
    List CSimplifiedMNListEntry :=
  diff.mnList.foldl replaceEntry
    (entries.filter fun e => decide (e.proRegTxHash ∉ diff.deletedMNs))

abbrev Apart (entries : List CSimplifiedMNListEntry) : Prop :=
  entries.Pairwise (·.proRegTxHash ≠ ·.proRegTxHash)

variable {entries : List CSimplifiedMNListEntry} {e : CSimplifiedMNListEntry}

theorem mem_replaceEntry {entry : CSimplifiedMNListEntry} :
    e ∈ replaceEntry entries entry ↔
      e = entry ∨ e ∈ entries ∧ e.proRegTxHash ≠ entry.proRegTxHash := by
  simp [replaceEntry]

theorem apart_replaceEntry (apart : Apart entries) (entry : CSimplifiedMNListEntry) : Apart (replaceEntry entries entry) := by
  refine List.pairwise_cons.mpr ⟨fun e he => ?_, apart.filter _⟩
  exact Ne.symm (by simpa using (List.mem_filter.mp he).2)

/-- Over the list of new entries, the hashes that it names get their new entry. -/
theorem foldl_replaceEntry {news : List CSimplifiedMNListEntry} (fresh : Apart news)
    (apart : Apart entries) :
    Apart (news.foldl replaceEntry entries) ∧ ∀ e, e ∈ news.foldl replaceEntry entries ↔
      e ∈ news ∨ e ∈ entries ∧ ∀ n ∈ news, e.proRegTxHash ≠ n.proRegTxHash := by
  induction news generalizing entries with
  | nil => simpa using apart
  | cons new news ih =>
    obtain ⟨others, fresh⟩ := List.pairwise_cons.mp fresh
    obtain ⟨apart', mem⟩ := ih fresh (apart_replaceEntry apart new)
    refine ⟨apart', fun e => (mem e).trans ?_⟩
    rw [mem_replaceEntry, List.mem_cons, List.forall_mem_cons]
    constructor
    · rintro (h | ⟨rfl | ⟨h, hne⟩, rest⟩)
      · exact Or.inl (Or.inr h)
      · exact Or.inl (Or.inl rfl)
      · exact Or.inr ⟨h, hne, rest⟩
    · rintro ((rfl | h) | ⟨h, hne, rest⟩)
      · exact Or.inr ⟨Or.inl rfl, others⟩
      · exact Or.inl h
      · exact Or.inr ⟨Or.inr ⟨h, hne⟩, rest⟩

section

variable {A B : CDeterministicMNList}

theorem CDeterministicMNList.Titled.apart_simplified (titled : A.Titled) : Apart A.simplified :=
  List.pairwise_map.mpr (List.pairwise_map.mp titled.nodup_allMNs)

theorem CDeterministicMNList.Titled.mem_simplified (titled : A.Titled) :
    e ∈ A.simplified ↔ (A.getMN e.proRegTxHash).map ofMN = some e := by
  simp only [simplified, List.mem_map, Option.map_eq_some_iff]
  constructor
  · rintro ⟨dmn, mem, rfl⟩
    exact ⟨dmn, titled.mem_allMNs.mp mem, rfl⟩
  · rintro ⟨dmn, get, rfl⟩
    exact ⟨dmn, titled.mem_allMNs.mpr get, rfl⟩

theorem CDeterministicMNList.Titled.mem_mnList (titled : B.Titled) :
    e ∈ (A.buildSimplifiedDiff B).mnList ↔ (B.getMN e.proRegTxHash).map ofMN = some e ∧
      (A.getMN e.proRegTxHash).map ofMN ≠ some e := by
  simp only [buildSimplifiedDiff, List.mem_map, List.mem_filter, titled.mem_allMNs]
  constructor
  · rintro ⟨dmn, ⟨get, differs⟩, rfl⟩
    refine ⟨by simp [show B.getMN (ofMN dmn).proRegTxHash = some dmn from get], ?_⟩
    cases found : A.getMN dmn.proTxHash with
    | none => simp [show A.getMN (ofMN dmn).proRegTxHash = none from found]
    | some old =>
      rw [found] at differs
      rw [show A.getMN (ofMN dmn).proRegTxHash = some old from found]
      exact fun same => of_decide_eq_true differs (Option.some.inj same).symm
  · rintro ⟨here, differs⟩
    obtain ⟨dmn, get, rfl⟩ := Option.map_eq_some_iff.mp here
    refine ⟨dmn, ⟨get, ?_⟩, rfl⟩
    cases found : A.getMN dmn.proTxHash with
    | none => rfl
    | some old =>
      rw [show A.getMN (ofMN dmn).proRegTxHash = some old from found] at differs
      exact decide_eq_true fun same => differs (congrArg some same.symm)

theorem CDeterministicMNList.Titled.mem_deletedMNs (titled : A.Titled) {h : Uint256} :
    h ∈ (A.buildSimplifiedDiff B).deletedMNs ↔ (A.getMN h).isSome ∧ B.getMN h = none := by
  simp only [buildSimplifiedDiff, List.mem_map, List.mem_filter, titled.mem_allMNs,
    Option.isNone_iff_eq_none, Option.isSome_iff_exists]
  constructor
  · rintro ⟨dmn, ⟨get, gone⟩, rfl⟩
    exact ⟨⟨dmn, get⟩, gone⟩
  · rintro ⟨⟨dmn, get⟩, gone⟩
    obtain rfl := titled get
    exact ⟨dmn, ⟨get, gone⟩, rfl⟩

theorem CDeterministicMNList.Titled.apart_mnList (titled : B.Titled) : Apart (A.buildSimplifiedDiff B).mnList :=
  List.pairwise_map.mpr ((List.pairwise_map.mp titled.nodup_allMNs).filter _)

theorem mem_applySimplified (hA : A.Titled) (hB : B.Titled) :
    Apart (applySimplified A.simplified (A.buildSimplifiedDiff B)) ∧
      ∀ e, e ∈ applySimplified A.simplified (A.buildSimplifiedDiff B) ↔ e ∈ B.simplified := by
  obtain ⟨apart, mem⟩ := foldl_replaceEntry (hB.apart_mnList (A := A))
    (hA.apart_simplified.filter fun e =>
      decide (e.proRegTxHash ∉ (A.buildSimplifiedDiff B).deletedMNs))
  refine ⟨apart, fun e => (mem e).trans ?_⟩
  rw [hB.mem_mnList, List.mem_filter, hA.mem_simplified, hB.mem_simplified, decide_eq_true_eq,
    hA.mem_deletedMNs]
  constructor
  · rintro (new | ⟨⟨old, kept⟩, unnamed⟩)
    · exact new.1
    · -- the entry stays, so the new list has the hash, and its entry there is not a new one
      obtain ⟨dmn, get, -⟩ := Option.map_eq_some_iff.mp old
      cases found : B.getMN e.proRegTxHash with
      | none => exact absurd ⟨by simp [get], found⟩ kept
      | some dmn' =>
        by_contra differs
        have title : (ofMN dmn').proRegTxHash = e.proRegTxHash := hB found
        refine unnamed (ofMN dmn') (hB.mem_mnList.mpr ?_) title.symm
        rw [title, found, old]
        refine ⟨rfl, fun same => differs ?_⟩
        rw [Option.map_some, ← same]
  · intro new
    by_cases old : (A.getMN e.proRegTxHash).map ofMN = some e
    · refine Or.inr ⟨⟨old, fun gone => ?_⟩, fun n hn same => ?_⟩
      · rw [gone.2] at new
        cases new
      · obtain ⟨hnew, hold⟩ := hB.mem_mnList.mp hn
        rw [← same] at hnew hold
        exact hold (old.trans (new.symm.trans hnew))
    · exact Or.inl ⟨new, old⟩

/-- The receiver of the difference ends with the entries of the new list, and with its root. -/
theorem applySimplified_buildSimplifiedDiff (hA : A.Titled) (hB : B.Titled) :
    (applySimplified A.simplified (A.buildSimplifiedDiff B)).Perm B.simplified ∧
      ∀ {κ : Type} [DecidableEq κ] (sha256D64 : κ → κ → κ) (null : κ)
        (calcHash : CSimplifiedMNListEntry → κ),
        CSimplifiedMNList.calcMerkleRoot sha256D64 null calcHash (CSimplifiedMNList.sorted
            (applySimplified A.simplified (A.buildSimplifiedDiff B))) =
          CSimplifiedMNList.calcMerkleRoot sha256D64 null calcHash
            (CSimplifiedMNList.sorted B.simplified) := by
  obtain ⟨apart, mem⟩ := mem_applySimplified hA hB
  have nodup : ∀ {es : List CSimplifiedMNListEntry}, Apart es → es.Nodup :=
    fun h => h.imp fun hne e => hne (congrArg _ e)
  have order : ∀ a b : CSimplifiedMNListEntry, a.proRegTxHash ≤ b.proRegTxHash ↔
      a.proRegTxHash.toNat ≤ b.proRegTxHash.toNat := fun _ _ => BitVec.le_def
  have distinct : ∀ {es : List CSimplifiedMNListEntry}, Apart es →
      es.Pairwise (·.proRegTxHash.toNat ≠ ·.proRegTxHash.toNat) :=
    fun h => h.imp fun hne e => hne (BitVec.eq_of_toNat_eq e)
  refine ⟨(List.perm_ext_iff_of_nodup (nodup apart) (nodup hB.apart_simplified)).mpr mem, ?_⟩
  intro κ _ sha256D64 null calcHash
  have same : CSimplifiedMNList.sorted (applySimplified A.simplified (A.buildSimplifiedDiff B)) =
      CSimplifiedMNList.sorted B.simplified :=
    Ranking.sort_eq_of_mem_iff order (distinct apart)
      (Ranking.pairwise_lt_sort order (distinct hB.apart_simplified)) fun e => (mem e).trans (List.mem_insertionSort _).symm
  rw [same]

/-- The smartnode 1 is gone, 2 has another voting key, 3 is new. -/
def laterList : CDeterministicMNList :=
  toyAdd (toyAdd (empty 0) { toyMN 2 1 with
    pdmnState := { (toyMN 2 1).pdmnState with keyIDVoting := 6 } }) (toyMN 3 2)

theorem laterList_inv : laterList.UniqueInvariant toyOwner := by
  apply toyAdd_inv (toyAdd_inv (uniqueInvariant_empty toyOwner 0) ?_ ?_ ?_ ?_ ?_) <;>
    decide +kernel

theorem applySimplified_laterList :
    (toyList.buildSimplifiedDiff laterList).deletedMNs = [1] ∧
      (toyList.buildSimplifiedDiff laterList).mnList.map (·.proRegTxHash) = [2, 3] ∧
      (applySimplified toyList.simplified (toyList.buildSimplifiedDiff laterList)).Perm
        laterList.simplified :=
  ⟨by decide +kernel, by decide +kernel, (applySimplified_buildSimplifiedDiff
    (fun _ _ => toyList_inv.hash) fun _ _ => laterList_inv.hash).1⟩

end

end ButCore.Evo
