import Mathlib
import ButCore.Lib.Steps

/-!
# The bounded multimap

`CacheMultiMap` keeps its items in a list, the newest first, and for every key a map from values to
list nodes.
-/
namespace ButCore

structure CacheItem (K V : Type) where
  node : ℕ
  key : K
  value : V

structure CacheMultiMap (K V : Type) where
  nMaxSize : ℕ
  listItems : List (CacheItem K V)
  mapIndex : K → Option (List (V × ℕ))
  nextNode : ℕ

namespace CacheMultiMap

variable {K V : Type} [DecidableEq K] (lt : V → V → Bool)

section

variable (c : CacheMultiMap K V)

def empty (nMaxSize : ℕ) : CacheMultiMap K V := ⟨nMaxSize, [], fun _ => none, 0⟩

def equivalent (a b : V) : Bool := !lt a b && !lt b a

def refs (key : K) : List (V × ℕ) := (c.mapIndex key).getD []

def putMap (key : K) (mapIt : List (V × ℕ)) : K → Option (List (V × ℕ)) :=
  Function.update c.mapIndex key (if mapIt.isEmpty then none else some mapIt)

def pruneLast : CacheMultiMap K V :=
  match c.listItems.getLast? with
  | none => c
  | some item =>
    { c with
      listItems := c.listItems.dropLast
      mapIndex :=
        match c.mapIndex item.key with
        | none => c.mapIndex
        | some mapIt => c.putMap item.key (mapIt.filter fun e => !equivalent lt e.1 item.value) }

/-- None when the reference to the map of the key dangles. -/
def insert (key : K) (value : V) : Option (CacheMultiMap K V × Bool) :=
  if (c.refs key).any fun e => equivalent lt e.1 value then some (c, false)
  else
    let c := { c with mapIndex := Function.update c.mapIndex key (some (c.refs key)) }
    let c := if c.listItems.length = c.nMaxSize then c.pruneLast lt else c
    (c.mapIndex key).map fun mapIt =>
      ({ c with
        listItems := ⟨c.nextNode, key, value⟩ :: c.listItems
        mapIndex := Function.update c.mapIndex key (some ((value, c.nextNode) :: mapIt))
        nextNode := c.nextNode + 1 }, true)

def erase (key : K) : CacheMultiMap K V :=
  { c with
    listItems := c.listItems.filter fun item => !(c.refs key).any fun e => e.2 == item.node
    mapIndex := Function.update c.mapIndex key none }

def eraseValue (key : K) (value : V) : CacheMultiMap K V :=
  match (c.refs key).find? fun e => equivalent lt e.1 value with
  | none => c
  | some e =>
    { c with
      listItems := c.listItems.filter fun item => item.node != e.2
      mapIndex := c.putMap key ((c.refs key).filter fun e' => !equivalent lt e'.1 value) }

def items : List (K × V) := c.listItems.map fun item => (item.key, item.value)

def getAll (key : K) : List V := (c.refs key).map Prod.fst

end

/-- The order of the values tells apart up to an equivalence. -/
structure Ordered : Prop where
  refl : ∀ a, equivalent lt a a = true
  symm : ∀ {a b}, equivalent lt a b = true → equivalent lt b a = true
  trans : ∀ {a b c}, equivalent lt a b = true → equivalent lt b c = true → equivalent lt a c = true

structure Linked (c : CacheMultiMap K V) : Prop where
  nodes : (c.listItems.map CacheItem.node).Nodup
  fresh : ∀ item ∈ c.listItems, item.node < c.nextNode
  index : ∀ {k v n}, (v, n) ∈ c.refs k ↔ ⟨n, k, v⟩ ∈ c.listItems
  distinct : ∀ a ∈ c.listItems, ∀ b ∈ c.listItems, a.key = b.key →
    equivalent lt a.value b.value = true → a = b

structure Inv (c : CacheMultiMap K V) : Prop extends Linked lt c where
  nonempty : ∀ k, c.mapIndex k ≠ some []
  size : c.listItems.length ≤ c.nMaxSize

variable {lt} {c : CacheMultiMap K V} {key k : K} {value v : V}

omit [DecidableEq K] in
theorem mapIndex_eq_refs (h : c.mapIndex k ≠ none) : c.mapIndex k = some (c.refs k) := by
  unfold refs
  cases found : c.mapIndex k with
  | none => exact absurd found h
  | some m => rfl

variable {c' : CacheMultiMap K V}

omit [DecidableEq K] in
/-- Taking items away, with their entries. -/
theorem Linked.keep (linked : Linked lt c) {p : CacheItem K V → Bool}
    (hitems : c'.listItems = c.listItems.filter p) (hnext : c'.nextNode = c.nextNode)
    (hrefs : ∀ k v n, (v, n) ∈ c'.refs k ↔ (v, n) ∈ c.refs k ∧ p ⟨n, k, v⟩ = true) :
    Linked lt c' := by
  have sub : ∀ item ∈ c'.listItems, item ∈ c.listItems :=
    fun item mem => List.mem_of_mem_filter (hitems ▸ mem)
  refine ⟨?_, fun item mem => hnext ▸ linked.fresh item (sub item mem), fun {k v n} => ?_,
    fun a ha b hb => linked.distinct a (sub a ha) b (sub b hb)⟩
  · rw [hitems]
    exact linked.nodes.sublist (List.filter_sublist.map _)
  · rw [hrefs, hitems, List.mem_filter, linked.index]

theorem refs_putMap (mapIt : List (V × ℕ)) (k : K) :
    (c.putMap key mapIt k).getD [] = if k = key then mapIt else c.refs k := by
  unfold putMap refs
  by_cases hk : k = key
  · subst hk
    cases mapIt <;> simp
  · simp [hk]

theorem putMap_ne_nil (mapIt : List (V × ℕ)) (h : k ≠ key → c.mapIndex k ≠ some []) :
    c.putMap key mapIt k ≠ some [] := by
  unfold putMap
  by_cases hk : k = key
  · subst hk
    cases mapIt <;> simp
  · simpa [hk] using h hk

variable {item : CacheItem K V} {w : V}

omit [DecidableEq K] in
/-- The entries with an equivalent value are the entry of that very item. -/
theorem Linked.equivalent_iff (ord : Ordered lt) (linked : Linked lt c) (mem : item ∈ c.listItems)
    (hv : equivalent lt item.value value = true) {n : ℕ} (entry : (w, n) ∈ c.refs item.key) : equivalent lt w value = true ↔ n = item.node := by
  have other := linked.index.mp entry
  constructor
  · intro heq
    exact congrArg CacheItem.node (linked.distinct _ other _ mem rfl (ord.trans heq (ord.symm hv)))
  · rintro rfl
    have same := List.inj_on_of_nodup_map linked.nodes other mem rfl
    rw [← same] at hv
    exact hv

omit [DecidableEq K] in
theorem Linked.node_ne (linked : Linked lt c) {other : CacheItem K V} (mem : item ∈ c.listItems)
    (hother : other ∈ c.listItems) (hk : other.key ≠ item.key) :
    other.node ≠ item.node :=
  fun hn => hk (congrArg CacheItem.key (List.inj_on_of_nodup_map linked.nodes hother mem hn))

theorem Linked.eraseItem (ord : Ordered lt) (linked : Linked lt c) (item : CacheItem K V)
    (mem : item ∈ c.listItems) (hv : equivalent lt item.value value = true)
    (hitems : c'.listItems = c.listItems.filter fun i => i.node != item.node)
    (hnext : c'.nextNode = c.nextNode)
    (hindex : c'.mapIndex = c.putMap item.key ((c.refs item.key).filter fun e => !equivalent lt e.1 value)) : Linked lt c' := by
  refine linked.keep hitems hnext fun k w n => ?_
  rw [show c'.refs k = _ from congrArg (fun m => (m k).getD []) hindex, refs_putMap]
  split
  · next hk =>
    subst hk
    rw [List.mem_filter]
    refine and_congr_right fun entry => ?_
    simp only [Bool.not_eq_true', bne_iff_ne, ne_eq, ← linked.equivalent_iff ord mem hv entry,
      Bool.not_eq_true]
  · next hk =>
    refine ⟨fun entry => ⟨entry, ?_⟩, And.left⟩
    exact bne_iff_ne.mpr (linked.node_ne mem (linked.index.mp entry) hk)

omit [DecidableEq K] in
theorem mem_items : (k, v) ∈ c.items ↔ ∃ n, (⟨n, k, v⟩ : CacheItem K V) ∈ c.listItems := by
  unfold items
  rw [List.mem_map]
  constructor
  · rintro ⟨⟨n, _, _⟩, mem, ⟨⟩⟩
    exact ⟨n, mem⟩
  · rintro ⟨n, mem⟩
    exact ⟨_, mem, rfl⟩

omit [DecidableEq K] in
theorem Linked.mem_getAll (linked : Linked lt c) : v ∈ c.getAll k ↔ (k, v) ∈ c.items := by
  rw [mem_items, getAll, List.mem_map]
  constructor
  · rintro ⟨⟨_, n⟩, entry, rfl⟩
    exact ⟨n, linked.index.mp entry⟩
  · rintro ⟨n, mem⟩
    exact ⟨(v, n), linked.index.mpr mem, rfl⟩

omit [DecidableEq K] in
theorem Linked.mapIndex_ne_none (linked : Linked lt c) (mem : item ∈ c.listItems) : c.mapIndex item.key ≠ none := by
  intro missing
  have entry := linked.index.mpr mem
  rw [refs, missing] at entry
  cases entry

omit [DecidableEq K] in
theorem Linked.any_iff (linked : Linked lt c) :
    ((c.refs key).any fun e => equivalent lt e.1 value) = true ↔
      ∃ w, (key, w) ∈ c.items ∧ equivalent lt w value = true := by
  rw [List.any_eq_true]
  constructor
  · rintro ⟨⟨w, n⟩, entry, heq⟩
    exact ⟨w, mem_items.mpr ⟨n, linked.index.mp entry⟩, heq⟩
  · rintro ⟨w, mem, heq⟩
    obtain ⟨n, mem⟩ := mem_items.mp mem
    exact ⟨(w, n), linked.index.mpr mem, heq⟩

theorem Inv.eraseValue (ord : Ordered lt) (inv : Inv lt c) (key : K) (value : V) :
    Inv lt (c.eraseValue lt key value) ∧ (c.eraseValue lt key value).nMaxSize = c.nMaxSize ∧
      (c.eraseValue lt key value).items =
        c.items.filter fun p => !(decide (p.1 = key) && equivalent lt p.2 value) := by
  unfold CacheMultiMap.eraseValue
  cases found : (c.refs key).find? fun e => equivalent lt e.1 value with
  | none =>
    refine ⟨inv, rfl, (List.filter_eq_self.mpr ?_).symm⟩
    rintro ⟨k, w⟩ mem
    have absent : ¬ (k = key ∧ equivalent lt w value = true) := by
      rintro ⟨rfl, heq⟩
      rw [List.find?_eq_none, ← List.any_eq_false] at found
      rw [inv.any_iff.mpr ⟨w, mem, heq⟩] at found
      cases found
    simpa [imp_iff_not_or] using absent
  | some e =>
    have mem := inv.index.mp (List.mem_of_find?_eq_some found)
    have heq : equivalent lt e.1 value = true := by simpa using List.find?_some found
    refine ⟨⟨inv.eraseItem ord ⟨e.2, key, e.1⟩ mem heq rfl rfl rfl,
      fun k => putMap_ne_nil _ fun _ => inv.nonempty k,
      (List.length_filter_le _ _).trans inv.size⟩, rfl, ?_⟩
    unfold items
    rw [List.filter_map]
    refine congrArg _ (List.filter_congr fun item hitem => ?_)
    by_cases hk : item.key = key
    · subst hk
      have same := inv.equivalent_iff ord mem heq (inv.index.mpr hitem)
      rw [Bool.eq_iff_iff]
      simp only [Function.comp, decide_true, Bool.true_and, bne_iff_ne, ne_eq, Bool.not_eq_true',
        ← same, Bool.not_eq_true]
    · simpa [hk] using inv.node_ne mem hitem hk

theorem Inv.erase (inv : Inv lt c) (key : K) :
    Inv lt (c.erase key) ∧ (c.erase key).nMaxSize = c.nMaxSize ∧
      (c.erase key).items = c.items.filter fun p => decide (p.1 ≠ key) := by
  have kept : ∀ item ∈ c.listItems, (!(c.refs key).any fun e => e.2 == item.node) =
      decide (item.key ≠ key) := by
    intro item mem
    rw [Bool.eq_iff_iff, Bool.not_eq_true', decide_eq_true_eq, ← Bool.not_eq_true, not_iff_not,
      List.any_eq_true]
    constructor
    · rintro ⟨⟨w, n⟩, entry, hn⟩
      have same := List.inj_on_of_nodup_map inv.nodes mem (inv.index.mp entry) (by simpa using
        (beq_iff_eq.mp hn).symm)
      rw [same]
    · rintro rfl
      exact ⟨(item.value, item.node), inv.index.mpr mem, beq_self_eq_true _⟩
  have hitems : (c.erase key).listItems = c.listItems.filter fun item => decide (item.key ≠ key) :=
    List.filter_congr kept
  refine ⟨⟨inv.keep hitems rfl fun k w n => ?_, fun k => ?_, ?_⟩, rfl, ?_⟩
  · unfold CacheMultiMap.erase refs
    by_cases hk : k = key <;> simp [hk]
  · unfold CacheMultiMap.erase
    by_cases hk : k = key
    · simp [hk]
    · simpa [hk] using inv.nonempty k
  · rw [hitems]
    exact (List.length_filter_le _ _).trans inv.size
  · unfold items
    rw [hitems, List.filter_map]
    rfl

section

def Dangles (lt : V → V → Bool) (c : CacheMultiMap K V) (key : K) (value : V) : Prop :=
  c.listItems.length = c.nMaxSize ∧ ∃ older last, c.listItems = older ++ [last] ∧ last.key = key ∧
    equivalent lt last.value value = false ∧ ∀ item ∈ older, item.key ≠ key

variable {older : List (CacheItem K V)} {last : CacheItem K V}

theorem Linked.pruneLast (ord : Ordered lt) (linked : Linked lt c)
    (hlast : c.listItems = older ++ [last]) :
    Linked lt (c.pruneLast lt) ∧ (c.pruneLast lt).listItems = older ∧
      (c.pruneLast lt).mapIndex = c.putMap last.key
        ((c.refs last.key).filter fun e => !equivalent lt e.1 last.value) := by
  have mem : last ∈ c.listItems := by rw [hlast]; simp
  have hprune : c.pruneLast lt = { c with
      listItems := older
      mapIndex := c.putMap last.key
        ((c.refs last.key).filter fun e => !equivalent lt e.1 last.value) } := by
    unfold CacheMultiMap.pruneLast
    rw [hlast, List.getLast?_concat]
    simp only [List.dropLast_concat]
    rw [mapIndex_eq_refs (linked.mapIndex_ne_none mem)]
  have hfilter : older = c.listItems.filter fun i => i.node != last.node := by
    have nodes := linked.nodes
    rw [hlast, List.map_append, List.nodup_append] at nodes
    rw [hlast, List.filter_append, List.filter_eq_self.mpr, List.filter_eq_nil_iff.mpr,
      List.append_nil]
    · simp
    · intro item hitem
      exact bne_iff_ne.mpr (nodes.2.2 _ (List.mem_map_of_mem hitem) _ (by simp))
  rw [hprune]
  exact ⟨linked.eraseItem ord _ mem (ord.refl _) hfilter rfl rfl, rfl, rfl⟩

/-- Only the entry of the oldest item is in the map of its key. -/
theorem Linked.filter_isEmpty (ord : Ordered lt) (linked : Linked lt c)
    (hlast : c.listItems = older ++ [last]) :
    ((c.refs last.key).filter fun e => !equivalent lt e.1 last.value).isEmpty =
      decide (∀ item ∈ older, item.key ≠ last.key) := by
  have mem : last ∈ c.listItems := by rw [hlast]; simp
  have nodes := linked.nodes
  rw [hlast, List.map_append, List.nodup_append] at nodes
  rw [Bool.eq_iff_iff, decide_eq_true_eq, List.isEmpty_iff, List.filter_eq_nil_iff]
  simp only [Bool.not_eq_true', Bool.not_eq_false, Prod.forall]
  constructor
  · intro all item hitem hkey
    have hin : (⟨item.node, last.key, item.value⟩ : CacheItem K V) ∈ c.listItems := by
      rw [← hkey, hlast]
      simp [hitem]
    have entry := linked.index.mpr hin
    have same := (linked.equivalent_iff ord mem (ord.refl _) entry).mp (all _ _ entry)
    exact nodes.2.2 _ (List.mem_map_of_mem hitem) _ (by simp) same
  · intro all w n entry
    refine (linked.equivalent_iff ord mem (ord.refl _) entry).mpr ?_
    have hin := linked.index.mp entry
    rw [hlast, List.mem_append, List.mem_singleton] at hin
    rcases hin with hin | hin
    · exact absurd rfl (all ⟨n, last.key, w⟩ hin)
    · exact congrArg CacheItem.node hin

theorem Linked.push (linked : Linked lt c) (hnew : ∀ w, (key, w) ∈ c.items →
      equivalent lt w value = false) (ord : Ordered lt) :
    Linked lt { c with
      listItems := ⟨c.nextNode, key, value⟩ :: c.listItems
      mapIndex := Function.update c.mapIndex key (some ((value, c.nextNode) :: c.refs key))
      nextNode := c.nextNode + 1 } := by
  have apart : ∀ item ∈ c.listItems, item.key = key → equivalent lt item.value value = false :=
    fun item mem hk => hnew _ (mem_items.mpr ⟨item.node, hk ▸ mem⟩)
  refine ⟨?_, ?_, fun {k v n} => ?_, ?_⟩
  · refine List.nodup_cons.mpr ⟨fun mem => ?_, linked.nodes⟩
    obtain ⟨item, hitem, hn⟩ := List.mem_map.mp mem
    exact absurd (linked.fresh item hitem) (by rw [hn]; exact lt_irrefl _)
  · refine List.forall_mem_cons.mpr ⟨Nat.lt_succ_self _, fun item mem => ?_⟩
    exact Nat.lt_succ_of_lt (linked.fresh item mem)
  · by_cases hk : k = key
    · subst hk
      simp [refs, ← linked.index, and_comm]
    · simp [refs, hk, ← linked.index]
  · intro a ha b hb hk heq
    rcases List.mem_cons.mp ha with rfl | ha <;> rcases List.mem_cons.mp hb with rfl | hb
    · rfl
    · exact absurd (ord.symm heq) (by simp [apart b hb hk.symm])
    · exact absurd heq (by simp [apart a ha hk])
    · exact linked.distinct a ha b hb hk heq

structure Ready (lt : V → V → Bool) (c : CacheMultiMap K V) (key : K) (c' : CacheMultiMap K V) :
    Prop extends Linked lt c' where
  mapIndex : c'.mapIndex key ≠ none
  others : ∀ k, k ≠ key → c'.mapIndex k ≠ some []
  listItems : c'.listItems =
    if c.listItems.length = c.nMaxSize then c.listItems.dropLast else c.listItems
  nMaxSize : c'.nMaxSize = c.nMaxSize

def makeRoom (lt : V → V → Bool) (c : CacheMultiMap K V) (key : K) : CacheMultiMap K V :=
  let c := { c with mapIndex := Function.update c.mapIndex key (some (c.refs key)) }
  if c.listItems.length = c.nMaxSize then c.pruneLast lt else c

theorem Inv.makeRoom (ord : Ordered lt) (inv : Inv lt c) (positive : 1 ≤ c.nMaxSize)
    (hnew : ∀ w, (key, w) ∈ c.items → equivalent lt w value = false) :
    (Dangles lt c key value → (c.makeRoom lt key).mapIndex key = none) ∧
      (¬ Dangles lt c key value → Ready lt c key (c.makeRoom lt key)) := by
  let c₁ := { c with mapIndex := Function.update c.mapIndex key (some (c.refs key)) }
  have hrefs : ∀ k, c₁.refs k = c.refs k := by
    intro k
    by_cases hk : k = key
    · subst hk
      simp [refs, c₁]
    · simp [refs, c₁, hk]
  have linked : Linked lt c₁ :=
    ⟨inv.nodes, inv.fresh, fun {k v n} => by rw [hrefs k]; exact inv.index, inv.distinct⟩
  by_cases full : c.listItems.length = c.nMaxSize
  · have hroom : c.makeRoom lt key = c₁.pruneLast lt := if_pos full
    obtain hnil | ⟨older, last, hlast⟩ := List.eq_nil_or_concat c.listItems
    · rw [hnil] at full
      rw [← full] at positive
      cases positive
    · rw [List.concat_eq_append] at hlast
      obtain ⟨pruned, hitems, hindex⟩ := linked.pruneLast ord hlast
      have hmax : (c₁.pruneLast lt).nMaxSize = c.nMaxSize := by
        unfold CacheMultiMap.pruneLast
        split <;> rfl
      have others : ∀ k, k ≠ key → (c₁.pruneLast lt).mapIndex k ≠ some [] := by
        intro k hk
        rw [hindex]
        exact putMap_ne_nil _ fun _ => by simpa [c₁, hk] using inv.nonempty k
      have gone : (c₁.pruneLast lt).mapIndex key = none ↔
          last.key = key ∧ ∀ item ∈ older, item.key ≠ key := by
        rw [hindex]
        unfold putMap
        by_cases hk : last.key = key
        · subst hk
          rw [Function.update_self, linked.filter_isEmpty ord hlast]
          simp
        · rw [Function.update_of_ne (Ne.symm hk)]
          simp [c₁, hk]
      have dangles : Dangles lt c key value ↔ last.key = key ∧ ∀ item ∈ older, item.key ≠ key := by
        constructor
        · rintro ⟨-, older', last', hlast', hk, -, hother⟩
          obtain ⟨rfl, hl⟩ := List.append_inj' (hlast.symm.trans hlast') rfl
          obtain rfl := List.singleton_inj.mp hl
          exact ⟨hk, hother⟩
        · rintro ⟨rfl, hother⟩
          refine ⟨full, older, last, hlast, rfl, ?_, hother⟩
          exact hnew _ (mem_items.mpr ⟨last.node, by rw [hlast]; simp⟩)
      rw [hroom]
      refine ⟨fun hd => gone.mpr (dangles.mp hd), fun hd => ?_⟩
      refine ⟨pruned, fun none => hd (dangles.mpr (gone.mp none)), others, ?_, hmax⟩
      rw [if_pos full, hitems, hlast, List.dropLast_concat]
  · have hroom : c.makeRoom lt key = c₁ := if_neg full
    rw [hroom]
    refine ⟨fun hd => absurd hd.1 full, fun _ => ?_⟩
    exact ⟨linked, by simp [c₁], fun k hk => by simpa [c₁, hk] using inv.nonempty k,
      by rw [if_neg full], rfl⟩

theorem Inv.insert (ord : Ordered lt) (inv : Inv lt c) (positive : 1 ≤ c.nMaxSize)
    (hnew : ∀ w, (key, w) ∈ c.items → equivalent lt w value = false)
    (hd : ¬ Dangles lt c key value) :
    ∃ c', c.insert lt key value = some (c', true) ∧ Inv lt c' ∧ c'.nMaxSize = c.nMaxSize ∧
      c'.items = (key, value) ::
        if c.listItems.length = c.nMaxSize then c.items.dropLast else c.items := by
  have room := (inv.makeRoom ord positive hnew).2 hd
  have unknown : ¬ ((c.refs key).any fun e => equivalent lt e.1 value) = true := by
    rw [inv.any_iff]
    rintro ⟨w, mem, heq⟩
    rw [hnew w mem] at heq
    cases heq
  have sub : ∀ w, (key, w) ∈ (c.makeRoom lt key).items → equivalent lt w value = false := by
    intro w mem
    obtain ⟨n, mem⟩ := mem_items.mp mem
    refine hnew w (mem_items.mpr ⟨n, ?_⟩)
    rw [room.listItems] at mem
    split at mem
    · exact List.mem_of_mem_dropLast mem
    · exact mem
  refine ⟨_, ?_, ⟨room.toLinked.push sub ord, fun k => ?_, ?_⟩, room.nMaxSize, ?_⟩
  · unfold CacheMultiMap.insert
    rw [if_neg unknown]
    exact congrArg (Option.map _) (mapIndex_eq_refs room.mapIndex)
  · by_cases hk : k = key
    · simp [hk]
    · simpa [hk] using room.others k hk
  · have size := inv.size
    have length := congrArg List.length room.listItems
    have max := room.nMaxSize
    simp only [List.length_cons]
    split_ifs at length with full
    · rw [List.length_dropLast] at length
      omega
    · omega
  · simp only [items, room.listItems, List.map_cons]
    split
    · rw [List.map_dropLast]
    · rfl

theorem insert_known (linked : Linked lt c) (mem : (key, w) ∈ c.items)
    (heq : equivalent lt w value = true) : c.insert lt key value = some (c, false) :=
  if_pos (linked.any_iff.mpr ⟨w, mem, heq⟩)

end

inductive Op (K V : Type) where
  | insert (key : K) (value : V)
  | erase (key : K)
  | eraseValue (key : K) (value : V)

def exec (lt : V → V → Bool) (c : CacheMultiMap K V) : Op K V → Except Unit (CacheMultiMap K V)
  | .insert key value =>
    match c.insert lt key value with
    | none => .error ()
    | some (c, _) => .ok c
  | .erase key => .ok (c.erase key)
  | .eraseValue key value => .ok (c.eraseValue lt key value)

/-- No insertion evicts the only item of its own key. -/
def Safe (lt : V → V → Bool) (c : CacheMultiMap K V) : Op K V → Prop
  | .insert key value => ¬ Dangles lt c key value
  | _ => True

theorem equivalent_iff_eq [LinearOrder V] {a b : V} :
    equivalent (fun a b => decide (a < b)) a b = true ↔ a = b := by
  simp only [equivalent, Bool.and_eq_true, Bool.not_eq_true', decide_eq_false_iff_not, not_lt]
  exact ⟨fun h => le_antisymm h.2 h.1, fun h => ⟨h.ge, h.le⟩⟩

theorem ordered_of_linearOrder [LinearOrder V] : Ordered fun a b : V => decide (a < b) :=
  ⟨fun _ => equivalent_iff_eq.mpr rfl, fun h => equivalent_iff_eq.mpr (equivalent_iff_eq.mp h).symm,
    fun hab hbc => equivalent_iff_eq.mpr
      ((equivalent_iff_eq.mp hab).trans (equivalent_iff_eq.mp hbc))⟩

theorem exec_inv (ord : Ordered lt) {M : ℕ} (positive : 1 ≤ M) {op : Op K V}
    (inv : Inv lt c ∧ c.nMaxSize = M) (safe : Safe lt c op) :
    ∃ c', exec lt c op = .ok c' ∧ Inv lt c' ∧ c'.nMaxSize = M := by
  obtain ⟨inv, rfl⟩ := inv
  cases op with
  | insert key value =>
    by_cases hnew : ∀ w, (key, w) ∈ c.items → equivalent lt w value = false
    · obtain ⟨c', hok, inv', max, -⟩ := inv.insert ord positive hnew safe
      exact ⟨c', by simp only [exec, hok], inv', max⟩
    · push Not at hnew
      obtain ⟨w, mem, heq⟩ := hnew
      refine ⟨c, ?_, inv, rfl⟩
      simp only [exec, insert_known inv.toLinked mem (by simpa using heq)]
  | erase key => exact ⟨_, rfl, (inv.erase key).1, rfl⟩
  | eraseValue key value =>
    obtain ⟨inv', max, -⟩ := inv.eraseValue ord key value
    exact ⟨_, rfl, inv', max⟩

omit [DecidableEq K] in
theorem inv_empty (M : ℕ) : Inv lt (empty M : CacheMultiMap K V) :=
  ⟨⟨List.nodup_nil, by simp [empty], by simp [empty, refs], by simp [empty]⟩, by simp [empty],
    Nat.zero_le _⟩

/-- Runs in which no insertion evicts the only item of its own key. -/
theorem run_cacheMultiMap [LinearOrder V] (M : ℕ) (ops : List (Op K V)) (positive : 1 ≤ M)
    (safe : Steps.Permitted (exec fun a b => decide (a < b)) (Safe fun a b => decide (a < b))
      (empty M) ops) :
    ∃ c, ops.foldlM (exec fun a b => decide (a < b)) (empty M) = .ok c ∧ c.nMaxSize = M ∧
      (∀ k v, v ∈ c.getAll k ↔ (k, v) ∈ c.items) ∧ c.items.Nodup ∧
      (∀ k, c.mapIndex k ≠ some []) ∧ c.items.length ≤ M ∧
      ∀ key value, (key, value) ∉ c.items → ¬ Dangles (fun a b => decide (a < b)) c key value →
        ∃ c', c.insert (fun a b => decide (a < b)) key value = some (c', true) ∧
          c'.items = (key, value) :: (if c.items.length = M then c.items.dropLast else c.items) ∧
          value ∈ c'.getAll key := by
  obtain ⟨c, run, inv, rfl⟩ := safe.simulated
    (R := fun c (_ : Unit) => Inv (fun a b => decide (a < b)) c ∧ c.nMaxSize = M)
    (F := fun u _ => u) (fun inv safe => exec_inv ordered_of_linearOrder positive inv safe)
    ⟨inv_empty M, rfl⟩ (a := ())
  have length : c.items.length = c.listItems.length := List.length_map _
  refine ⟨c, run, rfl, fun k v => inv.mem_getAll, ?_, inv.nonempty, length ▸ inv.size, ?_⟩
  · refine (List.nodup_map_iff_inj_on (List.Nodup.of_map _ inv.nodes)).mpr fun a ha b hb same => ?_
    obtain ⟨hk, hv⟩ := Prod.mk.inj same
    exact inv.distinct a ha b hb hk (hv ▸ ordered_of_linearOrder.refl _)
  · intro key value hnew hd
    obtain ⟨c', hok, inv', -, items⟩ := inv.insert ordered_of_linearOrder positive
      (fun w mem => Bool.eq_false_iff.mpr fun heq =>
        hnew (by rwa [equivalent_iff_eq.mp heq] at mem)) hd
    refine ⟨c', hok, by rw [items, length], inv'.mem_getAll.mpr ?_⟩
    rw [items]
    exact List.mem_cons_self

theorem run_cacheMultiMap_threeKeys : ∃ c : CacheMultiMap ℕ ℕ,
    [Op.insert 1 10, .insert 2 20, .insert 3 30].foldlM (exec fun a b => decide (a < b)) (empty 2) =
      .ok c ∧ c.items.length ≤ 2 := by
  obtain ⟨c, run, -, -, -, -, size, -⟩ := run_cacheMultiMap (K := ℕ) (V := ℕ) 2
    [.insert 1 10, .insert 2 20, .insert 3 30] (by decide) (by
      refine ⟨?_, fun c₁ h₁ => ⟨?_, fun c₂ h₂ => ⟨?_, fun _ _ => trivial⟩⟩⟩
      · rintro ⟨full, -⟩
        cases full
      · obtain rfl := Except.ok.inj h₁
        rintro ⟨full, -⟩
        cases full
      · obtain rfl := Except.ok.inj h₁
        obtain rfl := Except.ok.inj h₂
        rintro ⟨-, older, last, hlast, hk, -, -⟩
        have := congrArg List.getLast? hlast
        rw [List.getLast?_concat] at this
        obtain rfl := Option.some.inj this
        cases hk)
  exact ⟨c, run, size⟩

/-- The second value of a key evicts the first, and the map of the key with it. -/
theorem run_cacheMultiMap_oneKey :
    ([Op.insert 1 10, .insert 1 20].foldlM (exec fun a b => decide (a < b))
      (empty 1 : CacheMultiMap ℕ ℕ)).toBool = false := by
  decide

end CacheMultiMap

end ButCore
