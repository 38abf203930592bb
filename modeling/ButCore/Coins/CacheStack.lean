import ButCore.Coins.ViewCache
import ButCore.Lib.Keyed
import ButCore.Lib.Steps

/-!
# Stacks of coins caches

Caches stand on one another over a database.
-/
namespace ButCore

open Checked
open Std (ExtTreeMap)

abbrev CCoinsMap := ExtTreeMap COutPoint CCoinsCacheEntry

/-- The database holds no spent coin. -/
structure CoinsDb where
  coins : ExtTreeMap COutPoint Coin
  unspent : ∀ {o : COutPoint} {coin : Coin}, coins[o]? = some coin → coin.isSpent = false

namespace CoinsStack

open CCoinsViewCache

section

variable (db : CoinsDb)

/-- `GetCoin` at the top of the caches, the first of which is the top, and the caches it leaves. -/
def getCoin : List CCoinsMap → COutPoint → Option Coin × List CCoinsMap
  | [], o => (db.coins[o]?, [])
  | cache :: below, o =>
    let V := CCoinsViewCache.fetchCoin ⟨fun o => (getCoin below o).1, cache⟩ o
    (unspent (V.cacheCoins[o]?.map CCoinsCacheEntry.coin),
      V.cacheCoins :: if cache.contains o then below else (getCoin below o).2)

def view (caches : List CCoinsMap) (o : COutPoint) : Option Coin := (getCoin db caches o).1

def level (below : List CCoinsMap) (cache : CCoinsMap) : CCoinsViewCache := ⟨view db below, cache⟩

def fetched (cache : CCoinsMap) (below : List CCoinsMap) (o : COutPoint) : List CCoinsMap :=
  if cache.contains o then below else (getCoin db below o).2

def haveCoin : List CCoinsMap → COutPoint → Bool × List CCoinsMap
  | [], o => (db.coins[o]?.isSome, [])
  | cache :: below, o =>
    let (found, V) := (level db below cache).haveCoin o
    (found, V.cacheCoins :: fetched db cache below o)

def accessCoin : List CCoinsMap → COutPoint → Coin × List CCoinsMap
  | [], o => (db.coins[o]?.getD Coin.empty, [])
  | cache :: below, o =>
    let (coin, V) := (level db below cache).accessCoin o
    (coin, V.cacheCoins :: fetched db cache below o)

def addCoin (o : COutPoint) (coin : Coin) (possible_overwrite : Bool) :
    List CCoinsMap → Except CoinsFault (List CCoinsMap)
  | [] => .ok []
  | cache :: below => do
    let V ← (level db below cache).addCoin o coin possible_overwrite
    pure (V.cacheCoins :: below)

def spendCoin (o : COutPoint) : List CCoinsMap → List CCoinsMap
  | [] => []
  | cache :: below => ((level db below cache).spendCoin o).2.cacheCoins :: fetched db cache below o

def uncache (o : COutPoint) : List CCoinsMap → List CCoinsMap
  | [] => []
  | cache :: below =>
    (if cache[o]?.any fun entry => !entry.dirty && !entry.fresh then cache.erase o else cache) :: below

end

/-! ### `BatchWrite` -/

def mergeEntry (us : Option CCoinsCacheEntry) (child : CCoinsCacheEntry) :
    Except CoinsFault (Option CCoinsCacheEntry) :=
  if !child.dirty then .ok us
  else
    match us with
    | none =>
      .ok (if child.fresh && child.coin.isSpent then none
        else some ⟨child.coin, true, child.fresh⟩)
    | some us => do
      failIf (child.fresh = true ∧ us.coin.isSpent = false)
        (.logicError
          "FRESH flag misapplied to cache entry for base transaction with spendable outputs")
      -- the FRESH flag of the child is not copied: the pruned state may have to go further down
      pure (if us.fresh && child.coin.isSpent then none else some ⟨child.coin, true, us.fresh⟩)

def putEntry (cache : CCoinsMap) (o : COutPoint) : Option CCoinsCacheEntry → CCoinsMap
  | none => cache.erase o
  | some entry => cache.insert o entry

def batchWrite (cache : CCoinsMap) (mapCoins : List (COutPoint × CCoinsCacheEntry)) :
    Except CoinsFault CCoinsMap :=
  mapCoins.foldlM (fun cache entry => do
    let merged ← mergeEntry cache[entry.1]? entry.2
    pure (putEntry cache entry.1 merged)) cache

def writeEntry (db : CoinsDb) (entry : COutPoint × CCoinsCacheEntry) : CoinsDb :=
  if !entry.2.dirty then db
  else if hspent : entry.2.coin.isSpent = true then
    { coins := db.coins.erase entry.1
      unspent := by
        intro o coin h
        rw [ExtTreeMap.getElem?_erase] at h
        split at h
        · cases h
        · exact db.unspent h }
  else
    { coins := db.coins.insert entry.1 entry.2.coin
      unspent := by
        intro o coin h
        rw [ExtTreeMap.getElem?_insert] at h
        split at h
        · cases h
          exact Bool.eq_false_iff.mpr hspent
        · exact db.unspent h }

end CoinsStack

structure CoinsStack where
  db : CoinsDb
  caches : List CCoinsMap

namespace CoinsStack

open CCoinsViewCache

def flushTop (db : CoinsDb) : List CCoinsMap → Except CoinsFault CoinsStack
  | [] => .ok ⟨db, []⟩
  | [cache] => .ok ⟨cache.toList.foldl writeEntry db, [∅]⟩
  | cache :: parent :: below => do
    let parent ← batchWrite parent cache.toList
    pure ⟨db, ∅ :: parent :: below⟩

/-! ### What is seen at a level -/

variable {coin : Coin}

section

variable {db : CoinsDb} {below below' : List CCoinsMap} {cache : CCoinsMap} {o : COutPoint}

theorem fetchCoin_lookup (V : CCoinsViewCache) (o : COutPoint) :
    unspent ((V.fetchCoin o).cacheCoins[o]?.map CCoinsCacheEntry.coin) = V.lookup o := by
  unfold CCoinsViewCache.fetchCoin
  cases hentry : V.cacheCoins[o]? with
  | some entry =>
    dsimp only
    rw [hentry, lookup_of_entry hentry, Option.map_some]
  | none =>
    rw [lookup_of_not_cached hentry, baseCoin]
    cases V.base o with
    | none =>
      dsimp only
      rw [hentry]
      rfl
    | some tmp =>
      dsimp only
      rw [setEntry_getElem?, if_pos rfl, Option.map_some]

theorem view_cons : view db (cache :: below) = (level db below cache).lookup := by
  funext o
  exact fetchCoin_lookup (level db below cache) o

theorem lookup_unspent {V : CCoinsViewCache} (h : V.lookup o = some coin) :
    coin.isSpent = false := by
  unfold CCoinsViewCache.lookup at h
  split at h
  · exact (unspent_eq_some.mp h).2
  · exact (unspent_eq_some.mp h).2

theorem view_unspent {caches : List CCoinsMap} (h : view db caches o = some coin) :
    coin.isSpent = false := by
  cases caches with
  | nil => exact db.unspent h
  | cons cache below =>
    rw [view_cons] at h
    exact lookup_unspent h

theorem baseCoin_level : (level db below cache).baseCoin o = view db below o := by
  change unspent (view db below o) = view db below o
  cases hcoin : view db below o with
  | none => rfl
  | some coin => exact unspent_eq_some.mpr ⟨rfl, view_unspent hcoin⟩

end

/-! ### Sound stacks -/

def Sound (db : CoinsDb) : List CCoinsMap → Prop
  | [] => True
  | cache :: below => (level db below cache).Sound ∧ Sound db below

section

variable {db db' : CoinsDb} {below below' upper lower lower' caches : List CCoinsMap}
  {cache : CCoinsMap} {V : CCoinsViewCache} {o : COutPoint}

theorem Sound.replace (base : V.base = view db below) (sound : V.Sound) (rest : Sound db below')
    (same : view db below' = view db below) :
    Sound db (V.cacheCoins :: below') ∧ view db (V.cacheCoins :: below') = V.lookup := by
  have hlevel : level db below' V.cacheCoins = V := by
    unfold level
    rw [same, ← base]
  refine ⟨⟨?_, rest⟩, ?_⟩
  · rw [hlevel]
    exact sound
  · rw [view_cons, hlevel]

theorem fetchCoin_base : (V.fetchCoin o).base = V.base := by
  unfold CCoinsViewCache.fetchCoin
  cases V.cacheCoins[o]? with
  | some entry => rfl
  | none =>
    cases V.base o with
    | none => rfl
    | some tmp => rfl

theorem spendCoin_base : (V.spendCoin o).2.base = V.base := by
  cases hentry : (V.fetchCoin o).cacheCoins[o]? with
  | none =>
    rw [spendCoin_of_not_cached hentry]
    exact fetchCoin_base
  | some entry =>
    rw [spendCoin_of_entry hentry]
    dsimp only
    split
    · exact fetchCoin_base
    · exact fetchCoin_base

variable {possible_overwrite : Bool}

theorem addCoin_base {V' : CCoinsViewCache}
    (spendable : isUnspendable coin.out.scriptPubKey = false)
    (h : V.addCoin o coin possible_overwrite = .ok V') : V'.base = V.base := by
  obtain ⟨-, -, rfl⟩ := (addCoin_eq_ok spendable).mp h
  rfl

theorem Sound.getCoin (sound : Sound db caches) (o : COutPoint) :
    Sound db (CoinsStack.getCoin db caches o).2 ∧
      view db (CoinsStack.getCoin db caches o).2 = view db caches := by
  induction caches with
  | nil => exact ⟨trivial, rfl⟩
  | cons cache below ih =>
    have fetched : Sound db (fetched db cache below o) ∧
        view db (CoinsStack.fetched db cache below o) = view db below := by
      unfold CoinsStack.fetched
      split
      · exact ⟨sound.2, rfl⟩
      · exact ih sound.2
    obtain ⟨after, same⟩ := sound.1.over.fetchCoin o
    obtain ⟨sound', seen⟩ := Sound.replace fetchCoin_base after.toSound fetched.1 fetched.2
    exact ⟨sound', seen.trans (same.trans view_cons.symm)⟩

theorem Sound.fetched (sound : Sound db below) (cache : CCoinsMap) (o : COutPoint) :
    Sound db (CoinsStack.fetched db cache below o) ∧
      view db (CoinsStack.fetched db cache below o) = view db below := by
  unfold CoinsStack.fetched
  split
  · exact ⟨sound, rfl⟩
  · exact sound.getCoin o

theorem Sound.spendCoin (sound : Sound db (cache :: below)) (o : COutPoint) :
    Sound db (CoinsStack.spendCoin db o (cache :: below)) ∧
      view db (CoinsStack.spendCoin db o (cache :: below)) =
        Function.update (view db (cache :: below)) o none := by
  obtain ⟨after, seen⟩ := sound.1.over.spendCoin o
  obtain ⟨rest, same⟩ := Sound.fetched sound.2 cache o
  obtain ⟨sound', hview⟩ := Sound.replace spendCoin_base after.toSound rest same
  refine ⟨sound', ?_⟩
  rw [view_cons, ← seen]
  exact hview

theorem Sound.addCoin (sound : Sound db (cache :: below))
    (vacant : possible_overwrite = false → view db (cache :: below) o = none)
    (hunspent : coin.isSpent = false) (spendable : isUnspendable coin.out.scriptPubKey = false) :
    ∃ caches, CoinsStack.addCoin db o coin possible_overwrite (cache :: below) = .ok caches ∧
      Sound db caches ∧
        view db caches = Function.update (view db (cache :: below)) o (some coin) := by
  rw [view_cons] at vacant ⊢
  obtain ⟨V', hadd, after, seen⟩ := sound.1.over.overwrite vacant hunspent spendable
  obtain ⟨sound', hview⟩ :=
    Sound.replace (addCoin_base spendable hadd) after.toSound sound.2 rfl
  refine ⟨V'.cacheCoins :: below, ?_, sound', hview.trans seen⟩
  rw [CoinsStack.addCoin, hadd]
  rfl

theorem Sound.eraseClean (sound : Sound db (cache :: below)) {entry : CCoinsCacheEntry}
    (hentry : (level db below cache).cacheCoins[o]? = some entry) (clean : entry.dirty = false) :
    Sound db (cache.erase o :: below) ∧
      view db (cache.erase o :: below) = view db (cache :: below) := by
  have seen : (level db below cache).lookup o = (level db below cache).baseCoin o := by
    rw [lookup_of_entry hentry]
    exact sound.1.clean hentry clean
  obtain ⟨sound', hview⟩ := Sound.replace (V := (level db below cache).eraseEntry o) rfl
    (sound.1.eraseEntry o) sound.2 rfl
  refine ⟨sound', hview.trans ?_⟩
  rw [lookup_eraseEntry, ← seen, Function.update_eq_self, view_cons]

theorem Sound.uncache (sound : Sound db caches) (o : COutPoint) :
    Sound db (CoinsStack.uncache o caches) ∧
      view db (CoinsStack.uncache o caches) = view db caches := by
  cases caches with
  | nil => exact ⟨trivial, rfl⟩
  | cons cache below =>
    rw [CoinsStack.uncache]
    cases hentry : cache[o]? with
    | none =>
      rw [Option.any_none, if_neg Bool.false_ne_true]
      exact ⟨sound, rfl⟩
    | some entry =>
      rw [Option.any_some]
      split
      · next unflagged =>
          rw [Bool.and_eq_true, Bool.not_eq_true'] at unflagged
          exact sound.eraseClean hentry unflagged.1
      · exact ⟨sound, rfl⟩

theorem Sound.below_congr (sound : Sound db (upper ++ lower)) (sound' : Sound db' lower')
    (same : view db' lower' = view db lower) :
    Sound db' (upper ++ lower') ∧ view db' (upper ++ lower') = view db (upper ++ lower) := by
  induction upper with
  | nil => exact ⟨sound', same⟩
  | cons cache upper ih =>
    obtain ⟨rest, hview⟩ := ih sound.2
    have hlevel : level db' (upper ++ lower') cache = level db (upper ++ lower) cache := by
      unfold level
      rw [hview]
    refine ⟨⟨?_, rest⟩, ?_⟩
    · change (level db' (upper ++ lower') cache).Sound
      rw [hlevel]
      exact sound.1
    · rw [List.cons_append, List.cons_append, view_cons, view_cons, hlevel]

theorem Sound.of_append (sound : Sound db (upper ++ lower)) : Sound db lower := by
  induction upper with
  | nil => exact sound
  | cons cache upper ih => exact ih sound.2

theorem level_empty_cacheCoins {o : COutPoint} : (level db below ∅).cacheCoins[o]? = none :=
  ExtTreeMap.getElem?_empty

theorem lookup_level_empty : (level db below ∅).lookup = view db below := by
  funext o
  rw [lookup_of_not_cached level_empty_cacheCoins, baseCoin_level]

theorem sound_level_empty : (level db below ∅).Sound := by
  refine ⟨?_, ?_⟩
  · intro o entry h
    rw [level_empty_cacheCoins] at h
    cases h
  · intro o entry h
    rw [level_empty_cacheCoins] at h
    cases h

theorem Sound.under_empty (empty : ∀ cache ∈ upper, cache = ∅) (sound : Sound db lower) :
    Sound db (upper ++ lower) ∧ view db (upper ++ lower) = view db lower := by
  induction upper with
  | nil => exact ⟨sound, rfl⟩
  | cons cache upper ih =>
    obtain ⟨rfl, others⟩ := List.forall_mem_cons.mp empty
    obtain ⟨rest, hview⟩ := ih others
    refine ⟨⟨sound_level_empty, rest⟩, ?_⟩
    rw [List.cons_append, view_cons, lookup_level_empty, hview]

theorem sound_of_empty (empty : ∀ cache ∈ caches, cache = ∅) :
    Sound db caches ∧ view db caches = view db [] := by
  have shown : Sound db (caches ++ []) ∧ view db (caches ++ []) = view db [] :=
    Sound.under_empty empty trivial
  rw [List.append_nil] at shown
  exact shown

end

/-! ### Merging -/

def seen (entry : Option CCoinsCacheEntry) (base : Option Coin) : Option Coin :=
  match entry with
  | none => base
  | some entry => unspent (some entry.coin)

structure EntrySound (entry : Option CCoinsCacheEntry) (base : Option Coin) : Prop where
  fresh : ∀ e ∈ entry, e.fresh = true → base = none
  clean : ∀ e ∈ entry, e.dirty = false → unspent (some e.coin) = base

section

variable {us : Option CCoinsCacheEntry} {child : CCoinsCacheEntry} {base : Option Coin}

theorem entrySound_none : EntrySound none base := by
  refine ⟨?_, ?_⟩
  · intro e he
    cases he
  · intro e he
    cases he

theorem entrySound_dirty {fresh : Bool} (h : fresh = true → base = none) :
    EntrySound (some ⟨coin, true, fresh⟩) base := by
  refine ⟨?_, ?_⟩
  · intro e he
    obtain rfl := Option.some.inj he
    exact h
  · intro e he dirty
    obtain rfl := Option.some.inj he
    cases dirty

theorem mergeEntry_spec (sound : EntrySound us base)
    (childSound : EntrySound (some child) (seen us base)) :
    ∃ merged, mergeEntry us child = .ok merged ∧ EntrySound merged base ∧
      seen merged base = unspent (some child.coin) := by
  unfold mergeEntry
  cases hdirty : child.dirty with
  | false => exact ⟨us, rfl, sound, (childSound.clean child rfl hdirty).symm⟩
  | true =>
    rw [Bool.not_true, if_neg Bool.false_ne_true]
    cases us with
    | none =>
      have bare : child.fresh = true → base = none := childSound.fresh child rfl
      by_cases dropped : (child.fresh && child.coin.isSpent) = true
      · rw [Bool.and_eq_true] at dropped
        refine ⟨none, by simp [dropped], entrySound_none, ?_⟩
        rw [unspent_some.mpr dropped.2]
        exact bare dropped.1
      · exact ⟨some ⟨child.coin, true, child.fresh⟩, by simp [dropped],
          entrySound_dirty bare, rfl⟩
    | some us =>
      have bare : us.fresh = true → base = none := sound.fresh us rfl
      have allowed : ¬ (child.fresh = true ∧ us.coin.isSpent = false) := by
        rintro ⟨fresh, hunspent⟩
        have empty : unspent (some us.coin) = none := childSound.fresh child rfl fresh
        rw [unspent_some, hunspent] at empty
        cases empty
      dsimp only
      rw [(failIf_eq_ok (u := ())).mpr allowed]
      by_cases pruned : (us.fresh && child.coin.isSpent) = true
      · refine ⟨none, by simp [pruned], entrySound_none, ?_⟩
        rw [Bool.and_eq_true] at pruned
        rw [unspent_some.mpr pruned.2]
        exact bare pruned.1
      · exact ⟨some ⟨child.coin, true, us.fresh⟩, by simp [pruned],
          entrySound_dirty bare, rfl⟩

end

theorem putEntry_getElem? (cache : CCoinsMap) (o o' : COutPoint) (entry : Option CCoinsCacheEntry) :
    (putEntry cache o entry)[o']? = if o' = o then entry else cache[o']? := by
  cases entry with
  | none => exact Keyed.getElem?_erase_eq cache o o'
  | some entry => exact Keyed.getElem?_insert_eq cache o o' entry

variable {entries : List (COutPoint × CCoinsCacheEntry)} {entry : COutPoint × CCoinsCacheEntry}
variable {cache : CCoinsMap}

theorem batchWrite_cons_eq_ok {cache' : CCoinsMap} {merged : Option CCoinsCacheEntry}
    (hmerge : mergeEntry cache[entry.1]? entry.2 = .ok merged)
    (hrest : batchWrite (putEntry cache entry.1 merged) entries = .ok cache') :
    batchWrite cache (entry :: entries) = .ok cache' := by
  unfold batchWrite at hrest ⊢
  rw [List.foldlM_cons, hmerge]
  exact hrest

variable {base : COutPoint → Option Coin}

theorem batchWrite_spec (nodup : (entries.map Prod.fst).Nodup)
    (sound : ∀ o, EntrySound cache[o]? (base o))
    (childSound : ∀ e ∈ entries, EntrySound (some e.2) (seen cache[e.1]? (base e.1))) :
    ∃ cache', batchWrite cache entries = .ok cache' ∧ (∀ o, EntrySound cache'[o]? (base o)) ∧
      (∀ e ∈ entries, seen cache'[e.1]? (base e.1) = unspent (some e.2.coin)) ∧
      ∀ o, o ∉ entries.map Prod.fst → cache'[o]? = cache[o]? := by
  induction entries generalizing cache with
  | nil => exact ⟨cache, rfl, sound, fun e he => absurd he List.not_mem_nil, fun _ _ => rfl⟩
  | cons entry entries ih =>
    rw [List.map_cons, List.nodup_cons] at nodup
    obtain ⟨merged, hmerge, hsound, hseen⟩ :=
      mergeEntry_spec (sound entry.1) (childSound entry List.mem_cons_self)
    have others : ∀ e ∈ entries, e.1 ≠ entry.1 := fun e he heq =>
      nodup.1 (heq ▸ List.mem_map_of_mem he)
    have mergedSound : ∀ o, EntrySound (putEntry cache entry.1 merged)[o]? (base o) := by
      intro o
      rw [putEntry_getElem?]
      split
      · next heq => exact heq ▸ hsound
      · exact sound o
    have restSound : ∀ e ∈ entries, EntrySound (some e.2)
        (seen (putEntry cache entry.1 merged)[e.1]? (base e.1)) := by
      intro e he
      rw [putEntry_getElem?, if_neg (others e he)]
      exact childSound e (List.mem_cons_of_mem _ he)
    obtain ⟨cache', hrest, sound', seen', kept⟩ := ih nodup.2 mergedSound restSound
    refine ⟨cache', batchWrite_cons_eq_ok hmerge hrest, sound', ?_, ?_⟩
    · intro e he
      rcases List.mem_cons.mp he with rfl | he
      · rw [kept _ nodup.1, putEntry_getElem?, if_pos rfl]
        exact hseen
      · exact seen' e he
    · intro o ho
      rw [List.map_cons, List.mem_cons, not_or] at ho
      rw [kept o ho.2, putEntry_getElem?, if_neg ho.1]

variable {db : CoinsDb}

theorem writeEntry_getElem? (childSound : EntrySound (some entry.2) db.coins[entry.1]?)
    (o : COutPoint) :
    (writeEntry db entry).coins[o]? =
      if o = entry.1 then unspent (some entry.2.coin) else db.coins[o]? := by
  unfold writeEntry
  split
  · next clean =>
      rw [Bool.not_eq_true'] at clean
      split
      · next heq => rw [heq, childSound.clean entry.2 rfl clean]
      · rfl
  · split
    · next hspent =>
        rw [Keyed.getElem?_erase_eq, unspent_some.mpr hspent]
    · next hspent =>
        rw [Keyed.getElem?_insert_eq,
          unspent_eq_some.mpr ⟨rfl, Bool.eq_false_iff.mpr hspent⟩]

theorem foldl_writeEntry (nodup : (entries.map Prod.fst).Nodup)
    (childSound : ∀ e ∈ entries, EntrySound (some e.2) db.coins[e.1]?) :
    (∀ e ∈ entries, (entries.foldl writeEntry db).coins[e.1]? = unspent (some e.2.coin)) ∧
      ∀ o, o ∉ entries.map Prod.fst → (entries.foldl writeEntry db).coins[o]? = db.coins[o]? := by
  induction entries generalizing db with
  | nil => exact ⟨fun e he => absurd he List.not_mem_nil, fun _ _ => rfl⟩
  | cons entry entries ih =>
    rw [List.map_cons, List.nodup_cons] at nodup
    have written := writeEntry_getElem? (childSound entry List.mem_cons_self)
    have others : ∀ e ∈ entries, e.1 ≠ entry.1 := fun e he heq =>
      nodup.1 (heq ▸ List.mem_map_of_mem he)
    have restSound : ∀ e ∈ entries, EntrySound (some e.2) (writeEntry db entry).coins[e.1]? := by
      intro e he
      rw [written, if_neg (others e he)]
      exact childSound e (List.mem_cons_of_mem _ he)
    obtain ⟨values, kept⟩ := ih nodup.2 restSound
    refine ⟨?_, ?_⟩
    · intro e he
      rcases List.mem_cons.mp he with rfl | he
      · rw [List.foldl_cons, kept _ nodup.1, written, if_pos rfl]
      · exact values e he
    · intro o ho
      rw [List.map_cons, List.mem_cons, not_or] at ho
      rw [List.foldl_cons, kept o ho.2, written, if_neg ho.1]

section

variable {db : CoinsDb} {below : List CCoinsMap} {cache parent : CCoinsMap}

theorem view_eq_seen (cache : CCoinsMap) (below : List CCoinsMap) (o : COutPoint) :
    view db (cache :: below) o = seen cache[o]? (view db below o) := by
  rw [view_cons]
  unfold CCoinsViewCache.lookup seen
  rw [baseCoin_level]
  rfl

theorem entrySound_iff : (level db below cache).Sound ↔
    ∀ o, EntrySound cache[o]? (view db below o) := by
  constructor
  · intro sound o
    refine ⟨?_, ?_⟩
    · intro e he fresh
      exact baseCoin_level.symm.trans (sound.fresh he fresh)
    · intro e he clean
      exact (sound.clean he clean).trans baseCoin_level
  · intro sound
    refine ⟨?_, ?_⟩
    · intro o e he fresh
      exact baseCoin_level.trans ((sound o).fresh e he fresh)
    · intro o e he clean
      exact ((sound o).clean e he clean).trans baseCoin_level.symm

theorem seen_of_entries {after : COutPoint → Option Coin}
    (values : ∀ e ∈ cache.toList, after e.1 = unspent (some e.2.coin))
    (kept : ∀ o, o ∉ cache.toList.map Prod.fst → after o = base o) (o : COutPoint) :
    after o = seen cache[o]? (base o) := by
  cases hentry : cache[o]? with
  | some entry =>
    exact values (o, entry) (ExtTreeMap.mem_toList_iff_getElem?_eq_some.mpr hentry)
  | none =>
    refine kept o fun hmem => ?_
    obtain ⟨e, he, rfl⟩ := List.mem_map.mp hmem
    rw [ExtTreeMap.mem_toList_iff_getElem?_eq_some.mp he] at hentry
    cases hentry

theorem entrySound_of_mem (sound : (level db below cache).Sound)
    {e : COutPoint × CCoinsCacheEntry} (he : e ∈ cache.toList) :
    EntrySound (some e.2) (view db below e.1) := by
  have entry := entrySound_iff.mp sound e.1
  rw [ExtTreeMap.mem_toList_iff_getElem?_eq_some.mp he] at entry
  exact entry

theorem flushTop_db (sound : Sound db [cache]) :
    view (cache.toList.foldl writeEntry db) [] = view db [cache] := by
  obtain ⟨values, kept⟩ := foldl_writeEntry (Keyed.nodup_keys cache)
    (fun e he => entrySound_of_mem sound.1 he)
  funext o
  rw [view_eq_seen]
  exact seen_of_entries values kept o

theorem flushTop_parent (sound : Sound db (cache :: parent :: below)) :
    ∃ parent', batchWrite parent cache.toList = .ok parent' ∧ Sound db (parent' :: below) ∧
      view db (parent' :: below) = view db (cache :: parent :: below) := by
  have parentSound := entrySound_iff.mp sound.2.1
  obtain ⟨parent', hwrite, sound', values, kept⟩ := batchWrite_spec (Keyed.nodup_keys cache)
    parentSound (by
      intro e he
      rw [← view_eq_seen]
      exact entrySound_of_mem sound.1 he)
  have values' : ∀ e ∈ cache.toList, view db (parent' :: below) e.1 = unspent (some e.2.coin) := by
    intro e he
    rw [view_eq_seen]
    exact values e he
  have kept' : ∀ o, o ∉ cache.toList.map Prod.fst →
      view db (parent' :: below) o = view db (parent :: below) o := by
    intro o ho
    rw [view_eq_seen, view_eq_seen, kept o ho]
  refine ⟨parent', hwrite, ⟨entrySound_iff.mpr sound', sound.2.2⟩, ?_⟩
  funext o
  rw [view_eq_seen cache]
  exact seen_of_entries values' kept' o

theorem Sound.flushTop (sound : Sound db (cache :: below)) :
    ∃ db' below', CoinsStack.flushTop db (cache :: below) = .ok ⟨db', ∅ :: below'⟩ ∧
      below'.length = below.length ∧ Sound db' (∅ :: below') ∧
        view db' (∅ :: below') = view db (cache :: below) := by
  cases below with
  | nil =>
    refine ⟨_, [], rfl, rfl, ⟨sound_level_empty, trivial⟩, ?_⟩
    rw [view_cons, lookup_level_empty]
    exact flushTop_db sound
  | cons parent below =>
    obtain ⟨parent', hwrite, sound', hview⟩ := flushTop_parent sound
    refine ⟨db, parent' :: below, ?_, rfl, ⟨sound_level_empty, sound'⟩, ?_⟩
    · rw [CoinsStack.flushTop, hwrite]
      rfl
    · rw [view_cons, lookup_level_empty, hview]

end

/-! ### Runs -/

inductive CoinsOp where
  | addCoin (level : ℕ) (o : COutPoint) (coin : Coin) (possible_overwrite : Bool)
  | spendCoin (level : ℕ) (o : COutPoint)
  | getCoin (level : ℕ) (o : COutPoint)
  | accessCoin (level : ℕ) (o : COutPoint)
  | haveCoin (level : ℕ) (o : COutPoint)
  | uncache (level : ℕ) (o : COutPoint)
  | flush (level : ℕ)

variable (st : CoinsStack)

def onLevel (level : ℕ) (lower : List CCoinsMap) : CoinsStack :=
  { st with caches := st.caches.take level ++ lower }

def flush (level : ℕ) : Except CoinsFault CoinsStack := do
  let flushed ← flushTop st.db (st.caches.drop level)
  pure ⟨flushed.db, st.caches.take level ++ flushed.caches⟩

def exec : CoinsOp → Except CoinsFault CoinsStack
  | .addCoin level o coin possible_overwrite => do
    let lower ← addCoin st.db o coin possible_overwrite (st.caches.drop level)
    pure (st.onLevel level lower)
  | .spendCoin level o => .ok (st.onLevel level (spendCoin st.db o (st.caches.drop level)))
  | .getCoin level o => .ok (st.onLevel level (getCoin st.db (st.caches.drop level) o).2)
  | .accessCoin level o => .ok (st.onLevel level (accessCoin st.db (st.caches.drop level) o).2)
  | .haveCoin level o => .ok (st.onLevel level (haveCoin st.db (st.caches.drop level) o).2)
  | .uncache level o => .ok (st.onLevel level (uncache o (st.caches.drop level)))
  | .flush level => st.flush level

def flushAll : Except CoinsFault CoinsStack :=
  (List.range st.caches.length).foldlM CoinsStack.flush st

def Uncovered (level : ℕ) : Prop :=
  level < st.caches.length ∧ ∀ cache ∈ st.caches.take level, cache.isEmpty = true

instance (level : ℕ) : Decidable (st.Uncovered level) := inferInstanceAs (Decidable (_ ∧ _))

/-- Coins are added and spent under empty caches. An added coin is a spendable one, and it does not
overwrite one that is seen at the top unless that is allowed. -/
def Allowed : CoinsOp → Prop
  | .addCoin level o coin possible_overwrite =>
    st.Uncovered level ∧ coin.isSpent = false ∧ isUnspendable coin.out.scriptPubKey = false ∧
      (possible_overwrite = false → view st.db st.caches o = none)
  | .spendCoin level _ => st.Uncovered level
  | _ => True

instance : (op : CoinsOp) → Decidable (st.Allowed op)
  | .addCoin _ _ _ _ => inferInstanceAs (Decidable (_ ∧ _ ∧ _ ∧ (_ → _)))
  | .spendCoin level _ => inferInstanceAs (Decidable (st.Uncovered level))
  | .getCoin _ _ => inferInstanceAs (Decidable True)
  | .accessCoin _ _ => inferInstanceAs (Decidable True)
  | .haveCoin _ _ => inferInstanceAs (Decidable True)
  | .uncache _ _ => inferInstanceAs (Decidable True)
  | .flush _ => inferInstanceAs (Decidable True)

def plainStep (coins : COutPoint → Option Coin) : CoinsOp → COutPoint → Option Coin
  | .addCoin _ o coin _ => Function.update coins o (some coin)
  | .spendCoin _ o => Function.update coins o none
  | _ => coins

structure Shows (coins : COutPoint → Option Coin) : Prop where
  sound : Sound st.db st.caches
  seen : view st.db st.caches = coins

section

variable {st : CoinsStack} {coins : COutPoint → Option Coin} {o : COutPoint}

theorem Shows.lower (h : st.Shows coins) (level : ℕ) : Sound st.db (st.caches.drop level) := by
  have sound := h.sound
  rw [← List.take_append_drop level st.caches] at sound
  exact sound.of_append

variable {level : ℕ} {lower' : List CCoinsMap}

theorem Shows.onLevel (h : st.Shows coins) {db' : CoinsDb} (sound' : Sound db' lower')
    (same : view db' lower' = view st.db (st.caches.drop level)) :
    CoinsStack.Shows ⟨db', st.caches.take level ++ lower'⟩ coins := by
  have sound := h.sound
  rw [← List.take_append_drop level st.caches] at sound
  obtain ⟨sound₁, hview⟩ := sound.below_congr sound' same
  refine ⟨sound₁, ?_⟩
  rw [hview, List.take_append_drop, h.seen]

theorem Uncovered.empty (h : st.Uncovered level) :
    ∀ cache ∈ st.caches.take level, cache = ∅ := by
  intro cache hcache
  exact ExtTreeMap.isEmpty_iff.mp (h.2 cache hcache)

theorem Shows.uncovered (h : st.Shows coins) (uncovered : st.Uncovered level) :
    ∃ cache below, st.caches.drop level = cache :: below ∧ view st.db (cache :: below) = coins := by
  have nonempty : st.caches.drop level ≠ [] := by
    rw [ne_eq, List.drop_eq_nil_iff, not_le]
    exact uncovered.1
  obtain ⟨cache, below, hdrop⟩ := List.exists_cons_of_ne_nil nonempty
  refine ⟨cache, below, hdrop, ?_⟩
  have same := ((h.lower level).under_empty uncovered.empty).2
  rw [List.take_append_drop, h.seen, hdrop] at same
  exact same.symm

theorem Uncovered.shows (uncovered : st.Uncovered level) {coins' : COutPoint → Option Coin}
    (sound' : Sound st.db lower') (seen' : view st.db lower' = coins') : (st.onLevel level lower').Shows coins' := by
  obtain ⟨sound₁, hview⟩ := sound'.under_empty uncovered.empty
  exact ⟨sound₁, hview.trans seen'⟩

theorem Shows.flush (h : st.Shows coins) (level : ℕ) :
    ∃ st', st.flush level = .ok st' ∧ st'.Shows coins := by
  have lower := h.lower level
  cases hdrop : st.caches.drop level with
  | nil =>
    refine ⟨⟨st.db, st.caches.take level ++ []⟩, ?_, ?_⟩
    · unfold CoinsStack.flush
      rw [hdrop]
      rfl
    · exact h.onLevel trivial (by rw [hdrop])
  | cons cache below =>
    rw [hdrop] at lower
    obtain ⟨db', below', hflush, -, sound', hview⟩ := lower.flushTop
    refine ⟨⟨db', st.caches.take level ++ ∅ :: below'⟩, ?_, ?_⟩
    · unfold CoinsStack.flush
      rw [hdrop, hflush]
      rfl
    · exact h.onLevel sound' (by rw [hview, hdrop])

theorem accessCoin_caches (db : CoinsDb) (caches : List CCoinsMap) (o : COutPoint) :
    (accessCoin db caches o).2 = (getCoin db caches o).2 := by
  cases caches with
  | nil => rfl
  | cons cache below => rfl

theorem haveCoin_caches (db : CoinsDb) (caches : List CCoinsMap) (o : COutPoint) :
    (haveCoin db caches o).2 = (getCoin db caches o).2 := by
  cases caches with
  | nil => rfl
  | cons cache below => rfl

theorem Shows.exec (h : st.Shows coins) {op : CoinsOp} (allowed : st.Allowed op) :
    ∃ st', st.exec op = .ok st' ∧ st'.Shows (plainStep coins op) := by
  cases op with
  | addCoin level o coin possible_overwrite =>
    obtain ⟨uncovered, hunspent, spendable, vacant⟩ := allowed
    obtain ⟨cache, below, hdrop, hview⟩ := h.uncovered uncovered
    have lower := h.lower level
    rw [hdrop] at lower
    rw [h.seen, ← hview] at vacant
    obtain ⟨caches, hadd, sound', seen'⟩ := lower.addCoin vacant hunspent spendable
    refine ⟨st.onLevel level caches, ?_, uncovered.shows sound' ?_⟩
    · rw [CoinsStack.exec, hdrop, hadd]
      rfl
    · rw [seen', hview]
      rfl
  | spendCoin level o =>
    obtain ⟨cache, below, hdrop, hview⟩ := h.uncovered allowed
    have lower := h.lower level
    rw [hdrop] at lower
    obtain ⟨sound', seen'⟩ := lower.spendCoin o
    refine ⟨_, rfl, Uncovered.shows allowed (hdrop ▸ sound') ?_⟩
    rw [hdrop, seen', hview]
    rfl
  | getCoin level o =>
    obtain ⟨sound', same⟩ := (h.lower level).getCoin o
    exact ⟨_, rfl, h.onLevel sound' same⟩
  | accessCoin level o =>
    obtain ⟨sound', same⟩ := (h.lower level).getCoin o
    rw [← accessCoin_caches] at sound' same
    exact ⟨_, rfl, h.onLevel sound' same⟩
  | haveCoin level o =>
    obtain ⟨sound', same⟩ := (h.lower level).getCoin o
    rw [← haveCoin_caches] at sound' same
    exact ⟨_, rfl, h.onLevel sound' same⟩
  | uncache level o =>
    obtain ⟨sound', same⟩ := (h.lower level).uncache o
    exact ⟨_, rfl, h.onLevel sound' same⟩
  | flush level => exact h.flush level

/-! ### What is read and what is flushed -/

theorem Shows.haveCoin (h : st.Shows coins) (o : COutPoint) :
    (CoinsStack.haveCoin st.db st.caches o).1 = (coins o).isSome := by
  have sound := h.sound
  have seen := h.seen
  cases hcaches : st.caches with
  | nil =>
    rw [← seen, hcaches]
    rfl
  | cons cache below =>
    rw [hcaches] at sound seen
    rw [← seen, view_cons]
    exact (sound.1.over.haveCoin o).1

theorem Shows.accessCoin (h : st.Shows coins) (o : COutPoint) :
    unspent (some (CoinsStack.accessCoin st.db st.caches o).1) = coins o := by
  have seen := h.seen
  cases hcaches : st.caches with
  | nil =>
    rw [hcaches] at seen
    rw [← seen]
    change unspent (some (st.db.coins[o]?.getD Coin.empty)) = st.db.coins[o]?
    cases hcoin : st.db.coins[o]? with
    | none => exact unspent_empty
    | some coin => exact unspent_eq_some.mpr ⟨rfl, st.db.unspent hcoin⟩
  | cons cache below =>
    rw [hcaches] at seen
    rw [← seen, view_cons, ← fetchCoin_lookup]
    change unspent (some (((level st.db below cache).fetchCoin o).cacheCoins[o]?.map
      CCoinsCacheEntry.coin |>.getD Coin.empty)) = _
    cases ((level st.db below cache).fetchCoin o).cacheCoins[o]? with
    | none => exact unspent_empty
    | some entry => rfl

structure Flushed (st : CoinsStack) (depth level : ℕ) : Prop where
  depth : st.caches.length = depth
  empty : ∀ cache ∈ st.caches.take level, cache = ∅

theorem Flushed.flush {depth : ℕ} (h : st.Shows coins) (flushed : Flushed st depth level)
    (inside : level < depth) :
    ∃ st', st.flush level = .ok st' ∧ st'.Shows coins ∧ Flushed st' depth (level + 1) := by
  have lower := h.lower level
  have hlength := flushed.depth
  obtain ⟨cache, below, hdrop⟩ : ∃ cache below, st.caches.drop level = cache :: below := by
    refine List.exists_cons_of_ne_nil ?_
    rw [ne_eq, List.drop_eq_nil_iff, not_le, hlength]
    exact inside
  rw [hdrop] at lower
  obtain ⟨db', below', hflush, hbelow, sound', hview⟩ := lower.flushTop
  have htake : (st.caches.take level).length = level := by
    rw [List.length_take, hlength]
    exact min_eq_left inside.le
  refine ⟨⟨db', st.caches.take level ++ ∅ :: below'⟩, ?_, ?_, ?_, ?_⟩
  · unfold CoinsStack.flush
    rw [hdrop, hflush]
    rfl
  · exact h.onLevel sound' (by rw [hview, hdrop])
  · have total := congrArg List.length (List.take_append_drop level st.caches)
    rw [hdrop, List.length_append, List.length_cons, htake, hlength] at total
    change (st.caches.take level ++ ∅ :: below').length = depth
    rw [List.length_append, List.length_cons, htake, hbelow, total]
  · intro c hc
    change c ∈ (st.caches.take level ++ ∅ :: below').take (level + 1) at hc
    rw [List.take_append, htake, Nat.add_sub_cancel_left, List.take_of_length_le (by omega),
      List.mem_append] at hc
    rcases hc with hc | hc
    · exact flushed.empty c hc
    · exact List.mem_singleton.mp hc

theorem Shows.flushLevels (h : st.Shows coins) (level : ℕ) (inside : level ≤ st.caches.length) :
    ∃ st', (List.range level).foldlM CoinsStack.flush st = .ok st' ∧ st'.Shows coins ∧
      Flushed st' st.caches.length level := by
  induction level with
  | zero => exact ⟨st, rfl, h, rfl, fun cache hcache => absurd hcache (by simp)⟩
  | succ level ih =>
    obtain ⟨st₁, hrun, h₁, flushed⟩ := ih (Nat.le_of_succ_le inside)
    obtain ⟨st₂, hflush, h₂, flushed₂⟩ := flushed.flush h₁ inside
    refine ⟨st₂, ?_, h₂, flushed₂⟩
    rw [List.range_succ, List.foldlM_append, hrun]
    change List.foldlM CoinsStack.flush st₁ [level] = .ok st₂
    rw [List.foldlM_cons, hflush]
    rfl

theorem Shows.flushAll (h : st.Shows coins) :
    ∃ st', st.flushAll = .ok st' ∧ ∀ o, st'.db.coins[o]? = coins o := by
  obtain ⟨st', hrun, h', flushed⟩ := h.flushLevels st.caches.length le_rfl
  refine ⟨st', hrun, ?_⟩
  have empty := flushed.empty
  rw [← flushed.depth, List.take_length] at empty
  intro o
  rw [← h'.seen, (sound_of_empty empty).2]
  rfl

end

def new (db : CoinsDb) (depth : ℕ) : CoinsStack := ⟨db, List.replicate depth ∅⟩

theorem new_shows (db : CoinsDb) (depth : ℕ) : (new db depth).Shows fun o => db.coins[o]? := by
  have empty : ∀ cache ∈ (new db depth).caches, cache = ∅ :=
    fun _ h => List.eq_of_mem_replicate h
  exact ⟨(sound_of_empty empty).1, (sound_of_empty empty).2⟩

/-- A stack of caches of any depth behaves as a plain map: no allowed operation fails, what is read
at the top is what the map holds, and so is what the database holds once all caches are flushed. -/
theorem stack_refines_map (db : CoinsDb) (depth : ℕ) (ops : List CoinsOp)
    (allowed : Steps.Permitted exec Allowed (new db depth) ops) :
    ∃ st, ops.foldlM exec (new db depth) = .ok st ∧
      (∀ o, (getCoin st.db st.caches o).1 = ops.foldl plainStep (fun o => db.coins[o]?) o ∧
        (haveCoin st.db st.caches o).1 =
          (ops.foldl plainStep (fun o => db.coins[o]?) o).isSome ∧
        unspent (some (accessCoin st.db st.caches o).1) =
          ops.foldl plainStep (fun o => db.coins[o]?) o) ∧
      ∃ st', st.flushAll = .ok st' ∧
        ∀ o, st'.db.coins[o]? = ops.foldl plainStep (fun o => db.coins[o]?) o := by
  obtain ⟨st, hrun, h⟩ : ∃ st, ops.foldlM exec (new db depth) = .ok st ∧
      st.Shows (ops.foldl plainStep fun o => db.coins[o]?) :=
    allowed.simulated (fun h allowed => h.exec allowed) (new_shows db depth)
  exact ⟨st, hrun, fun o => ⟨congrFun h.seen o, h.haveCoin o, h.accessCoin o⟩, h.flushAll⟩

def toyOps : List CoinsOp :=
  [.addCoin 0 ⟨1, 0⟩ ⟨⟨50, []⟩, false, 7⟩ false, .flush 0, .flush 1, .haveCoin 0 ⟨1, 0⟩,
    .uncache 1 ⟨1, 0⟩, .addCoin 0 ⟨1, 0⟩ ⟨⟨60, []⟩, false, 8⟩ true, .flush 0, .spendCoin 1 ⟨1, 0⟩,
    .getCoin 0 ⟨1, 0⟩, .accessCoin 0 ⟨2, 0⟩]

def emptyDb : CoinsDb := ⟨∅, fun h => nomatch ExtTreeMap.getElem?_empty.symm.trans h⟩

theorem stack_refines_map_toy :
    Steps.Permitted exec Allowed (new emptyDb 2) toyOps ∧
      ∃ st, toyOps.foldlM exec (new emptyDb 2) = .ok st ∧
        (getCoin st.db st.caches ⟨1, 0⟩).1 = none := by
  have allowed : Steps.Permitted exec Allowed (new emptyDb 2) toyOps := by decide +kernel
  obtain ⟨st, hrun, hread, -⟩ := stack_refines_map emptyDb 2 toyOps allowed
  refine ⟨allowed, st, hrun, ?_⟩
  rw [(hread ⟨1, 0⟩).1]
  decide +kernel

end CoinsStack

end ButCore
