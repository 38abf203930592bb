import ButCore.Evo.ActiveChain

/-!
# The coins cache

A cache of coins over a base view. Reading a coin copies it into the cache, so every operation
returns the cache it leaves. What a reader sees at an outpoint is the cached coin if there is an
entry, else the coin of the base; a null output counts as no coin.
-/
namespace ButCore

open Checked
open Std (ExtTreeMap)

def CTxOut.null : CTxOut := ⟨-1, []⟩

def CTxOut.isNull (out : CTxOut) : Bool := decide (out.nValue = -1)

structure Coin where
  out : CTxOut
  fCoinBase : Bool
  nHeight : ℕ
  deriving DecidableEq

namespace Coin

def empty : Coin := ⟨CTxOut.null, false, 0⟩

def isSpent (coin : Coin) : Bool := coin.out.isNull

end Coin

/-- The two bits of `flags` are kept apart. -/
structure CCoinsCacheEntry where
  coin : Coin
  dirty : Bool
  fresh : Bool
  deriving DecidableEq

/-- `base` is `GetCoin` of the view below. -/
structure CCoinsViewCache where
  base : COutPoint → Option Coin
  cacheCoins : ExtTreeMap COutPoint CCoinsCacheEntry

inductive CoinsFault where
  | assertion
  | logicError (what : String)
  deriving DecidableEq

namespace CCoinsViewCache

section

variable (V : CCoinsViewCache) (outpoint : COutPoint)

def setEntry (entry : CCoinsCacheEntry) : CCoinsViewCache :=
  { V with cacheCoins := V.cacheCoins.insert outpoint entry }

def eraseEntry : CCoinsViewCache := { V with cacheCoins := V.cacheCoins.erase outpoint }

/-- The iterator that `FetchCoin` returns is read from the cache it leaves. -/
def fetchCoin : CCoinsViewCache :=
  match V.cacheCoins[outpoint]? with
  | some _ => V
  | none =>
    match V.base outpoint with
    | none => V
    | some tmp => V.setEntry outpoint ⟨tmp, false, tmp.isSpent⟩

def haveCoin : Bool × CCoinsViewCache :=
  let V := V.fetchCoin outpoint
  (V.cacheCoins[outpoint]?.any fun entry => !entry.coin.isSpent, V)

def accessCoin : Coin × CCoinsViewCache :=
  let V := V.fetchCoin outpoint
  ((V.cacheCoins[outpoint]?.map CCoinsCacheEntry.coin).getD Coin.empty, V)

def emplaced : CCoinsCacheEntry := V.cacheCoins[outpoint]?.getD ⟨Coin.empty, false, false⟩

def addCoin (coin : Coin) (possible_overwrite : Bool) : Except CoinsFault CCoinsViewCache := do
  failIf (coin.isSpent = true) .assertion
  if isUnspendable coin.out.scriptPubKey then pure V else do
    let entry := V.emplaced outpoint
    failIf (possible_overwrite = false ∧ entry.coin.isSpent = false)
      (.logicError "Adding new coin that replaces non-pruned entry")
    let fresh := !possible_overwrite && !entry.dirty
    pure (V.setEntry outpoint ⟨coin, true, entry.fresh || fresh⟩)

def spendCoin : Option Coin × CCoinsViewCache :=
  let V := V.fetchCoin outpoint
  match V.cacheCoins[outpoint]? with
  | none => (none, V)
  | some entry =>
    (some entry.coin,
      if entry.fresh then V.eraseEntry outpoint
      else V.setEntry outpoint ⟨Coin.empty, true, false⟩)

end

/-! ### What a reader sees -/

def unspent (coin : Option Coin) : Option Coin := coin.filter fun coin => !coin.isSpent

def baseCoin (V : CCoinsViewCache) (outpoint : COutPoint) : Option Coin := unspent (V.base outpoint)

def lookup (V : CCoinsViewCache) (outpoint : COutPoint) : Option Coin :=
  match V.cacheCoins[outpoint]? with
  | none => V.baseCoin outpoint
  | some entry => unspent (some entry.coin)

/-- The flags say what their comments say: the base has no coin under a FRESH entry, and an entry
that is not DIRTY is what the base has. -/
structure Sound (V : CCoinsViewCache) : Prop where
  fresh : ∀ {o entry}, V.cacheCoins[o]? = some entry → entry.fresh = true → V.baseCoin o = none
  clean : ∀ {o entry}, V.cacheCoins[o]? = some entry → entry.dirty = false →
    unspent (some entry.coin) = V.baseCoin o

structure Over (hidden : COutPoint → Prop) (V : CCoinsViewCache) : Prop extends Sound V where
  covered : ∀ {o}, hidden o → V.cacheCoins[o]? = none → V.baseCoin o = none

section

variable {V : CCoinsViewCache} {o : COutPoint} {coin : Coin} {entry : CCoinsCacheEntry}

theorem unspent_eq_some {c : Option Coin} :
    unspent c = some coin ↔ c = some coin ∧ coin.isSpent = false := by
  simp [unspent, Option.filter_eq_some_iff]

theorem unspent_some : unspent (some coin) = none ↔ coin.isSpent = true := by
  simp [unspent, Option.filter_eq_none_iff]

theorem unspent_empty : unspent (some Coin.empty) = none := by decide

theorem lookup_of_entry (h : V.cacheCoins[o]? = some entry) :
    V.lookup o = unspent (some entry.coin) := by
  rw [lookup, h]

theorem lookup_of_not_cached (h : V.cacheCoins[o]? = none) : V.lookup o = V.baseCoin o := by
  rw [lookup, h]

theorem Sound.over (sound : V.Sound) : Over (fun o => V.lookup o = none) V where
  toSound := sound
  covered hidden uncached := lookup_of_not_cached uncached ▸ hidden

end

section

variable {hidden : COutPoint → Prop} {V : CCoinsViewCache} {o : COutPoint}
  {entry : CCoinsCacheEntry}

theorem setEntry_getElem? (o' : COutPoint) :
    (V.setEntry o entry).cacheCoins[o']? = if o' = o then some entry else V.cacheCoins[o']? := by
  rw [setEntry, ExtTreeMap.getElem?_insert]
  simp only [Std.compare_eq_iff_eq, eq_comm (a := o)]

theorem eraseEntry_getElem? (o' : COutPoint) :
    (V.eraseEntry o).cacheCoins[o']? = if o' = o then none else V.cacheCoins[o']? := by
  rw [eraseEntry, ExtTreeMap.getElem?_erase]
  simp only [Std.compare_eq_iff_eq, eq_comm (a := o)]

theorem lookup_setEntry :
    (V.setEntry o entry).lookup = Function.update V.lookup o (unspent (some entry.coin)) := by
  funext o'
  rw [lookup, setEntry_getElem?, Function.update_apply]
  by_cases h : o' = o
  · simp only [if_pos h]
  · simp only [if_neg h]
    rfl

theorem lookup_eraseEntry :
    (V.eraseEntry o).lookup = Function.update V.lookup o (V.baseCoin o) := by
  funext o'
  rw [lookup, eraseEntry_getElem?, Function.update_apply]
  by_cases h : o' = o
  · rw [h, if_pos rfl, if_pos rfl]
    rfl
  · simp only [if_neg h]
    rfl

theorem Over.setEntry (inv : Over hidden V)
    (fresh : entry.fresh = true → V.baseCoin o = none)
    (clean : entry.dirty = false → unspent (some entry.coin) = V.baseCoin o) :
    Over hidden (V.setEntry o entry) := by
  refine ⟨⟨?_, ?_⟩, ?_⟩
  · intro o' entry' h
    rw [setEntry_getElem?] at h
    split_ifs at h with ho
    · cases h
      exact ho ▸ fresh
    · exact inv.fresh h
  · intro o' entry' h
    rw [setEntry_getElem?] at h
    split_ifs at h with ho
    · cases h
      exact ho ▸ clean
    · exact inv.clean h
  · intro o' hidden' h
    rw [setEntry_getElem?] at h
    split_ifs at h with ho
    exact inv.covered hidden' h

theorem Sound.eraseEntry (sound : V.Sound) (o : COutPoint) : (V.eraseEntry o).Sound := by
  refine ⟨?_, ?_⟩
  · intro o' entry' h
    rw [eraseEntry_getElem?] at h
    split_ifs at h with ho
    exact sound.fresh h
  · intro o' entry' h
    rw [eraseEntry_getElem?] at h
    split_ifs at h with ho
    exact sound.clean h

theorem Over.eraseEntry (inv : Over hidden V) (bare : V.baseCoin o = none) :
    Over hidden (V.eraseEntry o) := by
  refine ⟨inv.toSound.eraseEntry o, ?_⟩
  intro o' hidden' h
  rw [eraseEntry_getElem?] at h
  split_ifs at h with ho
  · exact ho ▸ bare
  · exact inv.covered hidden' h

end

section

variable {hidden : COutPoint → Prop} {V V' : CCoinsViewCache} {o : COutPoint} {coin : Coin}
  {entry : CCoinsCacheEntry} {possible_overwrite : Bool}

theorem Over.fetchCoin (inv : Over hidden V) (o : COutPoint) :
    Over hidden (V.fetchCoin o) ∧ (V.fetchCoin o).lookup = V.lookup := by
  rw [CCoinsViewCache.fetchCoin]
  cases hentry : V.cacheCoins[o]? with
  | some entry => exact ⟨inv, rfl⟩
  | none =>
    cases hbase : V.base o with
    | none => exact ⟨inv, rfl⟩
    | some tmp =>
      have hcoin : V.baseCoin o = unspent (some tmp) := by rw [baseCoin, hbase]
      refine ⟨inv.setEntry ?_ fun _ => hcoin.symm, ?_⟩
      · intro fresh
        rw [hcoin, unspent_some]
        exact fresh
      · rw [lookup_setEntry, ← hcoin, ← lookup_of_not_cached hentry, Function.update_eq_self]

theorem fetchCoin_not_cached (h : (V.fetchCoin o).cacheCoins[o]? = none) : V.lookup o = none := by
  rw [CCoinsViewCache.fetchCoin] at h
  cases hentry : V.cacheCoins[o]? with
  | some entry => simp only [hentry, reduceCtorEq] at h
  | none =>
    cases hbase : V.base o with
    | none => rw [lookup_of_not_cached hentry, baseCoin, hbase]; rfl
    | some tmp => simp only [hentry, hbase, setEntry_getElem?, if_true, reduceCtorEq] at h

theorem Over.haveCoin (inv : Over hidden V) (o : COutPoint) :
    (V.haveCoin o).1 = (V.lookup o).isSome ∧ Over hidden (V.haveCoin o).2 ∧
      (V.haveCoin o).2.lookup = V.lookup := by
  obtain ⟨after, same⟩ := inv.fetchCoin o
  refine ⟨?_, after, same⟩
  rw [CCoinsViewCache.haveCoin]
  cases hentry : (V.fetchCoin o).cacheCoins[o]? with
  | none => rw [fetchCoin_not_cached hentry]; rfl
  | some entry =>
    rw [← same, lookup_of_entry hentry, unspent]
    cases hspent : entry.coin.isSpent <;> simp [hspent]

theorem spendCoin_of_not_cached (h : (V.fetchCoin o).cacheCoins[o]? = none) :
    V.spendCoin o = (none, V.fetchCoin o) := by
  simp only [CCoinsViewCache.spendCoin, h]

theorem spendCoin_of_entry (h : (V.fetchCoin o).cacheCoins[o]? = some entry) :
    V.spendCoin o = (some entry.coin, if entry.fresh then (V.fetchCoin o).eraseEntry o
      else (V.fetchCoin o).setEntry o ⟨Coin.empty, true, false⟩) := by
  simp only [CCoinsViewCache.spendCoin, h]

theorem Over.spendCoin (inv : Over hidden V) (o : COutPoint) :
    Over hidden (V.spendCoin o).2 ∧
      (V.spendCoin o).2.lookup = Function.update V.lookup o none := by
  obtain ⟨after, same⟩ := inv.fetchCoin o
  cases hentry : (V.fetchCoin o).cacheCoins[o]? with
  | none =>
    rw [spendCoin_of_not_cached hentry]
    refine ⟨after, ?_⟩
    rw [same, ← fetchCoin_not_cached hentry, Function.update_eq_self]
  | some entry =>
    rw [spendCoin_of_entry hentry]
    cases hfresh : entry.fresh with
    | true =>
      have bare := after.fresh hentry hfresh
      refine ⟨after.eraseEntry bare, ?_⟩
      rw [if_pos rfl, lookup_eraseEntry, bare, same]
    | false =>
      rw [if_neg Bool.false_ne_true]
      refine ⟨after.setEntry (by simp) (by simp), ?_⟩
      rw [lookup_setEntry, unspent_empty, same]

theorem Over.spendCoin_fst (inv : Over hidden V) (present : V.lookup o = some coin) :
    (V.spendCoin o).1 = some coin := by
  cases hentry : (V.fetchCoin o).cacheCoins[o]? with
  | none => exact absurd (present.symm.trans (fetchCoin_not_cached hentry)) (by simp)
  | some entry =>
    rw [← (inv.fetchCoin o).2, lookup_of_entry hentry] at present
    rw [spendCoin_of_entry hentry]
    exact (unspent_eq_some.mp present).1

theorem addCoin_eq_ok (spendable : isUnspendable coin.out.scriptPubKey = false) :
    V.addCoin o coin possible_overwrite = .ok V' ↔ coin.isSpent = false ∧
      (possible_overwrite = false → (V.emplaced o).coin.isSpent = true) ∧
        V.setEntry o ⟨coin, true,
          (V.emplaced o).fresh || !possible_overwrite && !(V.emplaced o).dirty⟩ = V' := by
  simp only [CCoinsViewCache.addCoin, bind_eq_ok, failIf_eq_ok, spendable, Bool.false_eq_true,
    if_false, pure_eq_ok, exists_const, Bool.not_eq_true, not_and, Bool.not_eq_false]

theorem addCoin_unspendable (unspendable : isUnspendable coin.out.scriptPubKey = true) :
    V.addCoin o coin possible_overwrite = .ok V' ↔ coin.isSpent = false ∧ V = V' := by
  simp only [CCoinsViewCache.addCoin, bind_eq_ok, failIf_eq_ok, unspendable, if_true, pure_eq_ok,
    exists_const, Bool.not_eq_true]

theorem emplaced_isSpent (vacant : V.lookup o = none) : (V.emplaced o).coin.isSpent = true := by
  cases hentry : V.cacheCoins[o]? with
  | none => rw [emplaced, hentry]; rfl
  | some entry =>
    rw [lookup_of_entry hentry] at vacant
    rw [emplaced, hentry]
    exact unspent_some.mp vacant

theorem Over.bare (inv : Over hidden V) (vacant : possible_overwrite = false → V.lookup o = none)
    (fresh : ((V.emplaced o).fresh || !possible_overwrite && !(V.emplaced o).dirty) = true) :
    V.baseCoin o = none := by
  rw [Bool.or_eq_true, Bool.and_eq_true, Bool.not_eq_true', Bool.not_eq_true'] at fresh
  cases hentry : V.cacheCoins[o]? with
  | none =>
    rcases fresh with fresh | ⟨new, -⟩
    · rw [emplaced, hentry] at fresh
      exact absurd fresh Bool.false_ne_true
    · rw [← lookup_of_not_cached hentry, vacant new]
  | some entry =>
    have found : V.emplaced o = entry := by rw [emplaced, hentry]; rfl
    rw [found] at fresh
    rcases fresh with fresh | ⟨new, clean⟩
    · exact inv.fresh hentry fresh
    · rw [← inv.clean hentry clean, ← lookup_of_entry hentry, vacant new]

theorem Over.overwrite (inv : Over hidden V)
    (vacant : possible_overwrite = false → V.lookup o = none)
    (unspent_ : coin.isSpent = false) (spendable : isUnspendable coin.out.scriptPubKey = false) :
    ∃ V', V.addCoin o coin possible_overwrite = .ok V' ∧ Over hidden V' ∧
      V'.lookup = Function.update V.lookup o (some coin) := by
  refine ⟨_, (addCoin_eq_ok spendable).mpr
      ⟨unspent_, fun new => emplaced_isSpent (vacant new), rfl⟩,
    inv.setEntry (inv.bare vacant) (by simp), ?_⟩
  rw [lookup_setEntry, unspent_eq_some.mpr ⟨rfl, unspent_⟩]

theorem Over.addCoin (inv : Over hidden V) (vacant : V.lookup o = none)
    (unspent_ : coin.isSpent = false) (spendable : isUnspendable coin.out.scriptPubKey = false) :
    ∃ V', V.addCoin o coin possible_overwrite = .ok V' ∧ Over hidden V' ∧
      V'.lookup = Function.update V.lookup o (some coin) :=
  inv.overwrite (fun _ => vacant) unspent_ spendable

theorem Over.of_addCoin (inv : Over hidden V) (vacant : V.lookup o = none)
    (spendable : isUnspendable coin.out.scriptPubKey = false)
    (added : V.addCoin o coin possible_overwrite = .ok V') :
    Over hidden V' ∧ V'.lookup = Function.update V.lookup o (some coin) := by
  obtain ⟨W, run, after, seen⟩ :=
    inv.addCoin vacant ((addCoin_eq_ok spendable).mp added).1 spendable
  obtain rfl : W = V' := Except.ok.inj (run.symm.trans added)
  exact ⟨after, seen⟩

theorem Over.vacant_of_addCoin (inv : Over hidden V) (hidden_o : hidden o)
    (spendable : isUnspendable coin.out.scriptPubKey = false)
    (added : V.addCoin o coin false = .ok V') : V.lookup o = none := by
  obtain ⟨-, spent, -⟩ := (addCoin_eq_ok spendable).mp added
  cases hentry : V.cacheCoins[o]? with
  | none => rw [lookup_of_not_cached hentry, inv.covered hidden_o hentry]
  | some entry =>
    rw [emplaced, hentry] at spent
    rw [lookup_of_entry hentry, unspent_some]
    exact spent rfl

end

end CCoinsViewCache

end ButCore
