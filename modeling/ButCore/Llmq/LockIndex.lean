import ButCore.Lib.Steps
import ButCore.Llmq.InstantSendDb

/-!
# The indexes of the InstantSend database

A lock is found by its transaction and by its inputs through the keys `is_tx` and `is_in`. A second
lock of a transaction, or one with an input of another lock, takes these keys over, and whichever of
them is removed first erases them. The keys `is_m` of mined locks are a list without repetitions;
what a batch erases does not depend on their order. Archived hashes are left out.
-/
namespace ButCore.Llmq.InstantSendDb
open Std (ExtTreeMap)

namespace CInstantSendDb

/-- The null hash when there is no lock. -/
def getInstantSendLockHashByTxid (s : CInstantSendDb) (txid : Uint256) : Uint256 × CInstantSendDb :=
  match s.txidCache.get txid with
  | (some islockHash, cache) => (islockHash, { s with txidCache := cache })
  | (none, cache) =>
    let islockHash := s.db.isTx[txid]?.getD 0
    (islockHash, { s with txidCache := cache.insert cacheSize txid islockHash })

def getInstantSendLockByTxid (s : CInstantSendDb) (txid : Uint256) :
    Option Lock × CInstantSendDb :=
  let (islockHash, s) := s.getInstantSendLockHashByTxid txid
  if islockHash = 0 then (none, s) else s.getInstantSendLockByHash islockHash

end CInstantSendDb

structure MinedDb where
  locks : CInstantSendDb
  isM : List (ℕ × Uint256)

namespace MinedDb

def empty : MinedDb := ⟨.empty, []⟩

def writeInstantSendLockMined (s : MinedDb) (hash : Uint256) (nHeight : ℕ) : MinedDb :=
  { s with isM := s.isM.insert (nHeight, hash) }

def removeInstantSendLockMined (s : MinedDb) (hash : Uint256) (nHeight : ℕ) : MinedDb :=
  { s with isM := s.isM.erase (nHeight, hash) }

def removeConfirmedInstantSendLocks (s : MinedDb) (nUntilHeight : ℕ) : MinedDb where
  locks := InstantSendDb.removeConfirmedInstantSendLocks s.locks
    ((s.isM.filter fun key => key.1 ≤ nUntilHeight).map Prod.snd)
  isM := s.isM.filter fun key => nUntilHeight < key.1

def removeChainedInstantSendLocks (s : MinedDb) (islockHash txid : Uint256) : MinedDb :=
  { s with locks := (InstantSendDb.removeChainedInstantSendLocks s.locks islockHash txid).1 }

/-- What `ProcessInstantSendLock` does to the database: other locks of the transaction and of the
inputs are looked up for the log only. -/
def processInstantSendLock (hashOf : LockHash) (s : MinedDb) (islock : Lock)
    (pindexMined : Option ℕ) : MinedDb :=
  let hash := hashOf.serializeHash islock
  match s.locks.getInstantSendLockByHash hash with
  | (some _, locks) => { s with locks := locks }
  | (none, locks) =>
    let locks := (locks.getInstantSendLockByTxid islock.txid).2
    let locks := islock.inputs.foldl (fun l o => (l.getInstantSendLockByInput o).2) locks
    let s := { s with locks := locks.writeNewInstantSendLock hash islock }
    match pindexMined with
    | none => s
    | some nHeight => s.writeInstantSendLockMined hash nHeight

end MinedDb

inductive DbCall where
  | processInstantSendLock (islock : Lock) (pindexMined : Option ℕ)
  | writeInstantSendLockMined (hash : Uint256) (nHeight : ℕ)
  | removeInstantSendLockMined (hash : Uint256) (nHeight : ℕ)
  | removeConfirmedInstantSendLocks (nUntilHeight : ℕ)
  | removeChainedInstantSendLocks (islockHash txid : Uint256)
  | getInstantSendLockByHash (hash : Uint256)
  | getInstantSendLockByTxid (txid : Uint256)
  | getInstantSendLockByInput (outpoint : COutPoint)
  | restart

def dbStep (hashOf : LockHash) (s : MinedDb) : DbCall → MinedDb
  | .processInstantSendLock islock pindexMined => s.processInstantSendLock hashOf islock pindexMined
  | .writeInstantSendLockMined hash nHeight => s.writeInstantSendLockMined hash nHeight
  | .removeInstantSendLockMined hash nHeight => s.removeInstantSendLockMined hash nHeight
  | .removeConfirmedInstantSendLocks nUntilHeight => s.removeConfirmedInstantSendLocks nUntilHeight
  | .removeChainedInstantSendLocks islockHash txid =>
    s.removeChainedInstantSendLocks islockHash txid
  | .getInstantSendLockByHash hash => { s with locks := (s.locks.getInstantSendLockByHash hash).2 }
  | .getInstantSendLockByTxid txid => { s with locks := (s.locks.getInstantSendLockByTxid txid).2 }
  | .getInstantSendLockByInput outpoint =>
    { s with locks := (s.locks.getInstantSendLockByInput outpoint).2 }
  | .restart => { s with locks := { CInstantSendDb.empty with db := s.locks.db } }

/-! ### Stored locks are found -/

def Resolves (s : CInstantSendDb) : Prop :=
  ∀ (h : Uint256) (islock : Lock), s.db.isI[h]? = some islock →
    (∃ (h' : Uint256) (found : Lock),
      (s.getInstantSendLockByTxid islock.txid).1 = some found ∧ s.db.isI[h']? = some found ∧ found.txid = islock.txid) ∧
    ∀ o ∈ islock.inputs, ∃ (h' : Uint256) (found : Lock),
      (s.getInstantSendLockByInput o).1 = some found ∧ s.db.isI[h']? = some found ∧ o ∈ found.inputs

namespace LockTables

def TxGuarded (db : LockTables) : Prop :=
  ∀ {t h : Uint256}, db.isTx[t]? = some h → ∃ islock : Lock, db.isI[h]? = some islock ∧ islock.txid = t

def Indexed (db : LockTables) : Prop :=
  ∀ (h : Uint256) (islock : Lock), db.isI[h]? = some islock →
    db.isTx[islock.txid]? ≠ none ∧ ∀ o ∈ islock.inputs, db.isIn[o]? ≠ none

def RemovedTogether (db : LockTables) (removed : Uint256 → Prop) : Prop :=
  ∀ (h : Uint256) (islock : Lock) (h' : Uint256) (islock' : Lock), db.isI[h]? = some islock →
    db.isI[h']? = some islock' →
    (islock'.txid = islock.txid ∨ ∃ o ∈ islock.inputs, o ∈ islock'.inputs) →
    removed h → removed h'

end LockTables

section

variable {hashOf : LockHash} {s : CInstantSendDb}

theorem hashByTxid_db (s : CInstantSendDb) (txid : Uint256) :
    (s.getInstantSendLockHashByTxid txid).2.db = s.db := by
  unfold CInstantSendDb.getInstantSendLockHashByTxid
  split <;> rfl

theorem Coherent.hashByTxid (coh : Coherent s) (txid : Uint256) :
    (s.getInstantSendLockHashByTxid txid).1 = s.db.isTx[txid]?.getD 0 ∧
      Coherent (s.getInstantSendLockHashByTxid txid).2 := by
  have hget := LruCache.get_fst s.txidCache txid
  have hcache := coh.txid.get txid
  unfold CInstantSendDb.getInstantSendLockHashByTxid
  split
  · next islockHash cache heq =>
      rw [heq] at hget hcache
      exact ⟨coh.txid txid islockHash hget.symm, coh.islock, hcache, coh.outpoint⟩
  · next cache heq =>
      rw [heq] at hcache
      exact ⟨rfl, coh.islock, hcache.insert rfl, coh.outpoint⟩

theorem lockByTxid_db (s : CInstantSendDb) (txid : Uint256) :
    (s.getInstantSendLockByTxid txid).2.db = s.db := by
  have hdb := hashByTxid_db s txid
  unfold CInstantSendDb.getInstantSendLockByTxid
  dsimp only
  split
  · exact hdb
  · exact (lockByHash_db _ _).trans hdb

theorem Inv.lockByTxid (inv : Inv hashOf s) (guarded : s.db.TxGuarded) (txid : Uint256) :
    (s.getInstantSendLockByTxid txid).1 = s.db.isTx[txid]?.bind (fun h => s.db.isI[h]?) ∧
      Coherent (s.getInstantSendLockByTxid txid).2 := by
  obtain ⟨hfst, coh⟩ := inv.coherent.hashByTxid txid
  have hdb := hashByTxid_db s txid
  unfold CInstantSendDb.getInstantSendLockByTxid
  dsimp only
  rw [hfst]
  cases hentry : s.db.isTx[txid]? with
  | none =>
    rw [Option.getD_none, if_pos rfl]
    exact ⟨rfl, coh⟩
  | some h =>
    obtain ⟨islock, hstored, -⟩ := guarded hentry
    have hne : h ≠ 0 := by
      rw [← inv.stored hstored]
      exact hashOf.ne_null islock
    rw [Option.getD_some, if_neg hne, coh.lockByHash_fst h, hdb]
    exact ⟨rfl, coh.lockByHash h⟩

structure IndexInv (hashOf : LockHash) (s : CInstantSendDb) : Prop where
  inv : Inv hashOf s
  txGuarded : s.db.TxGuarded
  indexed : s.db.Indexed

theorem IndexInv.of_db {s' : CInstantSendDb} (index : IndexInv hashOf s) (hdb : s'.db = s.db)
    (coh : Coherent s') : IndexInv hashOf s' :=
  ⟨index.inv.of_db hdb coh, hdb ▸ index.txGuarded, hdb ▸ index.indexed⟩

theorem IndexInv.resolves (index : IndexInv hashOf s) : Resolves s := by
  intro h islock hstored
  obtain ⟨htx, hins⟩ := index.indexed h islock hstored
  constructor
  · obtain ⟨h', hentry⟩ := Option.ne_none_iff_exists'.mp htx
    obtain ⟨found, hfound, htxid⟩ := index.txGuarded hentry
    refine ⟨h', found, ?_, hfound, htxid⟩
    rw [(index.inv.lockByTxid index.txGuarded islock.txid).1, hentry, Option.bind_some, hfound]
  · intro o ho
    obtain ⟨h', hentry⟩ := Option.ne_none_iff_exists'.mp (hins o ho)
    obtain ⟨found, hfound, hmem⟩ := index.inv.guarded hentry
    refine ⟨h', found, ?_, hfound, hmem⟩
    rw [(index.inv.lockByInput o).1, LockTables.lockOf, hentry, Option.bind_some, hfound]

end

section

variable {hashOf : LockHash} {s : CInstantSendDb} {visited : List Uint256} {r : Removal}

/-- A lock that is removed takes its keys with it, so the locks that stay keep theirs iff locks with
a key in common are removed together. -/
theorem Removing.indexed_iff (rem : Removing s.db visited r) (indexed : s.db.Indexed) :
    (r.s.db.writeBatch r.batch).Indexed ↔ s.db.RemovedTogether (· ∈ visited) := by
  have hkept : ∀ {h islock}, s.db.isI[h]? = some islock → h ∉ visited →
      (r.s.db.writeBatch r.batch).isI[h]? = some islock := by
    intro h islock hstored hvisited
    rw [rem.db, writeBatch_isI, if_neg fun herased => hvisited ((rem.eraseI h).mp herased).1]
    exact hstored
  constructor
  · intro indexed' h islock h' islock' hstored hstored' hshare hremoved
    by_contra hvisited
    obtain ⟨htx, hins⟩ := indexed' h' islock' (hkept hstored' hvisited)
    rcases hshare with htxid | ⟨o, ho, ho'⟩
    · apply htx
      rw [rem.db, writeBatch_isTx,
        if_pos ((rem.eraseTx _).mpr ⟨h, hremoved, islock, hstored, htxid.symm⟩)]
    · apply hins o ho'
      rw [rem.db, writeBatch_isIn, if_pos ((rem.eraseIn _).mpr ⟨h, hremoved, islock, hstored, ho⟩)]
  · intro together h islock hstored'
    rw [rem.db, writeBatch_isI] at hstored'
    split at hstored'
    · cases hstored'
    · next hnot =>
        have hvisited : h ∉ visited := fun hmem =>
          hnot ((rem.eraseI h).mpr ⟨hmem, by rw [hstored']; exact Option.some_ne_none _⟩)
        obtain ⟨htx, hins⟩ := indexed h islock hstored'
        rw [rem.db]
        constructor
        · rw [writeBatch_isTx, if_neg]
          · exact htx
          · intro herased
            obtain ⟨k, hk, other, hother, htxid⟩ := (rem.eraseTx _).mp herased
            exact hvisited (together k other h islock hother hstored' (Or.inl htxid.symm) hk)
        · intro o ho
          rw [writeBatch_isIn, if_neg]
          · exact hins o ho
          · intro herased
            obtain ⟨k, hk, other, hother, hmem⟩ := (rem.eraseIn _).mp herased
            exact hvisited (together k other h islock hother hstored' (Or.inr ⟨o, hmem, ho⟩) hk)

theorem Removing.txGuarded (rem : Removing s.db visited r) (guarded : s.db.TxGuarded) :
    (r.s.db.writeBatch r.batch).TxGuarded := by
  intro t h hentry
  rw [rem.db, writeBatch_isTx] at hentry
  split at hentry
  · cases hentry
  · next ht =>
      obtain ⟨islock, hstored, htxid⟩ := guarded hentry
      refine ⟨islock, ?_, htxid⟩
      rw [rem.db, writeBatch_isI, if_neg, hstored]
      intro herased
      exact ht ((rem.eraseTx t).mpr ⟨h, ((rem.eraseI h).mp herased).1, islock, hstored, htxid⟩)

theorem IndexInv.removed (index : IndexInv hashOf s) (rem : Removing s.db visited r)
    (together : s.db.RemovedTogether (· ∈ visited)) :
    IndexInv hashOf { r.s with db := r.s.db.writeBatch r.batch } :=
  ⟨rem.writeBatch index.inv, rem.txGuarded index.txGuarded,
    (rem.indexed_iff index.indexed).mpr together⟩

theorem IndexInv.removeConfirmedInstantSendLocks (index : IndexInv hashOf s) {mined : List Uint256}
    (together : s.db.RemovedTogether (· ∈ mined)) :
    IndexInv hashOf (removeConfirmedInstantSendLocks s mined) := by
  refine index.removed ((removing_start index.inv.coherent).foldl_remove mined) ?_
  simpa using together

theorem IndexInv.removeChainedInstantSendLocks (index : IndexInv hashOf s) {root txid : Uint256}
    (together : s.db.RemovedTogether (s.db.Chained root txid)) :
    IndexInv hashOf (removeChainedInstantSendLocks s root txid).1 := by
  obtain ⟨visited, rem, hvisited⟩ := removeChained_removing index.inv.coherent root txid
  refine index.removed rem ?_
  simpa only [hvisited] using together

theorem IndexInv.writeNewInstantSendLock (index : IndexInv hashOf s) (islock : Lock)
    (new : s.db.isI[hashOf.serializeHash islock]? = none) :
    IndexInv hashOf (s.writeNewInstantSendLock (hashOf.serializeHash islock) islock) := by
  refine ⟨index.inv.writeNewInstantSendLock islock new, ?_, ?_⟩
  · intro t h hentry
    rw [writeNew_isTx] at hentry
    split at hentry
    · next ht =>
        cases hentry
        exact ⟨islock, by rw [writeNew_isI, if_pos rfl], ht.symm⟩
    · obtain ⟨other, hstored, htxid⟩ := index.txGuarded hentry
      have hne : h ≠ hashOf.serializeHash islock := by
        rintro rfl
        rw [new] at hstored
        cases hstored
      exact ⟨other, by rw [writeNew_isI, if_neg hne, hstored], htxid⟩
  · -- the keys of the new lock are there, and no key is taken away
    intro h other hstored
    rw [writeNew_isI] at hstored
    split at hstored
    · cases hstored
      refine ⟨by rw [writeNew_isTx, if_pos rfl]; exact Option.some_ne_none _, fun o ho => ?_⟩
      rw [writeNew_isIn, if_pos ho]
      exact Option.some_ne_none _
    · obtain ⟨htx, hins⟩ := index.indexed h other hstored
      constructor
      · rw [writeNew_isTx]
        split
        · exact Option.some_ne_none _
        · exact htx
      · intro o ho
        rw [writeNew_isIn]
        split
        · exact Option.some_ne_none _
        · exact hins o ho

theorem foldl_lockByInput (index : IndexInv hashOf s) (inputs : List COutPoint) :
    (inputs.foldl (fun l o => (l.getInstantSendLockByInput o).2) s).db = s.db ∧
      IndexInv hashOf (inputs.foldl (fun l o => (l.getInstantSendLockByInput o).2) s) := by
  induction inputs generalizing s with
  | nil => exact ⟨rfl, index⟩
  | cons o rest ih =>
    have hdb := lockByInput_db s o
    obtain ⟨hdb', index'⟩ := ih (index.of_db hdb (index.inv.lockByInput o).2)
    exact ⟨hdb'.trans hdb, index'⟩

theorem IndexInv.processInstantSendLock {s : MinedDb} (index : IndexInv hashOf s.locks)
    (islock : Lock) (pindexMined : Option ℕ) :
    IndexInv hashOf (s.processInstantSendLock hashOf islock pindexMined).locks := by
  have hfst := index.inv.coherent.lockByHash_fst (hashOf.serializeHash islock)
  have hdb := lockByHash_db s.locks (hashOf.serializeHash islock)
  have hlookup := index.of_db hdb (index.inv.coherent.lockByHash (hashOf.serializeHash islock))
  unfold MinedDb.processInstantSendLock
  dsimp only
  split
  · next found locks heq =>
      rw [heq] at hlookup
      exact hlookup
  · next locks heq =>
      rw [heq] at hfst hdb hlookup
      dsimp only at hfst hdb hlookup
      have hbyTxid := hlookup.of_db (lockByTxid_db locks islock.txid)
        (hlookup.inv.lockByTxid hlookup.txGuarded islock.txid).2
      obtain ⟨hdb', hbyInput⟩ := foldl_lockByInput hbyTxid islock.inputs
      have hwrite := hbyInput.writeNewInstantSendLock islock (by
        rw [hdb', lockByTxid_db, hdb]
        exact hfst.symm)
      split <;> exact hwrite

end

/-! ### Runs -/

/-- A removal leaves no lock behind that shares its transaction or an input with a removed one. -/
def KeepsIndex (s : MinedDb) : DbCall → Prop
  | .removeConfirmedInstantSendLocks nUntilHeight =>
    s.locks.db.RemovedTogether fun h => ∃ key ∈ s.isM, key.1 ≤ nUntilHeight ∧ key.2 = h
  | .removeChainedInstantSendLocks islockHash txid =>
    s.locks.db.RemovedTogether (s.locks.db.Chained islockHash txid)
  | _ => True

theorem indexInv_empty (hashOf : LockHash) : IndexInv hashOf CInstantSendDb.empty where
  inv := inv_empty hashOf
  txGuarded := by simp [LockTables.TxGuarded, CInstantSendDb.empty]
  indexed := by simp [LockTables.Indexed, CInstantSendDb.empty]

theorem IndexInv.dbStep {hashOf : LockHash} {s : MinedDb} (index : IndexInv hashOf s.locks)
    {call : DbCall} (keeps : KeepsIndex s call) : IndexInv hashOf (dbStep hashOf s call).locks := by
  cases call with
  | processInstantSendLock islock pindexMined => exact index.processInstantSendLock islock pindexMined
  | writeInstantSendLockMined hash nHeight => exact index
  | removeInstantSendLockMined hash nHeight => exact index
  | removeConfirmedInstantSendLocks nUntilHeight =>
    apply index.removeConfirmedInstantSendLocks
    intro h islock h' islock' hstored hstored' hshare hremoved
    have hkeys : ∀ k, k ∈ (s.isM.filter fun key => key.1 ≤ nUntilHeight).map Prod.snd ↔
        ∃ key ∈ s.isM, key.1 ≤ nUntilHeight ∧ key.2 = k := by
      simp [List.mem_filter, and_assoc]
    rw [hkeys] at hremoved ⊢
    exact keeps h islock h' islock' hstored hstored' hshare hremoved
  | removeChainedInstantSendLocks islockHash txid => exact index.removeChainedInstantSendLocks keeps
  | getInstantSendLockByHash hash =>
    exact index.of_db (lockByHash_db _ hash) (index.inv.coherent.lockByHash hash)
  | getInstantSendLockByTxid txid =>
    exact index.of_db (lockByTxid_db _ txid) (index.inv.lockByTxid index.txGuarded txid).2
  | getInstantSendLockByInput outpoint =>
    exact index.of_db (lockByInput_db _ outpoint) (index.inv.lockByInput outpoint).2
  | restart =>
    exact index.of_db rfl
      ⟨LruCache.coherent_empty, LruCache.coherent_empty, LruCache.coherent_empty⟩

/-- In a run whose removals leave no lock behind that shares a key with a removed one, every stored
lock is found by its transaction and by its inputs. -/
theorem run_resolves (hashOf : LockHash) (calls : List DbCall)
    (keeps : Steps.Meets (dbStep hashOf) KeepsIndex .empty calls) :
    Resolves (Steps.run (dbStep hashOf) .empty calls).locks := by
  have index : IndexInv hashOf (Steps.run (dbStep hashOf) .empty calls).locks :=
    Steps.run_inv (I := fun s : MinedDb => IndexInv hashOf s.locks)
      (fun _ _ index keeps => index.dbStep keeps) (indexInv_empty hashOf) keeps
  exact index.resolves

theorem removedTogether_of_toList {db : LockTables} {removed : Uint256 → Prop}
    (h : ∀ p ∈ db.isI.toList, ∀ p' ∈ db.isI.toList,
      (p'.2.txid = p.2.txid ∨ ∃ o ∈ p.2.inputs, o ∈ p'.2.inputs) → removed p.1 → removed p'.1) :
    db.RemovedTogether removed := by
  intro k islock k' islock' hstored hstored'
  exact h (k, islock) (ExtTreeMap.mem_toList_iff_getElem?_eq_some.mpr hstored) (k', islock')
    (ExtTreeMap.mem_toList_iff_getElem?_eq_some.mpr hstored')

def confirmedCalls : List DbCall :=
  [.processInstantSendLock (toyLock 201 0) none, .processInstantSendLock (toyLock 202 1) none,
    .writeInstantSendLockMined 201 5, .removeConfirmedInstantSendLocks 5]

theorem run_resolves_confirmed :
    (Steps.run (dbStep toyHash) .empty confirmedCalls).locks.db.isI.size = 1 ∧
      Resolves (Steps.run (dbStep toyHash) .empty confirmedCalls).locks := by
  refine ⟨by decide +kernel, run_resolves toyHash confirmedCalls ⟨trivial, trivial, trivial, ?_,
    trivial⟩⟩
  apply removedTogether_of_toList
  decide +kernel

def signedHash : LockHash where
  serializeHash islock := if islock.sig.isSome then 2 else 1
  ne_null islock := by split <;> decide

def duplicateCalls : List DbCall :=
  [.processInstantSendLock ⟨[⟨100, 0⟩], 201, none⟩ none,
    .processInstantSendLock ⟨[⟨100, 0⟩], 201, some 7⟩ none, .writeInstantSendLockMined 2 5,
    .removeConfirmedInstantSendLocks 5]

/-- The first lock is still stored, and its transaction does not lead to any lock. -/
theorem run_unresolved_duplicate :
    ¬ Resolves (Steps.run (dbStep signedHash) .empty duplicateCalls).locks := by
  intro resolves
  have hstored : ((Steps.run (dbStep signedHash) .empty duplicateCalls).locks.db.isI[(1 : Uint256)]?).map
      CInstantSendLock.txid = some 201 := by
    decide +kernel
  have hlost : ((Steps.run (dbStep signedHash) .empty
      duplicateCalls).locks.getInstantSendLockByTxid 201).1.isNone = true := by
    decide +kernel
  obtain ⟨islock, hislock, htxid⟩ := Option.map_eq_some_iff.mp hstored
  obtain ⟨⟨h', found, hfound, -⟩, -⟩ := resolves 1 islock hislock
  rw [htxid] at hfound
  rw [hfound] at hlost
  cases hlost

end ButCore.Llmq.InstantSendDb
