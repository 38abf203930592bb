import ButCore.Lib.LruCache
import ButCore.Lib.Worklist
import ButCore.Primitives

/-!
# The InstantSend database and conflicts with a block

Locks are stored under their hash, with an index by transaction and one by input, each behind a
cache.
-/
namespace ButCore.Llmq.InstantSendDb

open Std (ExtTreeMap)

/-- A lock; `sig` is `none` when the lazy signature does not decode. -/
structure CInstantSendLock (OutPoint Hash Sig : Type) where
  inputs : List OutPoint
  txid : Hash
  sig : Option Sig

abbrev Lock := CInstantSendLock COutPoint Uint256 (BitVec 768)

/-- `SerializeHash` of a lock; it never gives the null hash. -/
structure LockHash where
  serializeHash : Lock → Uint256
  ne_null : ∀ islock, serializeHash islock ≠ 0

/-- The keys `is_i`, `is_tx` and `is_in` of the database. -/
structure LockTables where
  isI : ExtTreeMap Uint256 Lock
  isTx : ExtTreeMap Uint256 Uint256
  isIn : ExtTreeMap COutPoint Uint256

structure CDBBatch where
  eraseI : List Uint256
  eraseTx : List Uint256
  eraseIn : List COutPoint

def CDBBatch.empty : CDBBatch := ⟨[], [], []⟩

def CDBBatch.eraseLock (batch : CDBBatch) (hash : Uint256) (islock : Lock) : CDBBatch :=
  ⟨batch.eraseI ++ [hash], batch.eraseTx ++ [islock.txid], batch.eraseIn ++ islock.inputs⟩

def LockTables.writeBatch (db : LockTables) (batch : CDBBatch) : LockTables where
  isI := batch.eraseI.foldl ExtTreeMap.erase db.isI
  isTx := batch.eraseTx.foldl ExtTreeMap.erase db.isTx
  isIn := batch.eraseIn.foldl ExtTreeMap.erase db.isIn

structure CInstantSendDb where
  db : LockTables
  islockCache : LruCache Uint256 (Option Lock)
  txidCache : LruCache Uint256 Uint256
  outpointCache : LruCache COutPoint Uint256

namespace CInstantSendDb

def cacheSize : ℕ := 10000

def empty : CInstantSendDb := ⟨⟨∅, ∅, ∅⟩, .empty, .empty, .empty⟩

def writeNewInstantSendLock (s : CInstantSendDb) (hash : Uint256) (islock : Lock) :
    CInstantSendDb where
  db :=
    { isI := s.db.isI.insert hash islock
      isTx := s.db.isTx.insert islock.txid hash
      isIn := islock.inputs.foldl (fun m o => m.insert o hash) s.db.isIn }
  islockCache := s.islockCache.insert cacheSize hash (some islock)
  txidCache := s.txidCache.insert cacheSize islock.txid hash
  outpointCache := islock.inputs.foldl (fun c o => c.insert cacheSize o hash) s.outpointCache

def getInstantSendLockByHash (s : CInstantSendDb) (hash : Uint256) : Option Lock × CInstantSendDb :=
  match s.islockCache.get hash with
  | (some ret, cache) => (ret, { s with islockCache := cache })
  | (none, cache) =>
    let ret := s.db.isI[hash]?
    (ret, { s with islockCache := cache.insert cacheSize hash ret })

/-- A cached null hash stands for an input that is not locked. -/
def getInstantSendLockByInput (s : CInstantSendDb) (outpoint : COutPoint) :
    Option Lock × CInstantSendDb :=
  match s.outpointCache.get outpoint with
  | (some islockHash, cache) =>
    let s := { s with outpointCache := cache }
    if islockHash = 0 then (none, s) else s.getInstantSendLockByHash islockHash
  | (none, cache) =>
    let found := s.db.isIn[outpoint]?
    let s := { s with outpointCache := cache.insert cacheSize outpoint (found.getD 0) }
    match found with
    | none => (none, s)
    | some islockHash => s.getInstantSendLockByHash islockHash

def eraseCached (s : CInstantSendDb) (hash : Uint256) (islock : Lock) : CInstantSendDb :=
  { s with
    islockCache := s.islockCache.erase hash
    txidCache := s.txidCache.erase islock.txid
    outpointCache := islock.inputs.foldl LruCache.erase s.outpointCache }

end CInstantSendDb

def LockTables.getInstantSendLocksByParent (db : LockTables) (parent : Uint256) : List Uint256 :=
  (db.isIn.toList.filter fun p => decide (p.1.hash = parent)).map Prod.snd

/-- A batch that is being filled, and the hashes of the locks it removes. -/
structure Removal where
  s : CInstantSendDb
  batch : CDBBatch
  result : List Uint256

def removeInstantSendLock (r : Removal) (hash : Uint256) : Option Lock × Removal :=
  match r.s.getInstantSendLockByHash hash with
  | (none, s) => (none, { r with s := s })
  | (some islock, s) =>
    (some islock, ⟨s.eraseCached hash islock, r.batch.eraseLock hash islock, r.result ++ [hash]⟩)

def removeChild (st : Removal × Worklist Uint256) (childIslockHash : Uint256) :
    Removal × Worklist Uint256 :=
  match removeInstantSendLock st.1 childIslockHash with
  | (none, r) => (r, st.2)
  | (some childIsLock, r) => (r, st.2.push childIsLock.txid)

def removeLoop : ℕ → Removal × Worklist Uint256 → Removal × Worklist Uint256
  | 0, st => st
  | fuel + 1, st =>
    match st.2.stack with
    | [] => st
    | top :: rest =>
      removeLoop fuel ((st.1.s.db.getInstantSendLocksByParent top).foldl removeChild
        (st.1, ⟨rest, st.2.added⟩))

/-- Each round pops a transaction, and a transaction of a stored lock is pushed once. -/
def removeChainedInstantSendLocks (s : CInstantSendDb) (islockHash txid : Uint256) :
    CInstantSendDb × List Uint256 :=
  let r := (removeLoop (s.db.isI.size + 1) (⟨s, .empty, []⟩, .start txid)).1
  let last := (removeInstantSendLock r islockHash).2
  ({ last.s with db := last.s.db.writeBatch last.batch }, r.result ++ [islockHash])

/-- `mined` are the hashes that the keys `is_m` list up to a height. -/
def removeConfirmedInstantSendLocks (s : CInstantSendDb) (mined : List Uint256) : CInstantSendDb :=
  let r := mined.foldl (fun r hash => (removeInstantSendLock r hash).2) ⟨s, .empty, []⟩
  { r.s with db := r.s.db.writeBatch r.batch }

def findConflictingLock (txid : Uint256) (s : CInstantSendDb) :
    List CTxIn → Option Lock × CInstantSendDb
  | [] => (none, s)
  | txin :: rest =>
    match s.getInstantSendLockByInput txin.prevout with
    | (none, s) => findConflictingLock txid s rest
    | (some otherIsLock, s) =>
      if otherIsLock.txid ≠ txid then (some otherIsLock, s) else findConflictingLock txid s rest

def getConflictingLock (isInstantSendEnabled : Bool) (s : CInstantSendDb) (tx : CTransaction) :
    Option Lock × CInstantSendDb :=
  if isInstantSendEnabled then findConflictingLock tx.hash s tx.vin else (none, s)

inductive FilterFault where
  /-- the block is refused with `conflict-tx-lock` -/
  | conflictTxLock (txid locked : Uint256)
  | assertion
  deriving DecidableEq

section

variable (hashOf : LockHash) (isInstantSendEnabled hasChainLock : Bool)

/-- The body of the InstantSend filter of `ConnectBlock`. -/
def checkConflict (s : CInstantSendDb) (tx : CTransaction) : Except FilterFault CInstantSendDb :=
  if tx.vin.isEmpty then .ok s
  else
    match getConflictingLock isInstantSendEnabled s tx with
    | (none, s) => .ok s
    | (some conflictLock, s) =>
      if hasChainLock then
        let s := (removeChainedInstantSendLocks s (hashOf.serializeHash conflictLock)
          conflictLock.txid).1
        match getConflictingLock isInstantSendEnabled s tx with
        | (none, s) => .ok s
        | (some _, _) => .error .assertion
      else .error (.conflictTxLock tx.hash conflictLock.txid)

end

namespace LockTables

variable (db : LockTables)

def lockOf (outpoint : COutPoint) : Option Lock := db.isIn[outpoint]?.bind fun h => db.isI[h]?

def conflicting (tx : CTransaction) : Option Lock :=
  tx.vin.findSome? fun txin => (db.lockOf txin.prevout).filter fun islock => islock.txid ≠ tx.hash

def Child (parent c : Uint256) : Prop := ∃ o : COutPoint, o.hash = parent ∧ db.isIn[o]? = some c

def Spends (parent txid : Uint256) : Prop :=
  ∃ c islock, db.Child parent c ∧ db.isI[c]? = some islock ∧ islock.txid = txid

/-- The lock `root` of `txid` and the locks chained to it. -/
def Chained (root txid c : Uint256) : Prop :=
  c = root ∨ ∃ parent, Relation.ReflTransGen db.Spends txid parent ∧ db.Child parent c

def Freed (root txid : Uint256) (o : COutPoint) : Prop :=
  ∃ c, db.Chained root txid c ∧ ∃ islock, db.isI[c]? = some islock ∧ o ∈ islock.inputs

end LockTables

section

structure Coherent (s : CInstantSendDb) : Prop where
  islock : s.islockCache.Coherent fun h => s.db.isI[h]?
  txid : s.txidCache.Coherent fun t => s.db.isTx[t]?.getD 0
  outpoint : s.outpointCache.Coherent fun o => s.db.isIn[o]?.getD 0

structure Inv (hashOf : LockHash) (s : CInstantSendDb) : Prop where
  stored : ∀ {h islock}, s.db.isI[h]? = some islock → hashOf.serializeHash islock = h
  guarded : ∀ {o : COutPoint} {h}, s.db.isIn[o]? = some h →
    ∃ islock, s.db.isI[h]? = some islock ∧ o ∈ islock.inputs
  coherent : Coherent s

variable {hashOf : LockHash} {s : CInstantSendDb} {h : Uint256}

theorem Coherent.lockByHash_fst (coh : Coherent s) (h : Uint256) :
    (s.getInstantSendLockByHash h).1 = s.db.isI[h]? := by
  have hget := LruCache.get_fst s.islockCache h
  unfold CInstantSendDb.getInstantSendLockByHash
  split
  · next ret cache heq =>
      rw [heq] at hget
      exact coh.islock h ret hget.symm
  · rfl

theorem lockByHash_db (s : CInstantSendDb) (h : Uint256) :
    (s.getInstantSendLockByHash h).2.db = s.db := by
  unfold CInstantSendDb.getInstantSendLockByHash
  split <;> rfl

theorem lockByHash_txidCache (s : CInstantSendDb) (h : Uint256) :
    (s.getInstantSendLockByHash h).2.txidCache = s.txidCache := by
  unfold CInstantSendDb.getInstantSendLockByHash
  split <;> rfl

theorem lockByHash_outpointCache (s : CInstantSendDb) (h : Uint256) :
    (s.getInstantSendLockByHash h).2.outpointCache = s.outpointCache := by
  unfold CInstantSendDb.getInstantSendLockByHash
  split <;> rfl

theorem lockByHash_absent {k : Uint256} (hk : k ≠ h) (absent : s.islockCache.find k = none) :
    (s.getInstantSendLockByHash h).2.islockCache.find k = none := by
  have hfind := LruCache.find_get s.islockCache h k
  unfold CInstantSendDb.getInstantSendLockByHash
  split
  · next ret cache heq =>
      rw [heq] at hfind
      exact hfind.trans absent
  · next cache heq =>
      rw [heq] at hfind
      rcases LruCache.find_insert_of_ne cache s.db.isI[h]? hk with hnone | hsame
      · exact hnone
      · exact hsame.trans (hfind.trans absent)

theorem Coherent.lockByHash (coh : Coherent s) (h : Uint256) :
    Coherent (s.getInstantSendLockByHash h).2 := by
  refine ⟨?_, ?_, ?_⟩
  · rw [lockByHash_db]
    have hcache := coh.islock.get h
    unfold CInstantSendDb.getInstantSendLockByHash
    split
    · next ret cache heq =>
        rw [heq] at hcache
        exact hcache
    · next cache heq =>
        rw [heq] at hcache
        exact hcache.insert rfl
  · rw [lockByHash_db, lockByHash_txidCache]
    exact coh.txid
  · rw [lockByHash_db, lockByHash_outpointCache]
    exact coh.outpoint

theorem lockByInput_db (s : CInstantSendDb) (o : COutPoint) :
    (s.getInstantSendLockByInput o).2.db = s.db := by
  unfold CInstantSendDb.getInstantSendLockByInput
  split
  · dsimp only
    split
    · rfl
    · exact lockByHash_db _ _
  · dsimp only
    split
    · rfl
    · exact lockByHash_db _ _

theorem Inv.lockByInput (inv : Inv hashOf s) (o : COutPoint) :
    (s.getInstantSendLockByInput o).1 = s.db.lockOf o ∧
      Coherent (s.getInstantSendLockByInput o).2 := by
  have hget := LruCache.get_fst s.outpointCache o
  have hcache := inv.coherent.outpoint.get o
  unfold CInstantSendDb.getInstantSendLockByInput LockTables.lockOf
  split
  · next islockHash cache heq =>
      rw [heq] at hget hcache
      have htruth : islockHash = s.db.isIn[o]?.getD 0 := inv.coherent.outpoint o islockHash hget.symm
      have coh : Coherent { s with outpointCache := cache } :=
        ⟨inv.coherent.islock, inv.coherent.txid, hcache⟩
      dsimp only
      cases hin : s.db.isIn[o]? with
      | none =>
        rw [hin] at htruth
        rw [if_pos (show islockHash = 0 from htruth)]
        exact ⟨rfl, coh⟩
      | some h =>
        rw [hin] at htruth
        obtain ⟨islock, hstored, -⟩ := inv.guarded hin
        have hne : islockHash ≠ 0 := by
          rw [htruth, Option.getD_some, ← inv.stored hstored]
          exact hashOf.ne_null islock
        rw [if_neg hne, htruth]
        exact ⟨coh.lockByHash_fst h, coh.lockByHash h⟩
  · next cache heq =>
      rw [heq] at hcache
      have coh : Coherent { s with
          outpointCache := cache.insert CInstantSendDb.cacheSize o (s.db.isIn[o]?.getD 0) } :=
        ⟨inv.coherent.islock, inv.coherent.txid, hcache.insert rfl⟩
      dsimp only
      cases hin : s.db.isIn[o]? with
      | none =>
        rw [hin] at coh
        exact ⟨rfl, coh⟩
      | some h =>
        rw [hin] at coh
        exact ⟨coh.lockByHash_fst h, coh.lockByHash h⟩

theorem Inv.of_db {s' : CInstantSendDb} (inv : Inv hashOf s) (hdb : s'.db = s.db)
    (coh : Coherent s') : Inv hashOf s' where
  stored := by
    rw [hdb]
    exact inv.stored
  guarded := by
    rw [hdb]
    exact inv.guarded
  coherent := coh

theorem Inv.findConflictingLock (inv : Inv hashOf s) (txid : Uint256) (vin : List CTxIn) :
    (findConflictingLock txid s vin).1 =
        vin.findSome? (fun txin => (s.db.lockOf txin.prevout).filter fun l => l.txid ≠ txid) ∧
      (findConflictingLock txid s vin).2.db = s.db ∧
      Inv hashOf (findConflictingLock txid s vin).2 := by
  induction vin generalizing s with
  | nil => exact ⟨rfl, rfl, inv⟩
  | cons txin rest ih =>
    obtain ⟨hfst, coh⟩ := inv.lockByInput txin.prevout
    have hdb := lockByInput_db s txin.prevout
    have inv' := inv.of_db hdb coh
    rw [List.findSome?_cons, ← hfst, InstantSendDb.findConflictingLock]
    cases hlookup : s.getInstantSendLockByInput txin.prevout with
    | mk found s' =>
      rw [hlookup] at inv' hdb
      have hrest := ih inv'
      rw [hdb] at hrest
      cases found with
      | none => exact hrest
      | some otherIsLock =>
        dsimp only
        by_cases hother : otherIsLock.txid ≠ txid
        · rw [if_pos hother, Option.filter_some, if_pos (decide_eq_true hother)]
          exact ⟨rfl, hdb, inv'⟩
        · rw [if_neg hother, Option.filter_some, if_neg (by simpa using hother)]
          exact hrest

end

section

variable {D : LockTables} {visited : List Uint256} {r : Removal}

/-- A removal over the tables `D` that has dealt with the hashes `visited`. The caches hold nothing
of what the batch erases. -/
structure Removing (D : LockTables) (visited : List Uint256) (r : Removal) : Prop where
  db : r.s.db = D
  coherent : Coherent r.s
  eraseI : ∀ h, h ∈ r.batch.eraseI ↔ h ∈ visited ∧ D.isI[h]? ≠ none
  eraseTx : ∀ t, t ∈ r.batch.eraseTx ↔
    ∃ h ∈ visited, ∃ islock, D.isI[h]? = some islock ∧ islock.txid = t
  eraseIn : ∀ o, o ∈ r.batch.eraseIn ↔
    ∃ h ∈ visited, ∃ islock, D.isI[h]? = some islock ∧ o ∈ islock.inputs
  absentI : ∀ h ∈ r.batch.eraseI, r.s.islockCache.find h = none
  absentTx : ∀ t ∈ r.batch.eraseTx, r.s.txidCache.find t = none
  absentIn : ∀ o ∈ r.batch.eraseIn, r.s.outpointCache.find o = none

theorem removing_start {s : CInstantSendDb} (coh : Coherent s) :
    Removing s.db [] ⟨s, .empty, []⟩ := by
  constructor <;> simp [CDBBatch.empty, coh]

theorem Coherent.eraseCached {s : CInstantSendDb} (coh : Coherent s) (h : Uint256) (islock : Lock) :
    Coherent (s.eraseCached h islock) where
  islock := coh.islock.erase h
  txid := coh.txid.erase islock.txid
  outpoint := coh.outpoint.foldl_erase islock.inputs

theorem Removing.step (rem : Removing D visited r) (h : Uint256) :
    (removeInstantSendLock r h).1 = D.isI[h]? ∧
      Removing D (h :: visited) (removeInstantSendLock r h).2 := by
  have hfst := rem.coherent.lockByHash_fst h
  have hdb := (lockByHash_db r.s h).trans rem.db
  have coh := rem.coherent.lockByHash h
  have htxid := lockByHash_txidCache r.s h
  have houtpoint := lockByHash_outpointCache r.s h
  have habsent : ∀ k ≠ h, r.s.islockCache.find k = none →
      (r.s.getInstantSendLockByHash h).2.islockCache.find k = none :=
    fun k hk => lockByHash_absent hk
  rw [rem.db] at hfst
  unfold removeInstantSendLock
  cases hlookup : r.s.getInstantSendLockByHash h with
  | mk found s =>
    rw [hlookup] at hfst hdb coh htxid houtpoint habsent
    dsimp only at hfst hdb coh htxid houtpoint habsent
    subst hfst
    cases hfound : D.isI[h]? with
    | none =>
      -- a hash without a lock adds nothing to the batch
      have hne : ∀ k ∈ r.batch.eraseI, k ≠ h := by
        rintro k hk rfl
        exact ((rem.eraseI k).mp hk).2 hfound
      refine ⟨rfl, hdb, coh, ?_, ?_, ?_, ?_, ?_, ?_⟩
      · intro k
        rw [rem.eraseI, List.mem_cons]
        constructor
        · exact fun hk => ⟨Or.inr hk.1, hk.2⟩
        · rintro ⟨rfl | hk, hstored⟩
          · exact absurd hfound hstored
          · exact ⟨hk, hstored⟩
      · intro t
        rw [rem.eraseTx]
        simp [hfound]
      · intro o
        rw [rem.eraseIn]
        simp [hfound]
      · exact fun k hk => habsent k (hne k hk) (rem.absentI k hk)
      · rw [htxid]
        exact rem.absentTx
      · rw [houtpoint]
        exact rem.absentIn
    | some islock =>
      refine ⟨rfl, hdb, coh.eraseCached h islock, ?_, ?_, ?_, ?_, ?_, ?_⟩
      · intro k
        simp only [CDBBatch.eraseLock, List.mem_append, rem.eraseI, List.mem_singleton]
        rw [List.mem_cons]
        constructor
        · rintro (hk | rfl)
          · exact ⟨Or.inr hk.1, hk.2⟩
          · exact ⟨Or.inl rfl, by simp [hfound]⟩
        · rintro ⟨rfl | hk, hstored⟩
          · exact Or.inr rfl
          · exact Or.inl ⟨hk, hstored⟩
      · intro t
        simp only [CDBBatch.eraseLock, List.mem_append, rem.eraseTx, List.mem_singleton,
          List.exists_mem_cons_iff, hfound, Option.some.injEq, exists_eq_left']
        rw [or_comm, eq_comm]
      · intro o
        simp only [CDBBatch.eraseLock, List.mem_append, rem.eraseIn,
          List.exists_mem_cons_iff, hfound, Option.some.injEq, exists_eq_left']
        rw [or_comm]
      · intro k hk
        change (s.islockCache.erase h).find k = none
        rw [LruCache.find_erase]
        split
        · rfl
        · next hne =>
            rcases List.mem_append.mp hk with hk | hk
            · exact habsent k hne (rem.absentI k hk)
            · exact absurd (List.mem_singleton.mp hk) hne
      · intro t ht
        change (s.txidCache.erase islock.txid).find t = none
        rw [LruCache.find_erase, htxid]
        split
        · rfl
        · next hne =>
            rcases List.mem_append.mp ht with ht | ht
            · exact rem.absentTx t ht
            · exact absurd (List.mem_singleton.mp ht) hne
      · intro o ho
        change (islock.inputs.foldl LruCache.erase s.outpointCache).find o = none
        rw [LruCache.find_foldl_erase, houtpoint]
        split
        · rfl
        · next hne =>
            rcases List.mem_append.mp ho with ho | ho
            · exact rem.absentIn o ho
            · exact absurd ho hne

theorem writeBatch_isI (D : LockTables) (batch : CDBBatch) (h : Uint256) :
    (D.writeBatch batch).isI[h]? = if h ∈ batch.eraseI then none else D.isI[h]? :=
  Keyed.getElem?_foldl_erase _ _ _

theorem writeBatch_isTx (D : LockTables) (batch : CDBBatch) (t : Uint256) :
    (D.writeBatch batch).isTx[t]? = if t ∈ batch.eraseTx then none else D.isTx[t]? :=
  Keyed.getElem?_foldl_erase _ _ _

theorem writeBatch_isIn (D : LockTables) (batch : CDBBatch) (o : COutPoint) :
    (D.writeBatch batch).isIn[o]? = if o ∈ batch.eraseIn then none else D.isIn[o]? :=
  Keyed.getElem?_foldl_erase _ _ _

theorem Removing.coherent_writeBatch (rem : Removing D visited r) :
    Coherent { r.s with db := r.s.db.writeBatch r.batch } := by
  obtain ⟨hislock, htxid, houtpoint⟩ := rem.coherent
  refine ⟨?_, ?_, ?_⟩
  · refine hislock.change fun h hfind => ?_
    rw [writeBatch_isI, if_neg fun herased => hfind (rem.absentI h herased)]
  · refine htxid.change fun t hfind => ?_
    rw [writeBatch_isTx, if_neg fun herased => hfind (rem.absentTx t herased)]
  · refine houtpoint.change fun o hfind => ?_
    rw [writeBatch_isIn, if_neg fun herased => hfind (rem.absentIn o herased)]

section

variable {hashOf : LockHash} {s : CInstantSendDb}

theorem Removing.kept (rem : Removing s.db visited r) (inv : Inv hashOf s) {o : COutPoint}
    {h : Uint256} (hin : s.db.isIn[o]? = some h) (ho : o ∉ r.batch.eraseIn) :
    h ∉ r.batch.eraseI := by
  intro herased
  obtain ⟨islock, hstored, hmem⟩ := inv.guarded hin
  exact ho ((rem.eraseIn o).mpr ⟨h, ((rem.eraseI h).mp herased).1, islock, hstored, hmem⟩)

theorem Removing.lockOf (rem : Removing s.db visited r) (inv : Inv hashOf s) (o : COutPoint) :
    (r.s.db.writeBatch r.batch).lockOf o =
      if o ∈ r.batch.eraseIn then none else s.db.lockOf o := by
  rw [rem.db, LockTables.lockOf, writeBatch_isIn]
  by_cases ho : o ∈ r.batch.eraseIn
  · rw [if_pos ho, if_pos ho]
    rfl
  · rw [if_neg ho, if_neg ho, LockTables.lockOf]
    cases hin : s.db.isIn[o]? with
    | none => rfl
    | some h =>
      rw [Option.bind_some, Option.bind_some, writeBatch_isI, if_neg (rem.kept inv hin ho)]

theorem Removing.writeBatch (rem : Removing s.db visited r) (inv : Inv hashOf s) :
    Inv hashOf { r.s with db := r.s.db.writeBatch r.batch } := by
  refine ⟨?_, ?_, rem.coherent_writeBatch⟩
  · intro h islock hstored
    rw [rem.db, writeBatch_isI] at hstored
    split at hstored
    · cases hstored
    · exact inv.stored hstored
  · intro o h hin
    rw [rem.db, writeBatch_isIn] at hin
    split at hin
    · cases hin
    · next ho =>
        obtain ⟨islock, hstored, hmem⟩ := inv.guarded hin
        refine ⟨islock, ?_, hmem⟩
        rw [rem.db, writeBatch_isI, if_neg (rem.kept inv hin ho), hstored]

end

def childTxids (D : LockTables) (hashes : List Uint256) : List Uint256 :=
  hashes.filterMap fun c => D.isI[c]?.map CInstantSendLock.txid

theorem Removing.foldl_removeChild (rem : Removing D visited r) (hashes : List Uint256)
    (w : Worklist Uint256) :
    Removing D (hashes.reverse ++ visited) (hashes.foldl removeChild (r, w)).1 ∧
      (hashes.foldl removeChild (r, w)).2 = (childTxids D hashes).foldl Worklist.push w := by
  induction hashes generalizing visited r w with
  | nil => exact ⟨rem, rfl⟩
  | cons c hashes ih =>
    obtain ⟨hfst, hstep⟩ := rem.step c
    have hchild : removeChild (r, w) c =
        ((removeInstantSendLock r c).2, (childTxids D [c]).foldl Worklist.push w) := by
      unfold removeChild
      cases hremove : removeInstantSendLock r c with
      | mk found r' =>
        rw [hremove] at hfst
        dsimp only at hfst
        subst hfst
        cases hfound : D.isI[c]? <;> simp [childTxids, hfound]
    have hsplit : childTxids D (c :: hashes) = childTxids D [c] ++ childTxids D hashes :=
      List.filterMap_append (l := [c])
    rw [List.foldl_cons, hchild, List.reverse_cons, List.append_assoc, hsplit, List.foldl_append]
    exact ih hstep _

theorem mem_getInstantSendLocksByParent {parent c : Uint256} :
    c ∈ D.getInstantSendLocksByParent parent ↔ D.Child parent c := by
  simp [LockTables.getInstantSendLocksByParent, LockTables.Child,
    ExtTreeMap.mem_toList_iff_getElem?_eq_some, and_comm]

theorem mem_childTxids {parent txid : Uint256} :
    txid ∈ childTxids D (D.getInstantSendLocksByParent parent) ↔ D.Spends parent txid := by
  simp only [childTxids, List.mem_filterMap, mem_getInstantSendLocksByParent, Option.map_eq_some_iff,
    LockTables.Spends]
  constructor
  · rintro ⟨c, hchild, islock, hstored, htxid⟩
    exact ⟨c, islock, hchild, hstored, htxid⟩
  · rintro ⟨c, islock, hchild, hstored, htxid⟩
    exact ⟨c, hchild, islock, hstored, htxid⟩

def lockedTxids (D : LockTables) : List Uint256 := (D.isI.toList.map fun p => p.2.txid).dedup

theorem nodup_lockedTxids (D : LockTables) : (lockedTxids D).Nodup := List.nodup_dedup _

theorem mem_lockedTxids {parent txid : Uint256} (h : D.Spends parent txid) :
    txid ∈ lockedTxids D := by
  obtain ⟨c, islock, -, hstored, rfl⟩ := h
  rw [lockedTxids, List.mem_dedup, List.mem_map]
  exact ⟨(c, islock), ExtTreeMap.mem_toList_iff_getElem?_eq_some.mpr hstored, rfl⟩

/-- The loop of `RemoveChainedInstantSendLocks` after it has popped the transactions `popped`. -/
structure Searching (D : LockTables) (root : Uint256) (popped visited : List Uint256)
    (st : Removal × Worklist Uint256) : Prop where
  removing : Removing D visited st.1
  exploring : Worklist.Exploring D.Spends root popped st.2
  children : ∀ c, c ∈ visited ↔ ∃ parent ∈ popped, D.Child parent c

variable {root top : Uint256} {rest popped : List Uint256} {st : Removal × Worklist Uint256}

theorem Searching.round (search : Searching D root popped visited st)
    (hstack : st.2.stack = top :: rest) :
    Searching D root (top :: popped) ((D.getInstantSendLocksByParent top).reverse ++ visited)
        ((st.1.s.db.getInstantSendLocksByParent top).foldl removeChild (st.1, ⟨rest, st.2.added⟩)) ∧
      Worklist.roundsLeft (lockedTxids D) st.2 =
        Worklist.roundsLeft (lockedTxids D) ((st.1.s.db.getInstantSendLocksByParent top).foldl
          removeChild (st.1, ⟨rest, st.2.added⟩)).2 + 1 := by
  rw [search.removing.db]
  obtain ⟨hrem, hwork⟩ := search.removing.foldl_removeChild
    (D.getInstantSendLocksByParent top) ⟨rest, st.2.added⟩
  have hw : st.2 = ⟨top :: rest, st.2.added⟩ := by rw [← hstack]
  refine ⟨⟨hrem, ?_, ?_⟩, ?_⟩
  · rw [hwork]
    have hexplore := search.exploring
    rw [hw] at hexplore
    exact hexplore.round fun m => mem_childTxids.symm
  · intro c
    rw [List.mem_append, List.mem_reverse, mem_getInstantSendLocksByParent, search.children,
      List.exists_mem_cons_iff]
  · have hpushed : ∀ m ∈ childTxids D (D.getInstantSendLocksByParent top), m ∈ lockedTxids D :=
      fun m hm => mem_lockedTxids (mem_childTxids.mp hm)
    rw [hwork, Worklist.roundsLeft_foldl_push (nodup_lockedTxids D) hpushed, Worklist.roundsLeft,
      Worklist.roundsLeft, hstack, List.length_cons]
    rfl

theorem Searching.finished (search : Searching D root popped visited st)
    (hempty : st.2.stack = []) : ∃ visited', Removing D visited' st.1 ∧
      ∀ c, c ∈ visited' ↔
        ∃ parent, Relation.ReflTransGen D.Spends root parent ∧ D.Child parent c := by
  refine ⟨visited, search.removing, fun c => ?_⟩
  rw [search.children]
  simp only [search.exploring.popped_iff hempty]

theorem Searching.removeLoop_ends (fuel : ℕ) (search : Searching D root popped visited st)
    (hfuel : Worklist.roundsLeft (lockedTxids D) st.2 ≤ fuel) :
    (∃ popped' visited', Searching D root popped' visited' (removeLoop fuel st)) ∧
      (removeLoop fuel st).2.stack = [] := by
  induction fuel generalizing st visited popped with
  | zero =>
    rw [Worklist.roundsLeft] at hfuel
    have hempty : st.2.stack = [] := List.length_eq_zero_iff.mp (by omega)
    exact ⟨⟨popped, visited, search⟩, hempty⟩
  | succ fuel ih =>
    rw [InstantSendDb.removeLoop]
    cases hstack : st.2.stack with
    | nil => exact ⟨⟨popped, visited, search⟩, hstack⟩
    | cons top rest =>
      obtain ⟨hnext, hrounds⟩ := search.round hstack
      exact ih hnext (by omega)

theorem Searching.removeLoop (fuel : ℕ) (search : Searching D root popped visited st)
    (hfuel : Worklist.roundsLeft (lockedTxids D) st.2 ≤ fuel) :
    ∃ visited', Removing D visited' (removeLoop fuel st).1 ∧
      ∀ c, c ∈ visited' ↔
        ∃ parent, Relation.ReflTransGen D.Spends root parent ∧ D.Child parent c := by
  obtain ⟨⟨popped', visited', hlast⟩, hempty⟩ := search.removeLoop_ends fuel hfuel
  exact hlast.finished hempty

theorem roundsLeft_start (D : LockTables) (txid : Uint256) :
    Worklist.roundsLeft (lockedTxids D) (.start txid) ≤ D.isI.size + 1 := by
  apply Nat.add_le_add_right
  calc _ ≤ (lockedTxids D).length := List.length_filter_le _ _
    _ ≤ (D.isI.toList.map fun p => p.2.txid).length := (List.dedup_sublist _).length_le
    _ = D.isI.size := by rw [List.length_map, ExtTreeMap.length_toList]

theorem searching_start {s : CInstantSendDb} (coh : Coherent s) (txid : Uint256) :
    Searching s.db txid [] [] (⟨s, .empty, []⟩, .start txid) :=
  ⟨removing_start coh, Worklist.exploring_start _ _, by simp⟩

theorem removeChained_removing {s : CInstantSendDb} (coh : Coherent s) (root txid : Uint256) :
    ∃ visited, Removing s.db visited (removeInstantSendLock (InstantSendDb.removeLoop
        (s.db.isI.size + 1) (⟨s, .empty, []⟩, .start txid)).1 root).2 ∧
      ∀ c, c ∈ visited ↔ s.db.Chained root txid c := by
  obtain ⟨visited, hrem, hvisited⟩ := (searching_start coh txid).removeLoop (s.db.isI.size + 1)
    (roundsLeft_start s.db txid)
  refine ⟨root :: visited, (hrem.step root).2, fun c => ?_⟩
  rw [List.mem_cons, hvisited]
  rfl

theorem removeChainedInstantSendLocks_spec {hashOf : LockHash} {s : CInstantSendDb}
    (inv : Inv hashOf s) (root txid : Uint256) :
    Inv hashOf (removeChainedInstantSendLocks s root txid).1 ∧
      (∀ o, s.db.Freed root txid o →
        (removeChainedInstantSendLocks s root txid).1.db.lockOf o = none) ∧
      ∀ o, ¬ s.db.Freed root txid o →
        (removeChainedInstantSendLocks s root txid).1.db.lockOf o = s.db.lockOf o := by
  obtain ⟨visited, hlast, hvisited⟩ := removeChained_removing inv.coherent root txid
  have hfreed : ∀ o, o ∈ (removeInstantSendLock (removeLoop (s.db.isI.size + 1)
      (⟨s, .empty, []⟩, .start txid)).1 root).2.batch.eraseIn ↔ s.db.Freed root txid o := by
    intro o
    rw [hlast.eraseIn]
    simp only [hvisited]
    rfl
  refine ⟨hlast.writeBatch inv, ?_, ?_⟩
  · intro o ho
    exact (hlast.lockOf inv o).trans (if_pos ((hfreed o).mpr ho))
  · intro o ho
    exact (hlast.lockOf inv o).trans (if_neg fun h => ho ((hfreed o).mp h))

end

section

variable {hashOf : LockHash} {s : CInstantSendDb}

section

variable (s) (h : Uint256) (islock : Lock)

theorem writeNew_isI (k : Uint256) : (s.writeNewInstantSendLock h islock).db.isI[k]? =
    if k = h then some islock else s.db.isI[k]? := Keyed.getElem?_insert_eq _ _ k _

theorem writeNew_isTx (t : Uint256) : (s.writeNewInstantSendLock h islock).db.isTx[t]? =
    if t = islock.txid then some h else s.db.isTx[t]? := Keyed.getElem?_insert_eq _ _ t _

theorem writeNew_isIn (o : COutPoint) : (s.writeNewInstantSendLock h islock).db.isIn[o]? =
    if o ∈ islock.inputs then some h else s.db.isIn[o]? := Keyed.getElem?_foldl_insert _ _ _ _

variable {s}

theorem Coherent.writeNewInstantSendLock (coh : Coherent s) :
    Coherent (s.writeNewInstantSendLock h islock) := by
  refine ⟨?_, ?_, ?_⟩
  · refine coh.islock.insert_change ?_ ?_
    · exact fun k hk => by rw [writeNew_isI, if_neg hk]
    · rw [writeNew_isI, if_pos rfl]
  · refine coh.txid.insert_change ?_ ?_
    · exact fun t ht => by rw [writeNew_isTx, if_neg ht]
    · rw [writeNew_isTx, if_pos rfl, Option.getD_some]
  · refine coh.outpoint.foldl_insert ?_ ?_
    · exact fun o ho => by rw [writeNew_isIn, if_neg ho]
    · exact fun o ho => by rw [writeNew_isIn, if_pos ho, Option.getD_some]

end

theorem Inv.writeNewInstantSendLock (inv : Inv hashOf s) (islock : Lock)
    (new : s.db.isI[hashOf.serializeHash islock]? = none) :
    Inv hashOf (s.writeNewInstantSendLock (hashOf.serializeHash islock) islock) := by
  refine ⟨?_, ?_, inv.coherent.writeNewInstantSendLock _ islock⟩
  · intro k other hstored
    rw [writeNew_isI] at hstored
    split at hstored
    · next hk =>
        cases hstored
        rw [hk]
    · exact inv.stored hstored
  · intro o k hin
    rw [writeNew_isIn] at hin
    split at hin
    · next ho =>
        cases hin
        exact ⟨islock, by rw [writeNew_isI, if_pos rfl], ho⟩
    · obtain ⟨other, hstored, hmem⟩ := inv.guarded hin
      have hne : k ≠ hashOf.serializeHash islock := by
        rintro rfl
        rw [new] at hstored
        cases hstored
      exact ⟨other, by rw [writeNew_isI, if_neg hne, hstored], hmem⟩

theorem Removing.foldl_remove {D : LockTables} {visited : List Uint256} {r : Removal}
    (rem : Removing D visited r) (hashes : List Uint256) :
    Removing D (hashes.reverse ++ visited)
      (hashes.foldl (fun r hash => (removeInstantSendLock r hash).2) r) := by
  induction hashes generalizing visited r with
  | nil => exact rem
  | cons c hashes ih =>
    rw [List.reverse_cons, List.append_assoc]
    exact ih (rem.step c).2

theorem Inv.removeConfirmedInstantSendLocks (inv : Inv hashOf s) (mined : List Uint256) :
    Inv hashOf (removeConfirmedInstantSendLocks s mined) :=
  ((removing_start inv.coherent).foldl_remove mined).writeBatch inv

theorem inv_empty (hashOf : LockHash) : Inv hashOf CInstantSendDb.empty where
  stored := by simp [CInstantSendDb.empty]
  guarded := by simp [CInstantSendDb.empty]
  coherent := ⟨LruCache.coherent_empty, LruCache.coherent_empty, LruCache.coherent_empty⟩

/-- The databases that the node can come to: locks are written and removed, looked up through the
caches, and a restart empties these. -/
inductive Reachable (hashOf : LockHash) : CInstantSendDb → Prop
  | empty : Reachable hashOf .empty
  | write {s : CInstantSendDb} (islock : Lock) (new : s.db.isI[hashOf.serializeHash islock]? = none) :
      Reachable hashOf s →
      Reachable hashOf (s.writeNewInstantSendLock (hashOf.serializeHash islock) islock)
  | lookupHash {s : CInstantSendDb} (h : Uint256) : Reachable hashOf s → Reachable hashOf (s.getInstantSendLockByHash h).2
  | lookupInput {s : CInstantSendDb} (o : COutPoint) :
      Reachable hashOf s → Reachable hashOf (s.getInstantSendLockByInput o).2
  | removeConfirmed {s : CInstantSendDb} (mined : List Uint256) :
      Reachable hashOf s → Reachable hashOf (removeConfirmedInstantSendLocks s mined)
  | removeChained {s : CInstantSendDb} (root txid : Uint256) :
      Reachable hashOf s → Reachable hashOf (removeChainedInstantSendLocks s root txid).1
  | restart {s : CInstantSendDb} : Reachable hashOf s → Reachable hashOf { CInstantSendDb.empty with db := s.db }

theorem Reachable.inv (reach : Reachable hashOf s) : Inv hashOf s := by
  induction reach with
  | empty => exact inv_empty hashOf
  | write islock new _ ih => exact ih.writeNewInstantSendLock islock new
  | lookupHash h _ ih => exact ih.of_db (lockByHash_db _ h) (ih.coherent.lockByHash h)
  | lookupInput o _ ih => exact ih.of_db (lockByInput_db _ o) (ih.lockByInput o).2
  | removeConfirmed mined _ ih => exact ih.removeConfirmedInstantSendLocks mined
  | removeChained root txid _ ih => exact (removeChainedInstantSendLocks_spec ih root txid).1
  | restart _ ih =>
    exact ih.of_db rfl
      ⟨LruCache.coherent_empty, LruCache.coherent_empty, LruCache.coherent_empty⟩

end

section

variable {hashOf : LockHash} {s : CInstantSendDb}

theorem conflicting_eq_none {db : LockTables} {tx : CTransaction} :
    db.conflicting tx = none ↔
      ∀ txin ∈ tx.vin, ∀ islock, db.lockOf txin.prevout = some islock → islock.txid = tx.hash := by
  simp [LockTables.conflicting, Option.filter_eq_none_iff]

theorem Inv.getConflictingLock (inv : Inv hashOf s) (enabled : Bool) (tx : CTransaction) :
    (getConflictingLock enabled s tx).1 = (if enabled then s.db.conflicting tx else none) ∧
      (getConflictingLock enabled s tx).2.db = s.db ∧
      Inv hashOf (getConflictingLock enabled s tx).2 := by
  unfold InstantSendDb.getConflictingLock
  split
  · exact inv.findConflictingLock tx.hash tx.vin
  · exact ⟨rfl, rfl, inv⟩

end

/-- The assertion holds iff the inputs of the transaction that a lock of another one guards are all
inputs of locks chained to the first of these. -/
theorem checkConflict_safe_iff (hashOf : LockHash) (isInstantSendEnabled : Bool) (s : CInstantSendDb)
    (tx : CTransaction) (inv : Inv hashOf s) :
    checkConflict hashOf isInstantSendEnabled true s tx ≠ .error .assertion ↔
      ∀ conflictLock, isInstantSendEnabled = true → s.db.conflicting tx = some conflictLock →
        ∀ txin ∈ tx.vin, ∀ islock, s.db.lockOf txin.prevout = some islock → islock.txid ≠ tx.hash →
          s.db.Freed (hashOf.serializeHash conflictLock) conflictLock.txid txin.prevout := by
  obtain ⟨hfound, hdb, inv'⟩ := inv.getConflictingLock isInstantSendEnabled tx
  unfold checkConflict
  by_cases hvin : tx.vin.isEmpty
  · rw [if_pos hvin]
    rw [List.isEmpty_iff] at hvin
    simp [hvin]
  · rw [if_neg hvin]
    cases hfirst : getConflictingLock isInstantSendEnabled s tx with
    | mk found s₁ =>
      rw [hfirst] at hfound hdb inv'
      dsimp only at hfound hdb inv'
      cases found with
      | none =>
        simp only [ne_eq, reduceCtorEq, not_false_eq_true, true_iff]
        intro conflictLock henabled hconflict
        rw [if_pos henabled, hconflict] at hfound
        cases hfound
      | some conflictLock =>
        cases henabled : isInstantSendEnabled with
        | false =>
          rw [henabled] at hfound
          cases hfound
        | true =>
          rw [henabled, if_pos rfl] at hfound
          obtain ⟨inv₂, hfreed, hkept⟩ := removeChainedInstantSendLocks_spec inv'
            (hashOf.serializeHash conflictLock) conflictLock.txid
          obtain ⟨hleft, -, -⟩ := inv₂.getConflictingLock true tx
          rw [if_pos rfl] at hleft
          rw [hdb] at hfreed hkept
          have hassert : ∀ r : Option Lock × CInstantSendDb,
              (match r with
                | (none, s) => Except.ok s
                | (some _, _) => Except.error FilterFault.assertion) ≠
                  Except.error FilterFault.assertion ↔ r.1 = none := by
            rintro ⟨found, s⟩
            cases found <;> simp
          rw [← hfound]
          simp only [if_true, forall_const, Option.some.injEq, forall_eq']
          rw [hassert, hleft, conflicting_eq_none]
          constructor
          · intro hnone txin htxin islock hlock hother
            by_contra hnot
            exact hother (hnone txin htxin islock ((hkept _ hnot).trans hlock))
          · intro hall txin htxin islock hlock
            by_contra hother
            by_cases hcovered : s.db.Freed (hashOf.serializeHash conflictLock)
                conflictLock.txid txin.prevout
            · rw [hfreed _ hcovered] at hlock
              cases hlock
            · exact hcovered (hall txin htxin islock ((hkept _ hcovered).symm.trans hlock) hother)

def toyHash : LockHash where
  serializeHash islock := if islock.txid = 0 then 1 else islock.txid
  ne_null islock := by
    split
    · decide
    · assumption

def toyLock (txid : Uint256) (n : BitVec 32) : Lock := ⟨[⟨100, n⟩], txid, none⟩

def toyDb : CInstantSendDb :=
  (CInstantSendDb.empty.writeNewInstantSendLock 201 (toyLock 201 0)).writeNewInstantSendLock 202
    (toyLock 202 1)

theorem toyDb_reachable : Reachable toyHash toyDb := by
  have first : Reachable toyHash (CInstantSendDb.empty.writeNewInstantSendLock 201 (toyLock 201 0)) :=
    Reachable.empty.write (toyLock 201 0) (by simp [CInstantSendDb.empty])
  refine first.write (toyLock 202 1) ?_
  exact Keyed.getElem?_insert_eq _ _ _ _

def toySpend (inputs : List (BitVec 32)) : CTransaction :=
  ⟨300, 1, .normal, inputs.map fun n => ⟨⟨100, n⟩, [], 0⟩, [], 0, .undecodable, 0⟩

theorem toyDb_first : toyDb.db.isI[(201 : Uint256)]? = some (toyLock 201 0) := by
  refine (Keyed.getElem?_insert_eq _ 202 201 _).trans ((if_neg (by decide)).trans ?_)
  exact (Keyed.getElem?_insert_eq _ 201 201 _).trans (if_pos rfl)

theorem checkConflict_safe_oneInput :
    checkConflict toyHash true true toyDb (toySpend [0]) ≠ .error .assertion := by
  refine (checkConflict_safe_iff toyHash true toyDb (toySpend [0]) toyDb_reachable.inv).mpr ?_
  have hin : toyDb.db.isIn[(⟨100, 0⟩ : COutPoint)]? = some 201 := by decide +kernel
  have hlock : toyDb.db.lockOf ⟨100, 0⟩ = some (toyLock 201 0) := by
    rw [LockTables.lockOf, hin, Option.bind_some, toyDb_first]
  have hconflict : toyDb.db.conflicting (toySpend [0]) = some (toyLock 201 0) := by
    refine List.findSome?_cons.trans ?_
    rw [show toyDb.db.lockOf _ = _ from hlock]
    rfl
  intro conflictLock _ hfirst txin htxin _ _ _
  rw [hconflict] at hfirst
  cases hfirst
  rw [List.mem_singleton.mp htxin]
  exact ⟨201, Or.inl (by decide), toyLock 201 0, toyDb_first, List.mem_singleton.mpr rfl⟩

def failsAssertion (x : Except FilterFault CInstantSendDb) : Bool :=
  match x with
  | .error .assertion => true
  | _ => false

theorem failsAssertion_iff {x : Except FilterFault CInstantSendDb} :
    failsAssertion x = true ↔ x = .error .assertion := by
  unfold failsAssertion
  split <;> simp_all

/-- A transaction of a ChainLocked block spends the inputs of both locks. -/
theorem checkConflict_asserts_twoLocks :
    Reachable toyHash toyDb ∧
      checkConflict toyHash true true toyDb (toySpend [0, 1]) = .error .assertion :=
  ⟨toyDb_reachable, failsAssertion_iff.mp (by decide +kernel)⟩

end ButCore.Llmq.InstantSendDb
