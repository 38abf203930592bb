import ButCore.Lib.Ranking
import ButCore.Llmq.MinedCommitments

/-!
# The merkle root of the active quorums

`CalcCbTxMerkleRootQuorums` with the two static maps it keeps between calls, and the root without
them: that of the hashes of the active commitments.
-/
namespace ButCore.Llmq.CbTxQuorums

open ActiveChain BlockProcessor Checked ButCore.Evo Overlay

/-- What ends the process: a failed assertion, or `at` without an entry. -/
inductive Abort where
  | assertion
  | outOfRange
  deriving DecidableEq

/-- `computeMerkleRoot` also tells whether the list was mutated. -/
structure RootEnv extends ProcessorEnv where
  serializeHash : CFinalCommitment → Uint256
  computeMerkleRoot : List Uint256 → Uint256 × Bool

/-- `std::map<LLMQType, std::vector<...>>`, in the order of its keys; a quorum is known by the hash
of its first block. -/
abbrev HashesByType := List (LLMQType × List Uint256)

def HashesByType.updateAt (type : LLMQType) (f : List Uint256 → List Uint256) :
    HashesByType → HashesByType
  | [] => [(type, f [])]
  | entry :: rest =>
    if type = entry.1 then (type, f entry.2) :: rest
    else if type < entry.1 then (type, f []) :: entry :: rest
    else entry :: updateAt type f rest

structure Statics where
  quorumsCached : HashesByType
  qcHashesCached : HashesByType

section

variable (env : RootEnv) (db : CommitmentDb) (chain : ActiveChain)

def quorumHeightsUntil (type : LLMQType) (maxCount : ℕ) : List ℤ :=
  ((List.range (chain.length - 1)).reverse.filterMap
    fun (h : ℕ) => db.quorumHeight (type, h + 1)).take maxCount

def quorumHashAt (quorumHeight : ℤ) : Option Uint256 :=
  (chain.at? quorumHeight).map ConnectedBlock.hash

def getMinedCommitmentsUntilBlock (type : LLMQType) (maxCount : ℕ) : Except Abort (List Uint256) :=
  (quorumHeightsUntil db chain type maxCount).mapM fun quorumHeight =>
    expect (quorumHashAt chain quorumHeight) .assertion

def addMinedAndActive (ret : HashesByType) (entry : LLMQType × Consensus.LLMQParams) :
    Except Abort HashesByType := do
  let commitments ← getMinedCommitmentsUntilBlock db chain entry.2.type
    entry.2.signingActiveQuorumCount
  pure (ret.updateAt entry.2.type (· ++ commitments))

def getMinedAndActiveCommitmentsUntilBlock : Except Abort HashesByType :=
  env.llmqs.foldlM (addMinedAndActive db chain) []

def storedHash (type : LLMQType) (quorumHash : Uint256) : Option Uint256 :=
  (db.minedCommitment (type, quorumHash)).map fun entry => env.serializeHash entry.1

def readHashes (quorums : HashesByType) : Except Abort HashesByType :=
  quorums.mapM fun entry => do
    let hashes ← entry.2.mapM fun quorumHash => expect (storedHash env db entry.1 quorumHash) .assertion
    pure (entry.1, hashes)

def pushActive (count : ℕ) (qcHash : Uint256) (v : List Uint256) : List Uint256 :=
  (if v.length = count then v.dropLast else v) ++ [qcHash]

def addCommitment (qcHashes : HashesByType) (tx : CTransaction) : Except Abort HashesByType :=
  if tx.nVersion = 3 ∧ tx.nType = .quorumCommitment then do
    let qc ← expect (tx.finalCommitmentPayload.map CFinalCommitmentTxPayload.commitment) .assertion
    if isNullCommitment qc then pure qcHashes
    else do
      let params ← expect (env.llmqs.lookup qc.llmqType) .outOfRange
      let push := pushActive params.signingActiveQuorumCount (env.serializeHash qc)
      require ((push ((qcHashes.lookup params.type).getD [])).length ≤
        params.signingActiveQuorumCount) .assertion
      pure (qcHashes.updateAt params.type push)
  else pure qcHashes

def sortHashes (hashes : List Uint256) : List Uint256 :=
  hashes.insertionSort fun a b => a.toNat ≤ b.toNat

def rootOf (hashes : List Uint256) : Uint256 × Bool :=
  ((env.computeMerkleRoot (sortHashes hashes)).1, !(env.computeMerkleRoot (sortHashes hashes)).2)

/-- The hashes of the mined commitments, from the static maps if the quorums are the same. -/
def minedHashes (st : Statics) : Except Abort (HashesByType × Statics) := do
  let quorums ← getMinedAndActiveCommitmentsUntilBlock env db chain
  if quorums = st.quorumsCached then pure (st.qcHashesCached, st)
  else do
    let qcHashes ← readHashes env db quorums
    pure (qcHashes, ⟨quorums, qcHashes⟩)

/-- `pindexPrev` is the tip of the chain. -/
def calcCbTxMerkleRootQuorums (block : ConnectedBlock) (st : Statics) :
    Except Abort ((Uint256 × Bool) × Statics) := do
  let (qcHashes, st) ← minedHashes env db chain st
  let qcHashes ← (block.vtx.drop 1).foldlM (addCommitment env) qcHashes
  pure (rootOf env (qcHashes.flatMap Prod.snd), st)

/-! ### The root without the static maps -/

/-- The quorums of a type whose commitments are mined and active, the most recent one first. -/
def activeQuorums (entry : LLMQType × Consensus.LLMQParams) : List Uint256 :=
  (quorumHeightsUntil db chain entry.1 entry.2.signingActiveQuorumCount).filterMap
    (quorumHashAt chain)

def storedCommitments (entry : LLMQType × Consensus.LLMQParams) : List CFinalCommitment :=
  (activeQuorums db chain entry).filterMap fun quorumHash =>
    (db.minedCommitment (entry.1, quorumHash)).map Prod.fst

def newCommitments (block : ConnectedBlock) (type : LLMQType) : List CFinalCommitment :=
  (mined (blockCommitments block)).filter (·.llmqType = type)

/-- The commitments that are active after `block` is connected on top of the chain. -/
def activeCommitments (block : ConnectedBlock) : List CFinalCommitment :=
  env.llmqs.flatMap fun entry =>
    (newCommitments block entry.1 ++ storedCommitments db chain entry).take
      entry.2.signingActiveQuorumCount

def activeRoot (block : ConnectedBlock) : Uint256 × Bool :=
  rootOf env ((activeCommitments env db chain block).map env.serializeHash)

end

/-! ### The mined commitments -/

/-- The database has what is mined on the chain, and up to the tip nothing else. It may have more
above: a block is written before its root is calculated. -/
structure Covers (env : ProcessorEnv) (chain : ActiveChain) (db : CommitmentDb) : Prop where
  keys : ∀ {h b qc}, MinedAt chain h b qc → db.minedCommitment (quorumKey qc) = some (qc, b.hash)
  heights : ∀ {type : LLMQType} {h : ℕ} {start : ℤ}, h < chain.length →
    db.quorumHeight (type, h) = some start →
      ∃ b qc, MinedAt chain h b qc ∧ qc.llmqType = type ∧ start = sessionHeight env h type

variable {chain : ActiveChain} {env : ProcessorEnv} {db : CommitmentDb}

theorem Covers.of_stored (stored : Stored env chain db) : Covers env chain db := by
  constructor
  · intro h b qc mined
    exact (stored.minedCommitment _ _).mpr ⟨h, b, qc, mined, rfl, rfl⟩
  · intro type h start _ found
    obtain ⟨h', b, qc, mined, height, htype, hstart⟩ := (stored.quorumHeight _ _ _).mp found
    obtain rfl := Int.ofNat_inj.mp height
    exact ⟨b, qc, mined, htype, hstart⟩

variable {block : ConnectedBlock}

theorem Covers.of_stored_cons (stored : Stored env (block :: chain) db) : Covers env chain db := by
  constructor
  · intro h b qc mined
    exact (Covers.of_stored stored).keys (minedAt_cons.mpr (.inr mined))
  · intro type h start hlt found
    obtain ⟨b, qc, mined, htype, hstart⟩ :=
      (Covers.of_stored stored).heights (Nat.lt_succ_of_lt hlt) found
    exact ⟨b, qc, (minedAt_cons_of_lt hlt).mp mined, htype, hstart⟩

/-- The condition on the parameters: also the number of active quorums is positive. -/
structure RootParamsFit (env : RootEnv) : Prop extends ParamsFit env.toProcessorEnv where
  active : ∀ entry ∈ env.llmqs, 0 < entry.2.signingActiveQuorumCount

variable {entry : LLMQType × Consensus.LLMQParams} {qc : CFinalCommitment} {type : LLMQType}

section

variable {env : RootEnv} {s : State} {db : CommitmentDb}
variable {branch above : ActiveChain} {h : ℕ}

theorem atHeight_append (hlt : h < branch.length) :
    atHeight (above ++ branch) h = branch.atHeight h := by
  unfold atHeight
  rw [List.reverse_append, List.getElem?_append_left (by rwa [List.length_reverse])]

variable {b : ConnectedBlock}

/-- The height in the table is that of the block the commitment names, on every branch that has the
block it is mined in. -/
theorem quorumHashAt_sessionHeight {env : ProcessorEnv} (agrees : Agrees env s)
    (mined : MinedAt s.chain h b qc) (split : s.chain = above ++ branch) (hlt : h < branch.length) :
    quorumHashAt branch (sessionHeight env h qc.llmqType) = some qc.quorumHash := by
  obtain ⟨params, hentry⟩ := agrees.known h b mined.block qc mined.mem
  obtain ⟨first, hfirst, hname⟩ := agrees.names hentry mined
  rw [split, atHeight_append ((sessionStart_le params h).trans_lt hlt)] at hfirst
  unfold quorumHashAt
  rw [sessionHeight_eq _ _ ((lookup_eq_some_iff env.sorted).mpr hentry), quorumStartHeight_natCast,
    at?_natCast, hfirst, hname]
  rfl

theorem quorumHashAt_of_mem (agrees : Agrees env.toProcessorEnv s)
    (covers : Covers env.toProcessorEnv s.chain db) {maxCount : ℕ} {quorumHeight : ℤ}
    (hmem : quorumHeight ∈ quorumHeightsUntil db s.chain type maxCount) :
    ∃ h b qc, MinedAt s.chain h b qc ∧ qc.llmqType = type ∧
      quorumHashAt s.chain quorumHeight = some qc.quorumHash := by
  obtain ⟨h, hh, found⟩ := List.mem_filterMap.mp (List.mem_of_mem_take hmem)
  have hlt : h + 1 < s.chain.length := by
    have := List.mem_range.mp (List.mem_reverse.mp hh)
    omega
  obtain ⟨b, qc, mined, rfl, rfl⟩ := covers.heights hlt (by simpa using found)
  exact ⟨h + 1, b, qc, mined, rfl, quorumHashAt_sessionHeight agrees mined (List.nil_append _).symm hlt⟩

theorem minedAt_of_activeQuorums (agrees : Agrees env.toProcessorEnv s)
    (covers : Covers env.toProcessorEnv s.chain db) {quorumHash : Uint256}
    (hmem : quorumHash ∈ activeQuorums db s.chain entry) :
    ∃ h b qc, MinedAt s.chain h b qc ∧ quorumKey qc = (entry.1, quorumHash) := by
  obtain ⟨quorumHeight, hheight, hhash⟩ := List.mem_filterMap.mp hmem
  obtain ⟨h, b, qc, mined, htype, hat⟩ := quorumHashAt_of_mem agrees covers hheight
  rw [hat] at hhash
  exact ⟨h, b, qc, mined, by rw [quorumKey, htype, Option.some.inj hhash]⟩

theorem getMinedCommitmentsUntilBlock_ok (agrees : Agrees env.toProcessorEnv s)
    (covers : Covers env.toProcessorEnv s.chain db) (entry : LLMQType × Consensus.LLMQParams) :
    getMinedCommitmentsUntilBlock db s.chain entry.1 entry.2.signingActiveQuorumCount =
      .ok (activeQuorums db s.chain entry) := by
  refine mapM_expect ?_
  intro quorumHeight hheight
  obtain ⟨_, _, qc, _, _, hat⟩ := quorumHashAt_of_mem agrees covers hheight
  exact ⟨qc.quorumHash, hat⟩

theorem updateAt_of_lt {f : List Uint256 → List Uint256} {m : HashesByType}
    (below : ∀ entry ∈ m, entry.1 < type) : m.updateAt type f = m ++ [(type, f [])] := by
  induction m with
  | nil => rfl
  | cons entry m ih =>
    obtain ⟨hentry, below⟩ := List.forall_mem_cons.mp below
    have hne : type ≠ entry.1 := fun heq => BitVec.lt_irrefl type (heq ▸ hentry)
    have hnlt : ¬ type < entry.1 := BitVec.not_lt.mpr (BitVec.le_of_lt hentry)
    rw [HashesByType.updateAt, if_neg hne, if_neg hnlt, ih below]
    rfl

theorem getMinedAndActive_ok (fit : RootParamsFit env) (agrees : Agrees env.toProcessorEnv s)
    (covers : Covers env.toProcessorEnv s.chain db) :
    getMinedAndActiveCommitmentsUntilBlock env db s.chain =
      .ok (env.llmqs.map fun entry => (entry.1, activeQuorums db s.chain entry)) := by
  have progress : ∀ done entry rest (ret : HashesByType), env.llmqs = done ++ entry :: rest →
      (ret = done.map fun entry => (entry.1, activeQuorums db s.chain entry)) →
      ∃ ret', addMinedAndActive db s.chain ret entry = .ok ret' ∧
        ret' = (done ++ [entry]).map fun entry => (entry.1, activeQuorums db s.chain entry) := by
    intro done entry rest ret hsplit hret
    have hentry : entry ∈ env.llmqs := hsplit ▸ List.mem_append_right _ List.mem_cons_self
    refine ⟨_, ?_, rfl⟩
    unfold addMinedAndActive
    rw [fit.keyed entry hentry, getMinedCommitmentsUntilBlock_ok agrees covers entry, ok_bind,
      hret, updateAt_of_lt]
    · simp [pure, Except.pure]
    · intro earlier hmem
      obtain ⟨entry', hentry', rfl⟩ := List.mem_map.mp hmem
      have sorted := env.sorted
      rw [hsplit] at sorted
      exact (List.pairwise_append.mp sorted).2.2 entry' hentry' entry List.mem_cons_self
  obtain ⟨ret, hrun, hret⟩ := foldlM_total (addMinedAndActive db s.chain) _ env.llmqs rfl progress
  rw [← hret]
  exact hrun

theorem storedHash_of_mined (covers : Covers env.toProcessorEnv s.chain db) {key : QuorumKey}
    (mined : MinedAt s.chain h b qc) (hkey : quorumKey qc = key) : storedHash env db key.1 key.2 = some (env.serializeHash qc) := by
  unfold storedHash
  rw [← hkey]
  change Option.map _ (db.minedCommitment (quorumKey qc)) = _
  rw [covers.keys mined]
  rfl

theorem filterMap_storedHash (entry : LLMQType × Consensus.LLMQParams) :
    (activeQuorums db s.chain entry).filterMap (storedHash env db entry.1) =
      (storedCommitments db s.chain entry).map env.serializeHash := by
  unfold storedCommitments
  rw [List.map_filterMap]
  refine List.filterMap_congr ?_
  intro quorumHash _
  unfold storedHash
  rw [Option.map_map]
  rfl

theorem readHashes_ok (agrees : Agrees env.toProcessorEnv s)
    (covers : Covers env.toProcessorEnv s.chain db) :
    readHashes env db (env.llmqs.map fun entry => (entry.1, activeQuorums db s.chain entry)) =
      .ok (env.llmqs.map fun entry =>
        (entry.1, (storedCommitments db s.chain entry).map env.serializeHash)) := by
  unfold readHashes
  rw [mapM_eq_ok, List.forall₂_map_left_iff, List.forall₂_map_right_iff, List.forall₂_same]
  intro entry hentry
  rw [mapM_expect, ok_bind, filterMap_storedHash]
  · rfl
  · intro quorumHash hmem
    obtain ⟨_, _, qc, mined, hkey⟩ := minedAt_of_activeQuorums agrees covers hmem
    exact ⟨env.serializeHash qc, storedHash_of_mined covers mined hkey⟩

end

/-! ### The static maps -/

/-- `P` holds of every cached hash with the type and the quorum it is kept for. -/
def Statics.Each (P : LLMQType → Uint256 → Uint256 → Prop) (st : Statics) : Prop :=
  List.Forall₂ (fun quorums hashes => quorums.1 = hashes.1 ∧
    List.Forall₂ (P quorums.1) quorums.2 hashes.2) st.quorumsCached st.qcHashesCached

variable {st : Statics} {P Q : LLMQType → Uint256 → Uint256 → Prop}

theorem Statics.Each.mp (h : st.Each P)
    (imp : ∀ quorums ∈ st.quorumsCached, ∀ quorumHash ∈ quorums.2, ∀ hash, P quorums.1 quorumHash hash → Q quorums.1 quorumHash hash) : st.Each Q := by
  have mem := (List.forall₂_and_left _ _).mpr ⟨fun quorums hmem => hmem, h⟩
  refine mem.imp ?_
  intro quorums hashes ⟨hmem, hkey, hashes⟩
  refine ⟨hkey, ?_⟩
  refine ((List.forall₂_and_left _ _).mpr ⟨fun quorumHash hmem => hmem, hashes⟩).imp ?_
  intro quorumHash hash ⟨hmem', hP⟩
  exact imp quorums hmem quorumHash hmem' hash hP

theorem Statics.Each.and (hP : st.Each P) (hQ : st.Each Q) : st.Each fun type quorumHash hash =>
      P type quorumHash hash ∧ Q type quorumHash hash := by
  refine List.Forall₂.mp ?_ hP hQ
  intro quorums hashes ⟨hkey, hP⟩ ⟨_, hQ⟩
  exact ⟨hkey, List.Forall₂.mp (fun _ _ => And.intro) hP hQ⟩

/-- A cached hash is that of the commitment mined on the chain, if one is. -/
def Statics.Right (env : RootEnv) (chain : ActiveChain) (st : Statics) : Prop :=
  st.Each fun type quorumHash hash => ∀ h b qc, MinedAt chain h b qc →
    quorumKey qc = (type, quorumHash) → hash = env.serializeHash qc

section

variable {env : RootEnv} {s : State} {db : CommitmentDb}

theorem readHashes_of_each
    (each : st.Each fun type quorumHash hash => storedHash env db type quorumHash = some hash) :
    readHashes env db st.quorumsCached = .ok st.qcHashesCached := by
  unfold readHashes
  rw [mapM_eq_ok]
  refine each.imp ?_
  intro quorums hashes ⟨hkey, hhashes⟩
  obtain ⟨type, hashes⟩ := hashes
  have read : quorums.2.mapM (fun quorumHash =>
      expect (storedHash env db quorums.1 quorumHash) Abort.assertion) = .ok hashes := by
    rw [mapM_eq_ok]
    exact hhashes.imp fun _ _ found => expect_eq_ok.mpr found
  rw [read, ok_bind, hkey]
  rfl

theorem each_of_readHashes {quorums hashes : HashesByType} (h : readHashes env db quorums = .ok hashes) :
    Statics.Each (fun type quorumHash hash => storedHash env db type quorumHash = some hash)
      ⟨quorums, hashes⟩ := by
  unfold readHashes at h
  rw [mapM_eq_ok] at h
  refine h.imp ?_
  intro quorums hashes hread
  obtain ⟨v, hv, hpair⟩ := bind_eq_ok.mp hread
  obtain rfl := Except.ok.inj hpair
  rw [mapM_eq_ok] at hv
  exact ⟨rfl, hv.imp fun _ _ found => expect_eq_ok.mp found⟩

/-- With static maps that are right the hashes are those in the database, and the maps stay right.
Afterwards they hold the active quorums of the chain. -/
theorem minedHashes_ok (fit : RootParamsFit env) (agrees : Agrees env.toProcessorEnv s)
    (covers : Covers env.toProcessorEnv s.chain db) (right : st.Right env s.chain) :
    ∃ st', minedHashes env db s.chain st =
        .ok (env.llmqs.map fun entry =>
          (entry.1, (storedCommitments db s.chain entry).map env.serializeHash), st') ∧
      st'.Right env s.chain ∧
      st'.quorumsCached = env.llmqs.map fun entry => (entry.1, activeQuorums db s.chain entry) := by
  have hread := readHashes_ok agrees covers
  unfold minedHashes
  rw [getMinedAndActive_ok fit agrees covers, ok_bind]
  split
  · next same =>
      have each : st.Each fun type quorumHash hash =>
          storedHash env db type quorumHash = some hash := by
        refine right.mp ?_
        intro quorums hmem quorumHash hmem' hash hright
        rw [← same] at hmem
        obtain ⟨entry, hentry, rfl⟩ := List.mem_map.mp hmem
        obtain ⟨h, b, qc, mined, hkey⟩ := minedAt_of_activeQuorums agrees covers hmem'
        rw [hright h b qc mined hkey]
        exact storedHash_of_mined covers mined hkey
      have hcached := readHashes_of_each each
      rw [← same, hread] at hcached
      exact ⟨st, by rw [← Except.ok.inj hcached]; rfl, right, same.symm⟩
  · rw [hread, ok_bind]
    refine ⟨_, rfl, ?_, rfl⟩
    refine (each_of_readHashes hread).mp ?_
    intro quorums _ quorumHash _ hash found h b qc mined hkey
    rw [storedHash_of_mined covers mined hkey] at found
    exact (Option.some.inj found).symm

end

/-! ### The commitments of the block -/

/-- The commitments of a block that may be connected: none in the first transaction, each in a
transaction of version 3, and of those that are not null at most one of each type. -/
structure Regular (env : RootEnv) (block : ConnectedBlock) : Prop where
  first : ∀ tx ∈ block.vtx.head?, tx.nType ≠ .quorumCommitment
  version : ∀ tx ∈ block.vtx, tx.nType = .quorumCommitment →
    tx.nVersion = 3 ∧ tx.finalCommitmentPayload.isSome = true
  known : ∀ qc ∈ mined (blockCommitments block), (env.llmqs.lookup qc.llmqType).isSome = true
  distinct : ((mined (blockCommitments block)).map CFinalCommitment.llmqType).Nodup

section

variable {env : RootEnv}

def vectors (env : RootEnv) (f : LLMQType × Consensus.LLMQParams → List Uint256) : HashesByType :=
  env.llmqs.map fun entry => (entry.1, f entry)

theorem updateAt_map {llmqs : Consensus.LLMQs} (sorted : llmqs.Pairwise (·.1 < ·.1))
    {params : Consensus.LLMQParams} (hmem : (type, params) ∈ llmqs)
    (f : LLMQType × Consensus.LLMQParams → List Uint256) (g : List Uint256 → List Uint256) :
    HashesByType.updateAt type g (llmqs.map fun entry => (entry.1, f entry)) =
      llmqs.map fun entry => (entry.1, if type = entry.1 then g (f entry) else f entry) := by
  induction llmqs with
  | nil => cases hmem
  | cons entry llmqs ih =>
    rw [List.pairwise_cons] at sorted
    rw [List.map_cons, List.map_cons, HashesByType.updateAt]
    by_cases hkey : type = entry.1
    · rw [if_pos hkey, if_pos hkey, hkey]
      refine congrArg _ (List.map_congr_left ?_)
      intro later hlater
      have hne : entry.1 ≠ later.1 := fun heq =>
        BitVec.lt_irrefl entry.1 (by simpa [← heq] using sorted.1 later hlater)
      rw [if_neg hne]
    · have hmem' : (type, params) ∈ llmqs := by
        obtain heq | hmem := List.mem_cons.mp hmem
        · exact absurd (congrArg Prod.fst heq) hkey
        · exact hmem
      have hnlt : ¬ type < entry.1 := BitVec.not_lt.mpr (BitVec.le_of_lt (sorted.1 _ hmem'))
      rw [if_neg hkey, if_neg hnlt, if_neg hkey, ih sorted.2 hmem']

variable {v : List Uint256} {count : ℕ}

theorem length_pushActive_le (positive : 0 < count) (qcHash : Uint256) (hv : v.length ≤ count) : (pushActive count qcHash v).length ≤ count := by
  unfold pushActive
  split
  · next full => simp [full]; omega
  · next notFull => simp; omega

theorem pushActive_perm (positive : 0 < count) (qcHash : Uint256) (hv : v.length ≤ count) : (pushActive count qcHash v).Perm ((qcHash :: v).take count) := by
  obtain ⟨n, rfl⟩ := Nat.exists_eq_add_one_of_ne_zero positive.ne'
  rw [List.take_succ_cons]
  refine (List.perm_append_singleton _ _).trans (.cons _ (.of_eq ?_))
  split
  · next full => rw [List.dropLast_eq_take, full, Nat.add_sub_cancel]
  · next notFull => rw [List.take_of_length_le (by omega)]

def pushAll (env : RootEnv) (qcs : List CFinalCommitment) (entry : LLMQType × Consensus.LLMQParams)
    (v : List Uint256) : List Uint256 :=
  (qcs.filter (·.llmqType = entry.1)).foldl
    (fun v qc => pushActive entry.2.signingActiveQuorumCount (env.serializeHash qc) v) v

theorem pushAll_append (qcs qcs' : List CFinalCommitment) (entry : LLMQType × Consensus.LLMQParams)
    (v : List Uint256) :
    pushAll env (qcs ++ qcs') entry v = pushAll env qcs' entry (pushAll env qcs entry v) := by
  unfold pushAll
  rw [List.filter_append, List.foldl_append]

theorem length_pushAll_le (positive : 0 < entry.2.signingActiveQuorumCount)
    (qcs : List CFinalCommitment) (hv : v.length ≤ entry.2.signingActiveQuorumCount) :
    (pushAll env qcs entry v).length ≤ entry.2.signingActiveQuorumCount := by
  unfold pushAll
  induction qcs.filter (·.llmqType = entry.1) generalizing v with
  | nil => exact hv
  | cons qc qcs ih => exact ih (length_pushActive_le positive _ hv)

theorem pushAll_perm (positive : 0 < entry.2.signingActiveQuorumCount) {qcs : List CFinalCommitment}
    (distinct : (qcs.map CFinalCommitment.llmqType).Nodup)
    (hv : v.length ≤ entry.2.signingActiveQuorumCount) :
    (pushAll env qcs entry v).Perm
      (((qcs.filter (·.llmqType = entry.1)).map env.serializeHash ++ v).take
        entry.2.signingActiveQuorumCount) := by
  have single : (qcs.filter (·.llmqType = entry.1)).length ≤ 1 := by
    have count := List.nodup_iff_count_le_one.mp distinct entry.1
    rw [List.count, List.countP_map] at count
    rw [← List.countP_eq_length_filter]
    refine le_trans (le_of_eq (List.countP_congr ?_)) count
    intro qc _
    simp
  unfold pushAll
  obtain none | one := Nat.le_one_iff_eq_zero_or_eq_one.mp single
  · rw [List.length_eq_zero_iff.mp none]
    exact .of_eq (List.take_of_length_le hv).symm
  · obtain ⟨qc, only⟩ := List.length_eq_one_iff.mp one
    rw [only]
    exact pushActive_perm positive _ hv

variable {f : LLMQType × Consensus.LLMQParams → List Uint256} {tx : CTransaction}

theorem addCommitment_mined (fit : RootParamsFit env) (version : tx.nVersion = 3)
    (htype : tx.nType = .quorumCommitment)
    (payload : tx.finalCommitmentPayload.map CFinalCommitmentTxPayload.commitment = some qc)
    (notNull : isNullCommitment qc = false) (known : (env.llmqs.lookup qc.llmqType).isSome = true)
    (bounded : ∀ entry ∈ env.llmqs, (f entry).length ≤ entry.2.signingActiveQuorumCount) :
    addCommitment env (vectors env f) tx =
      .ok (vectors env fun entry => pushAll env [qc] entry (f entry)) := by
  obtain ⟨params, hlookup⟩ := Option.isSome_iff_exists.mp known
  have hmem := (lookup_eq_some_iff env.sorted).mp hlookup
  have hkeyed : params.type = qc.llmqType := fit.keyed _ hmem
  have hvector : (vectors env f).lookup params.type = some (f (qc.llmqType, params)) := by
    rw [hkeyed]
    have hsorted : (vectors env f).Pairwise (·.1 < ·.1) := List.pairwise_map.mpr env.sorted
    exact (lookup_eq_some_iff hsorted).mpr (List.mem_map.mpr ⟨_, hmem, rfl⟩)
  have hlength : (pushActive params.signingActiveQuorumCount (env.serializeHash qc)
      (f (qc.llmqType, params))).length ≤ params.signingActiveQuorumCount :=
    length_pushActive_le (fit.active _ hmem) _ (bounded _ hmem)
  unfold addCommitment
  rw [if_pos ⟨version, htype⟩, payload, expect_eq_ok.mpr rfl, ok_bind, if_neg (by simp [notNull]),
    expect_eq_ok.mpr hlookup, ok_bind, hvector, Option.getD_some]
  dsimp only
  rw [(require_eq_ok (u := ())).mpr hlength, ok_bind, hkeyed]
  unfold vectors
  rw [updateAt_map env.sorted hmem]
  refine congrArg Except.ok (List.map_congr_left ?_)
  intro entry hentry
  unfold pushAll
  by_cases hentryType : qc.llmqType = entry.1
  · have hparams : entry.2 = params := by
      have := (lookup_eq_some_iff env.sorted).mpr (show (entry.1, entry.2) ∈ _ from hentry)
      rw [← hentryType, hlookup] at this
      exact (Option.some.inj this).symm
    simp [hentryType, hparams]
  · simp [hentryType]

theorem addCommitment_ok (fit : RootParamsFit env)
    (version : tx.nType = .quorumCommitment → tx.nVersion = 3 ∧ tx.finalCommitmentPayload.isSome = true)
    (known : ∀ qc ∈ mined (commitmentOf tx).toList, (env.llmqs.lookup qc.llmqType).isSome = true)
    (bounded : ∀ entry ∈ env.llmqs, (f entry).length ≤ entry.2.signingActiveQuorumCount) :
    addCommitment env (vectors env f) tx =
      .ok (vectors env fun entry => pushAll env (mined (commitmentOf tx).toList) entry (f entry)) := by
  by_cases htype : tx.nType = .quorumCommitment
  · obtain ⟨version, present⟩ := version htype
    obtain ⟨payload, hpayload⟩ := Option.isSome_iff_exists.mp present
    have carries : commitmentOf tx = some payload.commitment := by
      rw [commitmentOf, if_pos htype, hpayload]
      rfl
    rw [carries] at known ⊢
    cases null : isNullCommitment payload.commitment with
    | true =>
      have none : mined (some payload.commitment).toList = [] := by simp [mined, null]
      rw [none]
      unfold addCommitment
      rw [if_pos ⟨version, htype⟩, hpayload, Option.map_some, expect_eq_ok.mpr rfl, ok_bind,
        if_pos null]
      rfl
    | false =>
      have one : mined (some payload.commitment).toList = [payload.commitment] := by
        simp [mined, null]
      rw [one] at known ⊢
      exact addCommitment_mined fit version htype (by rw [hpayload]; rfl) null
        (known _ List.mem_cons_self) bounded
  · have none : commitmentOf tx = none := if_neg htype
    rw [none]
    unfold addCommitment
    rw [if_neg fun carries => htype carries.2]
    rfl

theorem mined_filterMap_cons (tx : CTransaction) (txs : List CTransaction) :
    mined ((tx :: txs).filterMap commitmentOf) =
      mined (commitmentOf tx).toList ++ mined (txs.filterMap commitmentOf) := by
  unfold mined
  rw [← List.filter_append]
  cases hc : commitmentOf tx with
  | none => rw [List.filterMap_cons_none hc]; rfl
  | some qc => rw [List.filterMap_cons_some hc]; rfl

theorem foldlM_addCommitment (fit : RootParamsFit env) {txs : List CTransaction}
    (version : ∀ tx ∈ txs, tx.nType = .quorumCommitment → tx.nVersion = 3 ∧ tx.finalCommitmentPayload.isSome = true)
    (known : ∀ qc ∈ mined (txs.filterMap commitmentOf), (env.llmqs.lookup qc.llmqType).isSome = true)
    (bounded : ∀ entry ∈ env.llmqs, (f entry).length ≤ entry.2.signingActiveQuorumCount) :
    txs.foldlM (addCommitment env) (vectors env f) =
      .ok (vectors env fun entry =>
        pushAll env (mined (txs.filterMap commitmentOf)) entry (f entry)) := by
  induction txs generalizing f with
  | nil => rfl
  | cons tx txs ih =>
    rw [mined_filterMap_cons] at known ⊢
    obtain ⟨knownFirst, known⟩ := List.forall_mem_append.mp known
    obtain ⟨versionFirst, version⟩ := List.forall_mem_cons.mp version
    rw [List.foldlM_cons, addCommitment_ok fit versionFirst knownFirst bounded, ok_bind,
      ih version known]
    · simp only [pushAll_append]
    · intro entry hentry
      exact length_pushAll_le (fit.active entry hentry) _ (bounded entry hentry)

theorem blockCommitments_eq_drop (regular : Regular env block) :
    (block.vtx.drop 1).filterMap commitmentOf = blockCommitments block := by
  have first := regular.first
  unfold blockCommitments
  cases hvtx : block.vtx with
  | nil => rfl
  | cons tx txs =>
    rw [hvtx] at first
    have none : commitmentOf tx = none := if_neg (first tx rfl)
    rw [List.filterMap_cons_none none]
    rfl

end

section

variable {env : RootEnv} {s : State} {db : CommitmentDb}

theorem sortHashes_eq_of_perm {l₁ l₂ : List Uint256} (perm : l₁.Perm l₂) :
    sortHashes l₁ = sortHashes l₂ :=
  Ranking.sort_eq_of_perm (fun _ _ => Iff.rfl) (fun _ _ => BitVec.eq_of_toNat_eq) perm

theorem length_storedCommitments_le (entry : LLMQType × Consensus.LLMQParams) :
    (storedCommitments db s.chain entry).length ≤ entry.2.signingActiveQuorumCount := by
  refine (List.length_filterMap_le _ _).trans ((List.length_filterMap_le _ _).trans ?_)
  exact List.length_take_le _ _

theorem calcCbTxMerkleRootQuorums_ok (fit : RootParamsFit env)
    (agrees : Agrees env.toProcessorEnv s) (covers : Covers env.toProcessorEnv s.chain db)
    (right : st.Right env s.chain) (regular : Regular env block) :
    (calcCbTxMerkleRootQuorums env db s.chain block st).map Prod.fst =
      .ok (activeRoot env db s.chain block) := by
  obtain ⟨st', hmined, -⟩ := minedHashes_ok fit agrees covers right
  have bounded : ∀ entry ∈ env.llmqs, ((storedCommitments db s.chain entry).map
      env.serializeHash).length ≤ entry.2.signingActiveQuorumCount := by
    intro entry _
    rw [List.length_map]
    exact length_storedCommitments_le entry
  have version : ∀ tx ∈ block.vtx.drop 1, tx.nType = .quorumCommitment →
      tx.nVersion = 3 ∧ tx.finalCommitmentPayload.isSome = true :=
    fun tx htx => regular.version tx (List.mem_of_mem_drop htx)
  have hfold := foldlM_addCommitment fit version
    (by rw [blockCommitments_eq_drop regular]; exact regular.known) bounded
  unfold calcCbTxMerkleRootQuorums
  rw [hmined, ok_bind]
  change Except.map _ ((block.vtx.drop 1).foldlM (addCommitment env) (vectors env _) >>= _) = _
  rw [hfold, ok_bind, blockCommitments_eq_drop regular]
  refine congrArg Except.ok ?_
  change rootOf env _ = activeRoot env db s.chain block
  unfold activeRoot activeCommitments rootOf
  rw [sortHashes_eq_of_perm]
  unfold vectors
  rw [List.flatMap_map, List.map_flatMap]
  refine List.Perm.flatMap_left _ ?_
  intro entry hentry
  rw [List.map_take, List.map_append]
  exact pushAll_perm (fit.active entry hentry) regular.distinct (bounded entry hentry)

end

end ButCore.Llmq.CbTxQuorums
