import ButCore.Lib.Outcome
import ButCore.Evo.ActiveChain
import ButCore.Evo.SpecialTx
import ButCore.Llmq.Params

/-!
# Mined commitments

`CQuorumBlockProcessor`: the commitments of a block, the test whether a commitment is required at a
height, and the database of mined commitments behind the cache of `HasMinedCommitment`.
-/
namespace ButCore.Llmq.BlockProcessor

open Std.Do ButCore.Evo Checked

set_option mvcgen.warning false

/-- Every rejection is `DoS(100, false, REJECT_INVALID, reason)`; `at` throws when there is no
entry. -/
inductive Fault where
  | invalid (reason : String)
  | outOfRange
  deriving DecidableEq

/-- The `llmqs` are in the order of their keys. Genesis has no special transactions, and its hash is
not null. -/
structure ProcessorEnv where
  llmqs : Consensus.LLMQs
  sorted : llmqs.Pairwise (·.1 < ·.1)
  dip0003Enabled : Bool
  /-- `Verify` with the signatures, and with the members of the quorum of this type. -/
  verify : LLMQType → CFinalCommitment → Bool
  genesis : ConnectedBlock
  genesis_hash : genesis.hash ≠ 0
  genesis_plain : ∀ tx ∈ genesis.vtx, tx.nType ≠ .quorumCommitment

abbrev QuorumKey := LLMQType × Uint256

def quorumKey (qc : CFinalCommitment) : QuorumKey := (qc.llmqType, qc.quorumHash)

/-- The entries of the two tables `q_mc` and `q_mcih`, the second one by the mined height. -/
structure CommitmentDb where
  minedCommitment : QuorumKey → Option (CFinalCommitment × Uint256)
  quorumHeight : LLMQType × ℤ → Option ℤ

namespace CommitmentDb

def empty : CommitmentDb := ⟨fun _ => none, fun _ => none⟩

def write (db : CommitmentDb) (type : LLMQType) (quorumHash : Uint256) (nHeight quorumHeight : ℤ)
    (qc : CFinalCommitment) (blockHash : Uint256) : CommitmentDb where
  minedCommitment := Function.update db.minedCommitment (type, quorumHash) (some (qc, blockHash))
  quorumHeight := Function.update db.quorumHeight (type, nHeight) (some quorumHeight)

def erase (db : CommitmentDb) (type : LLMQType) (quorumHash : Uint256) (nHeight : ℤ) :
    CommitmentDb where
  minedCommitment := Function.update db.minedCommitment (type, quorumHash) none
  quorumHeight := Function.update db.quorumHeight (type, nHeight) none

end CommitmentDb

structure ProcessorStore where
  db : CommitmentDb
  hasMinedCommitmentCache : QuorumKey → Option Bool

/-- What a call has written stays when it stops. -/
abbrev Process := ExceptT Fault (StateM ProcessorStore)

def rejectIf (c : Prop) [Decidable c] (reason : String) : Process Unit :=
  if c then throw (.invalid reason) else pure ()

/-! ### The commitments of a block -/

def collectCommitment (ret : List CFinalCommitment) (tx : CTransaction) :
    Except Fault (List CFinalCommitment) :=
  if tx.nType = .quorumCommitment then do
    let qc ← expect tx.finalCommitmentPayload (.invalid "bad-tx-payload")
    failIf (∃ qc' ∈ ret, qc'.llmqType = qc.commitment.llmqType) (.invalid "bad-qc-dup")
    pure (ret.orderedInsert (·.llmqType ≤ ·.llmqType) qc.commitment)
  else pure ret

def getCommitmentsFromBlock (env : ProcessorEnv) (block : ConnectedBlock) :
    Except Fault (List CFinalCommitment) := do
  let ret ← block.vtx.foldlM collectCommitment []
  failIf (env.dip0003Enabled = false ∧ ret ≠ []) (.invalid "bad-qc-premature")
  pure ret

def commitmentOf (tx : CTransaction) : Option CFinalCommitment :=
  if tx.nType = .quorumCommitment then
    tx.finalCommitmentPayload.map CFinalCommitmentTxPayload.commitment
  else none

def blockCommitments (block : ConnectedBlock) : List CFinalCommitment :=
  block.vtx.filterMap commitmentOf

variable {ret : List CFinalCommitment}

theorem collectCommitment_ok {ret' : List CFinalCommitment} {tx : CTransaction}
    (h : collectCommitment ret tx = .ok ret') (distinct : (ret.map CFinalCommitment.llmqType).Nodup) :
    ret'.Perm (ret ++ (commitmentOf tx).toList) ∧ (ret'.map CFinalCommitment.llmqType).Nodup := by
  unfold collectCommitment at h
  unfold commitmentOf
  split at h
  · next carries =>
      simp only [bind_eq_ok, expect_eq_ok, failIf_eq_ok] at h
      obtain ⟨qc, payload, -, fresh, h⟩ := h
      obtain rfl := Except.ok.inj h
      have perm := List.perm_orderedInsert (fun a b : CFinalCommitment => a.llmqType ≤ b.llmqType)
        qc.commitment ret
      rw [if_pos carries, payload]
      refine ⟨perm.trans ?_, ?_⟩
      · exact (List.perm_append_singleton qc.commitment ret).symm
      · rw [(perm.map CFinalCommitment.llmqType).nodup_iff, List.map_cons, List.nodup_cons]
        refine ⟨?_, distinct⟩
        intro hmem
        exact fresh (List.mem_map.mp hmem)
  · next carries =>
      obtain rfl := Except.ok.inj h
      rw [if_neg carries]
      exact ⟨by simp, distinct⟩

variable {qcs : List CFinalCommitment}

theorem foldlM_collectCommitment_ok {vtx : List CTransaction}
    (h : vtx.foldlM collectCommitment ret = .ok qcs)
    (distinct : (ret.map CFinalCommitment.llmqType).Nodup) :
    qcs.Perm (ret ++ vtx.filterMap commitmentOf) ∧ (qcs.map CFinalCommitment.llmqType).Nodup := by
  induction vtx generalizing ret with
  | nil =>
    obtain rfl := Except.ok.inj h
    exact ⟨by simp, distinct⟩
  | cons tx vtx ih =>
    rw [List.foldlM_cons] at h
    obtain ⟨ret', hret, h⟩ := bind_eq_ok.mp h
    obtain ⟨perm, distinct'⟩ := collectCommitment_ok hret distinct
    obtain ⟨perm', distinct''⟩ := ih h distinct'
    refine ⟨perm'.trans ?_, distinct''⟩
    have split : (tx :: vtx).filterMap commitmentOf =
        (commitmentOf tx).toList ++ vtx.filterMap commitmentOf := by
      cases hc : commitmentOf tx with
      | none => simp [hc]
      | some qc => simp [hc]
    rw [split, ← List.append_assoc]
    exact perm.append_right _

variable {block : ConnectedBlock}

theorem getCommitmentsFromBlock_ok {env : ProcessorEnv}
    (h : getCommitmentsFromBlock env block = .ok qcs) :
    qcs.Perm (blockCommitments block) ∧ (qcs.map CFinalCommitment.llmqType).Nodup := by
  unfold getCommitmentsFromBlock at h
  obtain ⟨ret, hret, h⟩ := bind_eq_ok.mp h
  obtain ⟨-, -, h⟩ := bind_eq_ok.mp h
  obtain rfl := Except.ok.inj h
  exact foldlM_collectCommitment_ok hret (by simp)

section

variable (env : ProcessorEnv) (chain : ActiveChain) (nHeight : ℤ)

def paramsAt (type : LLMQType) : Process Consensus.LLMQParams :=
  match env.llmqs.lookup type with
  | none => throw .outOfRange
  | some params => pure params

def quorumStartHeight (params : Consensus.LLMQParams) (nHeight : ℤ) : ℤ :=
  nHeight - nHeight.tmod params.dkgInterval

/-- Null for the first block of a session, whose hash is not known yet. -/
def getQuorumBlockHash (params : Consensus.LLMQParams) : Uint256 :=
  match chain.at? (quorumStartHeight params nHeight) with
  | none => 0
  | some block => block.hash

def hasMinedCommitment (key : QuorumKey) : Process Bool := do
  let s ← get
  match s.hasMinedCommitmentCache key with
  | some cached => pure cached
  | none =>
    let ret := (s.db.minedCommitment key).isSome
    set { s with hasMinedCommitmentCache :=
      Function.update s.hasMinedCommitmentCache key (some ret) }
    pure ret

def isCommitmentRequired (entry : LLMQType × Consensus.LLMQParams) : Process Bool := do
  let quorumHash := getQuorumBlockHash chain nHeight entry.2
  let isMiningPhase := decide (quorumHash ≠ 0) && Consensus.isMiningPhase entry.2 nHeight
  if quorumHash ≠ 0 then
    let hasMined ← hasMinedCommitment (entry.1, quorumHash)
    pure (isMiningPhase && !hasMined)
  else pure isMiningPhase

def checkSession (qcs : List CFinalCommitment) (entry : LLMQType × Consensus.LLMQParams) :
    Process Unit := do
  let hasCommitmentInNewBlock := decide (∃ qc ∈ qcs, qc.llmqType = entry.1)
  let required ← isCommitmentRequired chain nHeight entry
  rejectIf (hasCommitmentInNewBlock = true ∧ required = false) "bad-qc-not-allowed"
  rejectIf (hasCommitmentInNewBlock = false ∧ required = true) "bad-qc-missing"

/-- The sizes are those that the parameters of the commitment's own type ask for. -/
def verifyNull (qc : CFinalCommitment) : Bool :=
  match env.llmqs.lookup qc.llmqType with
  | none => false
  | some params =>
    isNullCommitment qc && verifySizes qc ⟨params.size, params.minSize, params.dkgInterval⟩

def ProcessorStore.mine (type : LLMQType) (quorumHash : Uint256) (quorumHeight : ℤ)
    (qc : CFinalCommitment) (blockHash : Uint256) (s : ProcessorStore) : ProcessorStore where
  db := s.db.write type quorumHash nHeight quorumHeight qc blockHash
  hasMinedCommitmentCache := Function.update s.hasMinedCommitmentCache (type, quorumHash) none

/-- The part of `ProcessCommitment` for a commitment that is not null. `quorumIndex` is the block of
the active chain that the commitment names. -/
def mineCommitment (params : Consensus.LLMQParams) (quorumHash blockHash : Uint256)
    (qc : CFinalCommitment) : Process Unit := do
  let mined ← hasMinedCommitment (params.type, quorumHash)
  rejectIf (mined = true) "bad-qc-dup"
  let paramsOfType ← paramsAt env params.type
  rejectIf (Consensus.isMiningPhase paramsOfType nHeight = false) "bad-qc-height"
  rejectIf (env.verify params.type qc = false) "bad-qc-invalid"
  modify (ProcessorStore.mine nHeight params.type quorumHash (quorumStartHeight params nHeight) qc
    blockHash)

def processCommitment (blockHash : Uint256) (qc : CFinalCommitment) : Process Unit := do
  let params ← paramsAt env qc.llmqType
  let quorumHash := getQuorumBlockHash chain nHeight params
  rejectIf (quorumHash = 0) "bad-qc-block"
  rejectIf (quorumHash ≠ qc.quorumHash) "bad-qc-block"
  if isNullCommitment qc then rejectIf (verifyNull env qc = false) "bad-qc-invalid-null"
  else mineCommitment env nHeight params quorumHash blockHash qc

def processCommitments (blockHash : Uint256) (qcs : List CFinalCommitment) : Process Unit := do
  for entry in env.llmqs do checkSession chain nHeight qcs entry
  for qc in qcs do processCommitment env chain nHeight blockHash qc

def processBlock (block : ConnectedBlock) : Process Unit :=
  if env.dip0003Enabled then
    match getCommitmentsFromBlock env block with
    | .error fault => throw fault
    | .ok qcs => processCommitments env chain nHeight block.hash qcs
  else pure ()

def ProcessorStore.undo (s : ProcessorStore) (qc : CFinalCommitment) : ProcessorStore :=
  if isNullCommitment qc then s
  else
    { db := s.db.erase qc.llmqType qc.quorumHash nHeight
      hasMinedCommitmentCache :=
        Function.update s.hasMinedCommitmentCache (quorumKey qc) none }

def undoBlock (block : ConnectedBlock) (s : ProcessorStore) : Except Fault ProcessorStore := do
  let qcs ← getCommitmentsFromBlock env block
  pure (qcs.foldl (ProcessorStore.undo nHeight) s)

end

/-! ### Specifications -/

def ProcessorStore.Tracks (db : CommitmentDb) (s : ProcessorStore) : Prop :=
  ∀ key cached, s.hasMinedCommitmentCache key = some cached →
    s.db.minedCommitment key = db.minedCommitment key ∧
      cached = (db.minedCommitment key).isSome

variable {db : CommitmentDb} {s : ProcessorStore}

theorem ProcessorStore.Tracks.cache_none (h : s.Tracks db) {db' : CommitmentDb} {key : QuorumKey}
    (elsewhere : ∀ key', key' ≠ key → db'.minedCommitment key' = s.db.minedCommitment key') :
    ProcessorStore.Tracks db
      ⟨db', Function.update s.hasMinedCommitmentCache key none⟩ := by
  intro key' cached hcached
  by_cases hkey : key' = key
  · subst hkey
    simp at hcached
  · simp only [Function.update_of_ne hkey] at hcached
    rw [elsewhere key' hkey]
    exact h key' cached hcached

theorem hasMinedCommitment_total (key : QuorumKey) :
    ⦃fun _ => ⌜True⌝⦄ hasMinedCommitment key ⦃post⟨fun _ _ => ⌜True⌝, fun _ _ => ⌜False⌝⟩⦄ := by
  mvcgen [hasMinedCommitment]

@[spec]
theorem hasMinedCommitment_spec (db₀ db : CommitmentDb) (key : QuorumKey)
    (same : db.minedCommitment key = db₀.minedCommitment key) :
    ⦃fun s => ⌜s.Tracks db₀ ∧ s.db = db⌝⦄ hasMinedCommitment key
    ⦃post⟨fun found s => ⌜s.Tracks db₀ ∧ s.db = db ∧ found = (db₀.minedCommitment key).isSome⌝,
      fun _ s => ⌜s.Tracks db₀⌝⟩⦄ := by
  mvcgen [hasMinedCommitment]
  · next s h cached hcached =>
      exact ⟨h.1, h.2, (h.1 key cached hcached).2⟩
  · next s h hcached ret =>
      obtain ⟨tracks, rfl⟩ := h
      refine ⟨?_, rfl, congrArg Option.isSome same⟩
      intro key' cached' hcached'
      by_cases hkey : key' = key
      · subst hkey
        simp only [Function.update_self, Option.some.injEq] at hcached'
        exact ⟨same, hcached'.symm.trans (congrArg Option.isSome same)⟩
      · simp only [Function.update_of_ne hkey] at hcached'
        exact tracks key' cached' hcached'

section

variable (env : ProcessorEnv) (chain : ActiveChain) (nHeight : ℤ)

def Required (db : CommitmentDb) (entry : LLMQType × Consensus.LLMQParams) : Prop :=
  getQuorumBlockHash chain nHeight entry.2 ≠ 0 ∧ Consensus.isMiningPhase entry.2 nHeight = true ∧
    db.minedCommitment (entry.1, getQuorumBlockHash chain nHeight entry.2) = none

@[spec]
theorem isCommitmentRequired_spec (db : CommitmentDb) (entry : LLMQType × Consensus.LLMQParams) :
    ⦃fun s => ⌜s.Tracks db ∧ s.db = db⌝⦄ isCommitmentRequired chain nHeight entry
    ⦃post⟨fun required s =>
        ⌜s.Tracks db ∧ s.db = db ∧ (required = true ↔ Required chain nHeight db entry)⌝,
      fun _ s => ⌜s.Tracks db⌝⟩⦄ := by
  mvcgen [isCommitmentRequired]
  · next quorumHash isMiningPhase known _ _ found s h =>
      obtain ⟨tracks, hdb, rfl⟩ := h
      refine ⟨tracks, hdb, ?_⟩
      simp [Required, isMiningPhase, quorumHash, and_assoc]
  · next quorumHash isMiningPhase unknown s h =>
      refine ⟨h.1, h.2, ?_⟩
      have : getQuorumBlockHash chain nHeight entry.2 = 0 := not_not.mp unknown
      simp [Required, isMiningPhase, quorumHash, this]

@[spec]
theorem checkSession_spec (db : CommitmentDb) (qcs : List CFinalCommitment)
    (entry : LLMQType × Consensus.LLMQParams) :
    ⦃fun s => ⌜s.Tracks db ∧ s.db = db⌝⦄ checkSession chain nHeight qcs entry
    ⦃post⟨fun _ s => ⌜s.Tracks db ∧ s.db = db ∧
        ((∃ qc ∈ qcs, qc.llmqType = entry.1) ↔ Required chain nHeight db entry)⌝,
      fun _ s => ⌜s.Tracks db⌝⟩⦄ := by
  mvcgen [checkSession, rejectIf]
  case vc4 h allowed present =>
    obtain ⟨tracks, hdb, required⟩ := h
    refine ⟨tracks, hdb, ?_⟩
    rw [← required]
    grind
  -- a call that stops has only looked up
  all_goals grind

structure Admitted (qc : CFinalCommitment)
    (params : Consensus.LLMQParams) : Prop where
  params_eq : env.llmqs.lookup qc.llmqType = some params
  known : getQuorumBlockHash chain nHeight params ≠ 0
  quorumHash_eq : qc.quorumHash = getQuorumBlockHash chain nHeight params

def sessionHeight (type : LLMQType) : ℤ :=
  match env.llmqs.lookup type with
  | none => 0
  | some params => quorumStartHeight params nHeight

variable {params : Consensus.LLMQParams} {type : LLMQType}

theorem sessionHeight_eq (params_eq : env.llmqs.lookup type = some params) :
    sessionHeight env nHeight type = quorumStartHeight params nHeight := by
  unfold sessionHeight
  rw [params_eq]

def CommitmentDb.record (blockHash : Uint256) (db : CommitmentDb) (qc : CFinalCommitment) :
    CommitmentDb :=
  if isNullCommitment qc then db
  else db.write qc.llmqType qc.quorumHash nHeight (sessionHeight env nHeight qc.llmqType) qc blockHash

variable {qc : CFinalCommitment} {blockHash : Uint256}

theorem CommitmentDb.record_null (null : isNullCommitment qc = true) : db.record env nHeight blockHash qc = db := by
  unfold record
  rw [if_pos null]

theorem CommitmentDb.record_mined (notNull : ¬ isNullCommitment qc = true)
    (params_eq : env.llmqs.lookup qc.llmqType = some params) :
    db.record env nHeight blockHash qc =
      db.write qc.llmqType qc.quorumHash nHeight (quorumStartHeight params nHeight) qc blockHash := by
  unfold record
  rw [if_neg notNull, sessionHeight_eq env nHeight params_eq]

@[spec]
theorem mineCommitment_spec (db₀ db : CommitmentDb) (params : Consensus.LLMQParams)
    (quorumHash blockHash : Uint256) (qc : CFinalCommitment)
    (same : db.minedCommitment (params.type, quorumHash) =
      db₀.minedCommitment (params.type, quorumHash)) :
    ⦃fun s => ⌜s.Tracks db₀ ∧ s.db = db⌝⦄ mineCommitment env nHeight params quorumHash blockHash qc
    ⦃post⟨fun _ s => ⌜s.Tracks db₀ ∧ s.db = db.write params.type quorumHash nHeight
        (quorumStartHeight params nHeight) qc blockHash⌝,
      fun _ s => ⌜s.Tracks db₀⌝⟩⦄ := by
  mvcgen [mineCommitment, paramsAt, rejectIf]
  case vc8 s h _ _ _ _ _ t =>
    obtain ⟨tracks, rfl, -⟩ := h
    refine ⟨tracks.cache_none ?_, rfl⟩
    intro key other
    exact Function.update_of_ne other _ _
  all_goals grind

@[spec]
theorem processCommitment_spec (db₀ db : CommitmentDb) (blockHash : Uint256) (qc : CFinalCommitment)
    (keyed : ∀ params, env.llmqs.lookup qc.llmqType = some params → params.type = qc.llmqType) :
    ⦃fun s => ⌜s.db = db ∧ s.Tracks db₀ ∧ ∀ hash, db.minedCommitment (qc.llmqType, hash) =
        db₀.minedCommitment (qc.llmqType, hash)⌝⦄
    processCommitment env chain nHeight blockHash qc
    ⦃post⟨fun _ s => ⌜s.Tracks db₀ ∧ s.db = db.record env nHeight blockHash qc ∧
        ∃ params, Admitted env chain nHeight qc params⌝,
      fun _ s => ⌜s.Tracks db₀⌝⟩⦄ := by
  mvcgen [processCommitment, paramsAt, rejectIf]
  case vc5 h params params_eq quorumHash known named null _ =>
    refine ⟨h.2.1, ?_, params, params_eq, known, (not_not.mp named).symm⟩
    rw [CommitmentDb.record_null env nHeight null]
    exact h.1
  case vc7.same h params params_eq quorumHash _ _ _ =>
    rw [keyed params params_eq]
    exact h.2.2 quorumHash
  case vc9 params params_eq quorumHash known named notNull _ s =>
    intro tracks hdb
    refine ⟨tracks, ?_, params, params_eq, known, (not_not.mp named).symm⟩
    rw [CommitmentDb.record_mined env nHeight notNull params_eq, ← keyed params params_eq,
      ← not_not.mp named]
    exact hdb
  all_goals grind

theorem CommitmentDb.foldl_record_of_ne (blockHash : Uint256)
    (other : ∀ qc ∈ qcs, qc.llmqType ≠ type) (db : CommitmentDb) (hash : Uint256) :
    (qcs.foldl (CommitmentDb.record env nHeight blockHash) db).minedCommitment (type, hash) =
      db.minedCommitment (type, hash) := by
  induction qcs generalizing db with
  | nil => rfl
  | cons qc qcs ih =>
    rw [List.foldl_cons, ih fun qc' hmem => other qc' (List.mem_cons_of_mem _ hmem)]
    unfold record
    split
    · rfl
    · refine Function.update_of_ne ?_ _ _
      intro heq
      exact other qc List.mem_cons_self (congrArg Prod.fst heq).symm

@[spec]
theorem processCommitments_spec (db : CommitmentDb) (blockHash : Uint256)
    (qcs : List CFinalCommitment) (distinct : (qcs.map CFinalCommitment.llmqType).Nodup)
    (keyed : ∀ type params, env.llmqs.lookup type = some params → params.type = type) :
    ⦃fun s => ⌜s.Tracks db ∧ s.db = db⌝⦄ processCommitments env chain nHeight blockHash qcs
    ⦃post⟨fun _ s => ⌜s.Tracks db ∧
        s.db = qcs.foldl (CommitmentDb.record env nHeight blockHash) db ∧
        (∀ entry ∈ env.llmqs, (∃ qc ∈ qcs, qc.llmqType = entry.1) ↔
          Required chain nHeight db entry) ∧
        ∀ qc ∈ qcs, ∃ params, Admitted env chain nHeight qc params⌝,
      fun _ s => ⌜s.Tracks db⌝⟩⦄ := by
  mvcgen [processCommitments]
  invariants
  · post⟨fun ⟨entries, _⟩ s => ⌜s.Tracks db ∧ s.db = db ∧ ∀ entry ∈ entries.1,
        (∃ qc ∈ qcs, qc.llmqType = entry.1) ↔ Required chain nHeight db entry⌝,
      fun _ s => ⌜s.Tracks db⌝⟩
  · post⟨fun ⟨done, _⟩ s => ⌜s.Tracks db ∧
        s.db = done.1.foldl (CommitmentDb.record env nHeight blockHash) db ∧
        (∀ entry ∈ env.llmqs, (∃ qc ∈ qcs, qc.llmqType = entry.1) ↔
          Required chain nHeight db entry) ∧
        ∀ qc ∈ done.1, ∃ params, Admitted env chain nHeight qc params⌝,
      fun _ s => ⌜s.Tracks db⌝⟩
  case vc3 h _ _ checked =>
    refine ⟨checked.1, checked.2.1, ?_⟩
    intro entry hentry
    obtain hentry | hentry := List.mem_append.mp hentry
    · exact h.2.2 entry hentry
    · rw [List.mem_singleton.mp hentry]
      exact checked.2.2
  case vc7.keyed cur _ _ _ _ _ => exact keyed cur.llmqType
  case vc8 done cur rest split _ s h =>
    refine ⟨trivial, h.1, ?_⟩
    intro hash
    rw [h.2.1]
    refine CommitmentDb.foldl_record_of_ne env nHeight blockHash ?_ db hash
    intro qc hqc heq
    rw [split, List.map_append, List.map_cons] at distinct
    exact (List.nodup_append.mp distinct).2.2 _ (List.mem_map_of_mem hqc) _
      List.mem_cons_self heq
  case vc9 h _ s admitted =>
    refine ⟨admitted.1, ?_, h.2.2.1, ?_⟩
    · rw [List.foldl_concat, ← h.2.1]
      exact admitted.2.1
    · intro qc hqc
      obtain hqc | hqc := List.mem_append.mp hqc
      · exact h.2.2.2 qc hqc
      · rw [List.mem_singleton.mp hqc]
        exact admitted.2.2
  all_goals grind

/-- What is known of a block that `ProcessBlock` accepts over the database `db`, and of the database
it leaves. -/
structure Processed (db db' : CommitmentDb) (block : ConnectedBlock)
    (qcs : List CFinalCommitment) : Prop where
  qcs_eq : getCommitmentsFromBlock env block = .ok qcs
  recorded : db' = qcs.foldl (CommitmentDb.record env nHeight block.hash) db
  required : ∀ entry ∈ env.llmqs,
    (∃ qc ∈ qcs, qc.llmqType = entry.1) ↔ Required chain nHeight db entry
  admitted : ∀ qc ∈ qcs, ∃ params, Admitted env chain nHeight qc params

theorem processBlock_spec (db : CommitmentDb) (block : ConnectedBlock)
    (enabled : env.dip0003Enabled = true)
    (keyed : ∀ type params, env.llmqs.lookup type = some params → params.type = type) :
    ⦃fun s => ⌜s.Tracks db ∧ s.db = db⌝⦄ processBlock env chain nHeight block
    ⦃post⟨fun _ s => ⌜s.Tracks db ∧ ∃ qcs, Processed env chain nHeight db s.db block qcs⌝,
      fun _ s => ⌜s.Tracks db⌝⟩⦄ := by
  mvcgen [processBlock]
  case vc3 qcs qcs_eq _ _ _ _ =>
    intro tracks recorded required admitted
    exact ⟨tracks, qcs, qcs_eq, recorded, required, admitted⟩
  case vc4 qcs_eq => exact fun _ _ _ => (getCommitmentsFromBlock_ok qcs_eq).2
  case vc5 => exact fun _ _ _ => keyed
  all_goals grind

theorem processBlock_run {s' : ProcessorStore} {r : Except Fault Unit}
    (enabled : env.dip0003Enabled = true)
    (keyed : ∀ type params, env.llmqs.lookup type = some params → params.type = type)
    (coherent : s.Tracks s.db) (run : (processBlock env chain nHeight block).run.run s = (r, s')) :
    s'.Tracks s.db ∧
      (r = .ok () → ∃ qcs, Processed env chain nHeight s.db s'.db block qcs) := by
  have spec := processBlock_spec env chain nHeight s.db block enabled keyed
  cases r with
  | error fault => exact ⟨Outcome.error spec ⟨coherent, rfl⟩ run, fun h => by cases h⟩
  | ok _ =>
    obtain ⟨tracks, processed⟩ := Outcome.ok spec ⟨coherent, rfl⟩ run
    exact ⟨tracks, fun _ => processed⟩

end

end ButCore.Llmq.BlockProcessor
