import ButCore.Lib.Overlay
import ButCore.Lib.Table
import ButCore.Llmq.Sessions

/-!
# The database of mined commitments follows the chain

Runs of `ProcessBlock` and `UndoBlock`.
-/
namespace ButCore.Llmq.BlockProcessor

open ActiveChain ButCore.Evo Overlay

/-! ### Runs -/

structure State where
  chain : ActiveChain
  store : ProcessorStore

/-- A block may pass `ProcessBlock` and not be connected: it fails later, or is only checked. -/
inductive Call where
  | processBlock (block : ConnectedBlock) (accepted : Bool)
  | undoBlock
  | hasMinedCommitment (key : QuorumKey)
  | restart

/-- A transaction that is not committed leaves the database as it was, and the cache as it is. -/
def ProcessorStore.rollback (s s' : ProcessorStore) : ProcessorStore := { s' with db := s.db }

def connect (env : ProcessorEnv) (s : State) (block : ConnectedBlock) (accepted : Bool) : State :=
  match (processBlock env s.chain s.chain.length block).run.run s.store with
  | (.ok _, store) =>
    if accepted then ⟨block :: s.chain, store⟩ else ⟨s.chain, s.store.rollback store⟩
  | (.error _, store) => ⟨s.chain, s.store.rollback store⟩

def disconnect (env : ProcessorEnv) (s : State) : State :=
  match s.chain with
  | block :: pprev :: rest =>
    match undoBlock env (rest.length + 1) block s.store with
    | .ok store => ⟨pprev :: rest, store⟩
    | .error _ => s
  | _ => s

def step (env : ProcessorEnv) (s : State) : Call → State
  | .processBlock block accepted => connect env s block accepted
  | .undoBlock => disconnect env s
  | .hasMinedCommitment key => { s with store := ((hasMinedCommitment key).run.run s.store).2 }
  | .restart => { s with store := ⟨s.store.db, fun _ => none⟩ }

def initial (env : ProcessorEnv) : State := ⟨[env.genesis], ⟨.empty, fun _ => none⟩⟩

def run (env : ProcessorEnv) (calls : List Call) : State := Steps.run (step env) (initial env) calls

/-- The calls follow the active chain: the hash of a block is the key of its index, so it is not null
and not that of another block of the chain. -/
def FollowsChain (s : State) : Call → Prop
  | .processBlock block _ => block.hash ≠ 0 ∧ block.hash ∉ s.chain.map ConnectedBlock.hash
  | _ => True

/-! ### Writing and erasing the commitments of a block -/

section

variable (env : ProcessorEnv) (nHeight : ℤ) (blockHash : Uint256)

theorem foldl_record (qcs : List CFinalCommitment) (db : CommitmentDb) :
    (qcs.foldl (CommitmentDb.record env nHeight blockHash) db).minedCommitment =
        Table.putAll quorumKey (·, blockHash) (mined qcs) db.minedCommitment ∧
      (qcs.foldl (CommitmentDb.record env nHeight blockHash) db).quorumHeight =
        Table.putAll (fun qc => (qc.llmqType, nHeight))
          (fun qc => sessionHeight env nHeight qc.llmqType) (mined qcs) db.quorumHeight := by
  induction qcs generalizing db with
  | nil => exact ⟨rfl, rfl⟩
  | cons qc qcs ih =>
    rw [List.foldl_cons, (ih _).1, (ih _).2]
    unfold CommitmentDb.record mined
    cases null : isNullCommitment qc with
    | true => simp [null]
    | false =>
      rw [if_neg (by simp), List.filter_cons_of_pos (by simp [null])]
      exact ⟨rfl, rfl⟩

theorem foldl_undo (qcs : List CFinalCommitment) (s : ProcessorStore) :
    (qcs.foldl (ProcessorStore.undo nHeight) s).db.minedCommitment =
        Table.eraseAll quorumKey (mined qcs) s.db.minedCommitment ∧
      (qcs.foldl (ProcessorStore.undo nHeight) s).db.quorumHeight =
        Table.eraseAll (fun qc => (qc.llmqType, nHeight)) (mined qcs) s.db.quorumHeight := by
  induction qcs generalizing s with
  | nil => exact ⟨rfl, rfl⟩
  | cons qc qcs ih =>
    rw [List.foldl_cons, (ih _).1, (ih _).2]
    unfold ProcessorStore.undo mined
    cases null : isNullCommitment qc with
    | true => simp [null]
    | false =>
      rw [if_neg (by simp), List.filter_cons_of_pos (by simp [null])]
      exact ⟨rfl, rfl⟩

theorem foldl_undo_coherent (qcs : List CFinalCommitment) {s : ProcessorStore}
    (coherent : s.Tracks s.db) :
    (qcs.foldl (ProcessorStore.undo nHeight) s).Tracks
      (qcs.foldl (ProcessorStore.undo nHeight) s).db := by
  induction qcs generalizing s with
  | nil => exact coherent
  | cons qc qcs ih =>
    rw [List.foldl_cons]
    refine ih ?_
    unfold ProcessorStore.undo
    split
    · exact coherent
    · intro key cached hcached
      refine ⟨rfl, ?_⟩
      by_cases hkey : key = quorumKey qc
      · subst hkey
        simp at hcached
      · simp only [Function.update_of_ne hkey] at hcached
        have : (s.db.erase qc.llmqType qc.quorumHash nHeight).minedCommitment key =
            s.db.minedCommitment key := Function.update_of_ne hkey _ _
        rw [this]
        exact (coherent key cached hcached).2

end

/-! ### The store and the chain -/

structure Stored (env : ProcessorEnv) (chain : ActiveChain) (db : CommitmentDb) : Prop where
  minedCommitment : ∀ key entry, db.minedCommitment key = some entry ↔
    ∃ h b qc, MinedAt chain h b qc ∧ quorumKey qc = key ∧ entry = (qc, b.hash)
  quorumHeight : ∀ type nHeight start, db.quorumHeight (type, nHeight) = some start ↔
    ∃ (h : ℕ) (b : ConnectedBlock) (qc : CFinalCommitment), MinedAt chain h b qc ∧
      nHeight = h ∧ qc.llmqType = type ∧ start = sessionHeight env h type

/-- The condition on the parameters: every entry is kept under its own type, and the first block of a
session is not in its mining window. -/
structure ParamsFit (env : ProcessorEnv) : Prop where
  enabled : env.dip0003Enabled = true
  keyed : ∀ entry ∈ env.llmqs, entry.2.type = entry.1
  window : ∀ entry ∈ env.llmqs, 0 < entry.2.dkgMiningWindowStart

structure Agrees (env : ProcessorEnv) (s : State) : Prop where
  nonempty : s.chain ≠ []
  distinct : (s.chain.map ConnectedBlock.hash).Nodup
  notNull : ∀ b ∈ s.chain, b.hash ≠ 0
  known : ∀ h b, s.chain.atHeight h = some b → ∀ qc ∈ blockCommitments b,
    ∃ params, (qc.llmqType, params) ∈ env.llmqs
  sessions : ∀ entry ∈ env.llmqs, ∀ h b, s.chain.atHeight h = some b →
    SessionRule s.chain h b entry.1 entry.2
  stored : Stored env s.chain s.store.db
  coherent : s.store.Tracks s.store.db

variable {qcs : List CFinalCommitment} {block : ConnectedBlock} {type : LLMQType}

theorem typedCommitments_length (perm : qcs.Perm (blockCommitments block))
    (distinct : (qcs.map CFinalCommitment.llmqType).Nodup)
    (present : ∃ qc ∈ qcs, qc.llmqType = type) :
    (typedCommitments block type).length = 1 := by
  unfold typedCommitments
  rw [← (perm.filter _).length_eq, ← List.countP_eq_length_filter]
  have count := List.count_eq_one_of_mem distinct (List.mem_map.mpr present)
  rw [List.count, List.countP_map] at count
  rw [← count]
  refine List.countP_congr ?_
  intro qc _
  simp

theorem typedCommitments_eq_nil (perm : qcs.Perm (blockCommitments block))
    (absent : ¬ ∃ qc ∈ qcs, qc.llmqType = type) : typedCommitments block type = [] := by
  refine List.filter_eq_nil_iff.mpr ?_
  intro qc hqc htype
  exact absent ⟨qc, perm.mem_iff.mpr hqc, by simpa using htype⟩

theorem blockCommitments_genesis (env : ProcessorEnv) : blockCommitments env.genesis = [] := by
  refine List.filterMap_eq_nil_iff.mpr ?_
  intro tx htx
  unfold commitmentOf
  rw [if_neg (env.genesis_plain tx htx)]

variable {qc : CFinalCommitment} {b : ConnectedBlock} {h : ℕ}

theorem not_minedAt_genesis (env : ProcessorEnv) : ¬ MinedAt [env.genesis] h b qc := by
  intro mined
  have mem := mined.mem
  rw [List.mem_singleton.mp (mem_of_atHeight mined.block), blockCommitments_genesis] at mem
  exact List.not_mem_nil mem

theorem getQuorumBlockHash_natCast (chain : ActiveChain) (h : ℕ) (params : Consensus.LLMQParams) :
    getQuorumBlockHash chain h params =
      match chain.atHeight (sessionStart params h) with
      | none => 0
      | some block => block.hash := by
  have named : chain.at? (quorumStartHeight params h) = chain.atHeight (sessionStart params h) := by
    rw [quorumStartHeight_natCast, at?_natCast]
  unfold getQuorumBlockHash
  cases found : chain.atHeight (sessionStart params h) <;> rw [named, found]

namespace Agrees

variable {env : ProcessorEnv} {s : State}
variable {params : Consensus.LLMQParams}

theorem names (agrees : Agrees env s) (entry : (qc.llmqType, params) ∈ env.llmqs)
    (mined : MinedAt s.chain h b qc) :
    ∃ first, s.chain.atHeight (sessionStart params h) = some first ∧ qc.quorumHash = first.hash := by
  refine (agrees.sessions _ entry h b mined.block).names qc ?_
  exact List.mem_filter.mpr ⟨mined.mem, by simp⟩

theorem not_minedBefore (agrees : Agrees env s) (entry : (qc.llmqType, params) ∈ env.llmqs)
    (mined : MinedAt s.chain h b qc) : ¬ MinedBefore s.chain qc.llmqType params h := by
  intro before
  have empty := (agrees.sessions _ entry h b mined.block).afterwards before
  have mem : qc ∈ typedCommitments b qc.llmqType := List.mem_filter.mpr ⟨mined.mem, by simp⟩
  rw [empty] at mem
  exact absurd mem List.not_mem_nil

variable {qc' : CFinalCommitment} {b' : ConnectedBlock} {h' : ℕ}

theorem height_le (agrees : Agrees env s) (mined : MinedAt s.chain h b qc)
    (mined' : MinedAt s.chain h' b' qc') (key : quorumKey qc = quorumKey qc') : h' ≤ h := by
  obtain ⟨htype, hhash⟩ := Prod.mk.inj key
  obtain ⟨params, entry⟩ := agrees.known h b mined.block qc mined.mem
  have entry' : (qc'.llmqType, params) ∈ env.llmqs := htype ▸ entry
  obtain ⟨first, hfirst, hname⟩ := agrees.names entry mined
  obtain ⟨first', hfirst', hname'⟩ := agrees.names entry' mined'
  have hsame : first.hash = first'.hash := hname.symm.trans (hhash.trans hname')
  have start := atHeight_inj agrees.distinct hfirst hfirst' hsame
  by_contra hlt
  refine agrees.not_minedBefore entry' mined' ⟨h, b, qc, ?_, not_le.mp hlt, mined, htype⟩
  rw [← start]
  exact sessionStart_le params h

theorem typed_of_minedAt (agrees : Agrees env s) (mined : MinedAt s.chain h b qc) : ∃ params, (qc.llmqType, params) ∈ env.llmqs ∧
      Consensus.isMiningPhase params h = true ∧ (typedCommitments b qc.llmqType).length = 1 := by
  obtain ⟨params, entry⟩ := agrees.known h b mined.block qc mined.mem
  have rule := agrees.sessions _ entry h b mined.block
  have mem : qc ∈ typedCommitments b qc.llmqType := List.mem_filter.mpr ⟨mined.mem, by simp⟩
  have phase : Consensus.isMiningPhase params h = true := by
    by_contra outside
    rw [rule.outside (by simpa using outside)] at mem
    exact absurd mem List.not_mem_nil
  exact ⟨params, entry, phase, rule.once phase (agrees.not_minedBefore entry mined)⟩

theorem unique (agrees : Agrees env s) (mined : MinedAt s.chain h b qc)
    (mined' : MinedAt s.chain h' b' qc') (key : quorumKey qc = quorumKey qc') : h = h' ∧ qc = qc' := by
  have heights : h = h' :=
    le_antisymm (agrees.height_le mined' mined key.symm) (agrees.height_le mined mined' key)
  subst heights
  refine ⟨rfl, ?_⟩
  obtain rfl := Option.some.inj (mined.block.symm.trans mined'.block)
  obtain ⟨htype, -⟩ := Prod.mk.inj key
  have mem : qc ∈ typedCommitments b qc.llmqType := List.mem_filter.mpr ⟨mined.mem, by simp⟩
  have mem' : qc' ∈ typedCommitments b qc.llmqType :=
    List.mem_filter.mpr ⟨mined'.mem, by simp [htype]⟩
  obtain ⟨_, -, -, one⟩ := agrees.typed_of_minedAt mined
  obtain ⟨only, honly⟩ := List.length_eq_one_iff.mp one
  rw [honly, List.mem_singleton] at mem mem'
  rw [mem, mem']

theorem sessionRules (agrees : Agrees env s) : SessionRules env.llmqs s.chain :=
  ⟨agrees.sessions, fun _ _ _ _ _ _ mined mined' key => agrees.unique mined mined' key⟩

variable {entry : LLMQType × Consensus.LLMQParams}

theorem required_iff (fit : ParamsFit env) (agrees : Agrees env s) (hentry : entry ∈ env.llmqs) :
    Required s.chain s.chain.length s.store.db entry ↔
      Consensus.isMiningPhase entry.2 s.chain.length = true ∧
        ¬ MinedBefore s.chain entry.1 entry.2 s.chain.length := by
  obtain ⟨type, params⟩ := entry
  -- in the mining window the session's first block is below
  have firstBlock (phase : Consensus.isMiningPhase params s.chain.length = true) :
      ∃ first, s.chain.atHeight (sessionStart params s.chain.length) = some first := by
    refine atHeight_of_lt ?_
    have window : 0 < params.dkgMiningWindowStart := fit.window _ hentry
    have := ((isMiningPhase_natCast params s.chain.length).mp phase).1
    have := Nat.mod_le s.chain.length params.dkgInterval
    unfold sessionStart
    omega
  unfold Required
  rw [getQuorumBlockHash_natCast]
  constructor
  · intro ⟨_, phase, fresh⟩
    refine ⟨phase, ?_⟩
    intro ⟨j, b, qc, lower, upper, mined, htype⟩
    obtain ⟨first, hfirst⟩ := firstBlock phase
    have hentry' : (qc.llmqType, params) ∈ env.llmqs := htype ▸ hentry
    obtain ⟨first', hfirst', hname⟩ := agrees.names hentry' mined
    rw [sessionStart_eq params lower upper.le, hfirst] at hfirst'
    obtain rfl := Option.some.inj hfirst'
    rw [hfirst] at fresh
    have present := (agrees.stored.minedCommitment (type, first.hash) (qc, b.hash)).mpr
      ⟨j, b, qc, mined, by rw [quorumKey, htype, hname], rfl⟩
    rw [fresh] at present
    cases present
  · intro ⟨phase, notBefore⟩
    obtain ⟨first, hfirst⟩ := firstBlock phase
    rw [hfirst]
    refine ⟨agrees.notNull first (mem_of_atHeight hfirst), phase, ?_⟩
    cases found : s.store.db.minedCommitment (type, first.hash) with
    | none => rfl
    | some entry =>
      obtain ⟨j, b, qc, mined, key, -⟩ := (agrees.stored.minedCommitment _ _).mp found
      obtain ⟨htype, hhash⟩ := Prod.mk.inj key
      have hentry' : (qc.llmqType, params) ∈ env.llmqs := htype ▸ hentry
      obtain ⟨first', hfirst', hname⟩ := agrees.names hentry' mined
      have start := atHeight_inj agrees.distinct hfirst hfirst' (hhash.symm.trans hname)
      refine absurd ⟨j, b, qc, ?_, atHeight_lt mined.block, mined, htype⟩ notBefore
      rw [start]
      exact sessionStart_le params j

variable {db' : CommitmentDb}

theorem sessionRule_of_processed (fit : ParamsFit env) (agrees : Agrees env s)
    (processed : Processed env s.chain s.chain.length s.store.db db' block qcs)
    (hentry : entry ∈ env.llmqs) :
    SessionRule (block :: s.chain) s.chain.length block entry.1 entry.2 := by
  obtain ⟨perm, distinct⟩ := getCommitmentsFromBlock_ok processed.qcs_eq
  have required := (processed.required entry hentry).trans (agrees.required_iff fit hentry)
  have before : MinedBefore (block :: s.chain) entry.1 entry.2 s.chain.length ↔
      MinedBefore s.chain entry.1 entry.2 s.chain.length := minedBefore_cons le_rfl
  refine ⟨?_, ?_, ?_, ?_⟩
  · intro phase notBefore
    exact typedCommitments_length perm distinct (required.mpr ⟨phase, mt before.mpr notBefore⟩)
  · intro minedBefore
    refine typedCommitments_eq_nil perm ?_
    exact fun present => (required.mp present).2 (before.mp minedBefore)
  · intro outside
    refine typedCommitments_eq_nil perm ?_
    intro present
    rw [(required.mp present).1] at outside
    cases outside
  · intro qc hqc
    obtain ⟨hmem, htype⟩ := List.mem_filter.mp hqc
    obtain ⟨params, admitted⟩ := processed.admitted qc (perm.mem_iff.mpr hmem)
    have hparams : params = entry.2 := by
      have hlookup := (lookup_eq_some_iff env.sorted).mpr (show (entry.1, entry.2) ∈ _ from hentry)
      rw [← of_decide_eq_true htype, admitted.params_eq] at hlookup
      exact Option.some.inj hlookup
    subst hparams
    have hname := admitted.quorumHash_eq
    have hknown := admitted.known
    rw [getQuorumBlockHash_natCast] at hname hknown
    cases hfirst : s.chain.atHeight (sessionStart entry.2 s.chain.length) with
    | none =>
      rw [hfirst] at hknown
      exact absurd rfl hknown
    | some first =>
      rw [hfirst] at hname
      exact ⟨first, (atHeight_cons_of_lt block (atHeight_lt hfirst)).trans hfirst, hname⟩

theorem fresh_of_processed (agrees : Agrees env s)
    (processed : Processed env s.chain s.chain.length s.store.db db' block qcs) (hqc : qc ∈ qcs) :
    s.store.db.minedCommitment (quorumKey qc) = none ∧
      s.store.db.quorumHeight (qc.llmqType, s.chain.length) = none := by
  obtain ⟨params, admitted⟩ := processed.admitted qc hqc
  have hentry := (lookup_eq_some_iff env.sorted).mp admitted.params_eq
  constructor
  · have required := (processed.required _ hentry).mp ⟨qc, hqc, rfl⟩
    rw [quorumKey, admitted.quorumHash_eq]
    exact required.2.2
  · cases found : s.store.db.quorumHeight (qc.llmqType, s.chain.length) with
    | none => rfl
    | some start =>
      obtain ⟨h, b, qc', mined, height, -⟩ := (agrees.stored.quorumHeight _ _ _).mp found
      have := atHeight_lt mined.block
      omega

theorem stored_of_processed (agrees : Agrees env s)
    (processed : Processed env s.chain s.chain.length s.store.db db' block qcs) :
    Stored env (block :: s.chain) db' := by
  obtain ⟨perm, distinct⟩ := getCommitmentsFromBlock_ok processed.qcs_eq
  have distinctMined : ((mined qcs).map CFinalCommitment.llmqType).Nodup :=
    distinct.sublist (List.filter_sublist.map _)
  have fresh (qc : CFinalCommitment) (hqc : qc ∈ mined qcs) :=
    agrees.fresh_of_processed processed (mem_mined.mp hqc).1
  obtain ⟨byKey, byHeight⟩ := foldl_record env s.chain.length block.hash qcs s.store.db
  rw [← processed.recorded] at byKey byHeight
  constructor
  · intro key entry
    have distinctKeys : ((mined qcs).map quorumKey).Nodup := by
      refine List.Nodup.of_map Prod.fst ?_
      rw [List.map_map]
      exact distinctMined
    rw [byKey, Table.putAll_eq_some (fun qc hqc => (fresh qc hqc).1) distinctKeys,
      agrees.stored.minedCommitment key entry, exists_minedAt_cons]
    simp only [mem_mined, perm.mem_iff, eq_comm]
  · intro type nHeight start
    have distinctKeys : ((mined qcs).map fun qc =>
        (qc.llmqType, (s.chain.length : ℤ))).Nodup := by
      refine List.Nodup.of_map Prod.fst ?_
      rw [List.map_map]
      exact distinctMined
    rw [byHeight, Table.putAll_eq_some (fun qc hqc => (fresh qc hqc).2) distinctKeys,
      agrees.stored.quorumHeight type nHeight start, exists_minedAt_cons]
    simp only [mem_mined, perm.mem_iff]
    grind

variable {store : ProcessorStore}

theorem rollback (agrees : Agrees env s) (tracks : store.Tracks s.store.db) :
    Agrees env ⟨s.chain, s.store.rollback store⟩ :=
  { agrees with
    stored := agrees.stored
    coherent := fun key cached hcached => ⟨rfl, (tracks key cached hcached).2⟩ }

theorem accept (fit : ParamsFit env) (agrees : Agrees env s) (hash_ne : block.hash ≠ 0)
    (hash_new : block.hash ∉ s.chain.map ConnectedBlock.hash) (tracks : store.Tracks s.store.db)
    (processed : Processed env s.chain s.chain.length s.store.db store.db block qcs) :
    Agrees env ⟨block :: s.chain, store⟩ where
  nonempty := List.cons_ne_nil _ _
  distinct := List.nodup_cons.mpr ⟨hash_new, agrees.distinct⟩
  notNull := List.forall_mem_cons.mpr ⟨hash_ne, agrees.notNull⟩
  known := by
    intro h b hb qc hqc
    obtain ⟨-, rfl⟩ | ⟨-, hb⟩ := atHeight_cons_cases hb
    · obtain ⟨perm, -⟩ := getCommitmentsFromBlock_ok processed.qcs_eq
      obtain ⟨params, admitted⟩ := processed.admitted qc (perm.mem_iff.mpr hqc)
      exact ⟨params, (lookup_eq_some_iff env.sorted).mp admitted.params_eq⟩
    · exact agrees.known h b hb qc hqc
  sessions := by
    intro entry hentry h b hb
    obtain ⟨rfl, rfl⟩ | ⟨hlt, hb⟩ := atHeight_cons_cases hb
    · exact agrees.sessionRule_of_processed fit processed hentry
    · exact (sessionRule_cons hlt).mpr (agrees.sessions entry hentry h b hb)
  stored := agrees.stored_of_processed processed
  coherent := by
    intro key cached hcached
    obtain ⟨same, answer⟩ := tracks key cached hcached
    refine ⟨rfl, ?_⟩
    rw [same]
    exact answer

theorem keyed_lookup (fit : ParamsFit env) (type : LLMQType) (params : Consensus.LLMQParams)
    (found : env.llmqs.lookup type = some params) : params.type = type :=
  fit.keyed _ ((lookup_eq_some_iff env.sorted).mp found)

theorem connect (fit : ParamsFit env) (agrees : Agrees env s) {accepted : Bool}
    (follows : FollowsChain s (.processBlock block accepted)) :
    Agrees env (connect env s block accepted) := by
  unfold BlockProcessor.connect
  split
  · next hrun =>
      obtain ⟨tracks, processed⟩ := processBlock_run env s.chain s.chain.length fit.enabled
        (keyed_lookup fit) agrees.coherent hrun
      obtain ⟨qcs, processed⟩ := processed rfl
      split
      · exact agrees.accept fit follows.1 follows.2 tracks processed
      · exact agrees.rollback tracks
  · next hrun =>
      exact agrees.rollback (processBlock_run env s.chain s.chain.length fit.enabled
        (keyed_lookup fit) agrees.coherent hrun).1

section

variable {block : ConnectedBlock} {below : ActiveChain} {store : ProcessorStore}

theorem quorumKey_ne (agrees : Agrees env ⟨block :: below, store⟩)
    (top : qc ∈ mined (blockCommitments block)) (minedBelow : MinedAt below h b qc') : quorumKey qc ≠ quorumKey qc' := by
  intro key
  obtain ⟨mem, notNull⟩ := mem_mined.mp top
  have minedTop : MinedAt (block :: below) below.length block qc :=
    minedAt_cons.mpr (.inl ⟨rfl, rfl, mem, notNull⟩)
  obtain ⟨heights, -⟩ := agrees.unique minedTop (minedAt_cons.mpr (.inr minedBelow)) key
  exact absurd (atHeight_lt minedBelow.block) (heights ▸ lt_irrefl _)

theorem stored_undo (agrees : Agrees env ⟨block :: below, store⟩)
    (perm : qcs.Perm (blockCommitments block)) :
    Stored env below (qcs.foldl (ProcessorStore.undo below.length) store).db := by
  obtain ⟨byKey, byHeight⟩ := foldl_undo below.length qcs store
  have memMined (qc : CFinalCommitment) : qc ∈ mined qcs ↔ qc ∈ mined (blockCommitments block) := by
    rw [mem_mined, mem_mined, perm.mem_iff]
  constructor
  · intro key entry
    rw [byKey, Table.eraseAll_eq_some, agrees.stored.minedCommitment key entry, exists_minedAt_cons]
    constructor
    · intro ⟨mined, erased⟩
      obtain ⟨qc, top, hkey, -⟩ | mined := mined
      · exact absurd hkey (erased qc ((memMined qc).mpr top))
      · exact mined
    · intro ⟨h, b, qc, mined, hkey, hentry⟩
      refine ⟨.inr ⟨h, b, qc, mined, hkey, hentry⟩, ?_⟩
      intro qc' top
      rw [← hkey]
      exact agrees.quorumKey_ne ((memMined qc').mp top) mined
  · intro type nHeight start
    rw [byHeight, Table.eraseAll_eq_some, agrees.stored.quorumHeight type nHeight start,
      exists_minedAt_cons]
    constructor
    · intro ⟨mined, erased⟩
      obtain ⟨qc, top, hheight, htype, -⟩ | mined := mined
      · exact absurd (by rw [htype, hheight]) (erased qc ((memMined qc).mpr top))
      · exact mined
    · intro ⟨h, b, qc, mined, hheight, hrest⟩
      refine ⟨.inr ⟨h, b, qc, mined, hheight, hrest⟩, ?_⟩
      intro qc' _ heq
      have := (Prod.mk.inj heq).2
      have := atHeight_lt mined.block
      omega

theorem undo (agrees : Agrees env ⟨block :: below, store⟩) (nonempty : below ≠ [])
    (perm : qcs.Perm (blockCommitments block)) :
    Agrees env ⟨below, qcs.foldl (ProcessorStore.undo below.length) store⟩ where
  nonempty := nonempty
  distinct := (List.nodup_cons.mp agrees.distinct).2
  notNull := (List.forall_mem_cons.mp agrees.notNull).2
  known := by
    intro h b hb
    exact agrees.known h b ((atHeight_cons_of_lt block (atHeight_lt hb)).trans hb)
  sessions := by
    intro entry hentry h b hb
    have hlt := atHeight_lt hb
    refine (sessionRule_cons hlt).mp (agrees.sessions entry hentry h b ?_)
    exact (atHeight_cons_of_lt block hlt).trans hb
  stored := agrees.stored_undo perm
  coherent := foldl_undo_coherent below.length qcs agrees.coherent

end

theorem disconnect (agrees : Agrees env s) : Agrees env (disconnect env s) := by
  unfold BlockProcessor.disconnect
  split
  · next block pprev rest hchain =>
      split
      · next store hundo =>
          obtain ⟨qcs, hqcs, hstore⟩ := Checked.bind_eq_ok.mp hundo
          obtain rfl := Except.ok.inj hstore
          have agrees' : Agrees env ⟨block :: pprev :: rest, s.store⟩ := by
            rw [← hchain]
            exact agrees
          exact agrees'.undo (List.cons_ne_nil _ _) (getCommitmentsFromBlock_ok hqcs).1
      · exact agrees
  · exact agrees

theorem lookup (agrees : Agrees env s) (key : QuorumKey) :
    Agrees env (step env s (.hasMinedCommitment key)) := by
  have spec := hasMinedCommitment_spec s.store.db s.store.db key rfl
  change Agrees env ⟨s.chain, ((hasMinedCommitment key).run.run s.store).2⟩
  cases hrun : (hasMinedCommitment key).run.run s.store with
  | mk result store =>
    cases result with
    | error fault => exact (Outcome.error (hasMinedCommitment_total key) trivial hrun).elim
    | ok found =>
      obtain ⟨tracks, same, -⟩ := Outcome.ok spec ⟨agrees.coherent, rfl⟩ hrun
      obtain ⟨db, cache⟩ := store
      obtain rfl : db = s.store.db := same
      exact { agrees with stored := agrees.stored, coherent := tracks }

theorem step (fit : ParamsFit env) (s : State) (call : Call) (agrees : Agrees env s)
    (follows : FollowsChain s call) : Agrees env (step env s call) := by
  cases call with
  | processBlock block accepted => exact agrees.connect fit follows
  | undoBlock => exact agrees.disconnect
  | hasMinedCommitment key => exact agrees.lookup key
  | restart => exact { agrees with stored := agrees.stored, coherent := fun _ _ h => by cases h }

theorem initial (fit : ParamsFit env) : Agrees env (initial env) where
  nonempty := List.cons_ne_nil _ _
  distinct := List.nodup_singleton _
  notNull := List.forall_mem_singleton.mpr env.genesis_hash
  known := by
    intro h b hb qc hqc
    rw [List.mem_singleton.mp (mem_of_atHeight hb), blockCommitments_genesis] at hqc
    cases hqc
  sessions := by
    intro entry hentry h b hb
    have height : h = 0 := Nat.lt_one_iff.mp (atHeight_lt hb)
    rw [List.mem_singleton.mp (mem_of_atHeight hb), height]
    have empty : typedCommitments env.genesis entry.1 = [] := by
      unfold typedCommitments
      rw [blockCommitments_genesis]
      rfl
    refine ⟨?_, fun _ => empty, fun _ => empty, ?_⟩
    · intro phase
      have inWindow := ((isMiningPhase_natCast entry.2 0).mp phase).1
      rw [Nat.zero_mod] at inWindow
      exact absurd (fit.window entry hentry) (not_lt.mpr inWindow)
    · rw [empty]
      intro qc hqc
      cases hqc
  stored := by
    constructor
    · intro key entry
      refine iff_of_false (by simp [BlockProcessor.initial, CommitmentDb.empty]) ?_
      exact fun ⟨_, _, _, mined, _⟩ => not_minedAt_genesis env mined
    · intro type nHeight start
      refine iff_of_false (by simp [BlockProcessor.initial, CommitmentDb.empty]) ?_
      exact fun ⟨_, _, _, mined, _⟩ => not_minedAt_genesis env mined
  coherent := fun _ _ h => by cases h

end Agrees

/-- In every run that follows the chain the sessions are as they have to be. -/
theorem run_sessionRules (env : ProcessorEnv) (fit : ParamsFit env) (calls : List Call)
    (follows : Steps.Meets (step env) FollowsChain (initial env) calls) :
    SessionRules env.llmqs (run env calls).chain :=
  (Steps.run_inv (Agrees.step fit) (Agrees.initial fit) follows).sessionRules

/-! ### Two short runs -/

instance decidableFollowsChain (s : State) : ∀ call, Decidable (FollowsChain s call)
  | .processBlock _ _ => inferInstanceAs (Decidable (_ ∧ _))
  | .undoBlock => isTrue trivial
  | .hasMinedCommitment _ => isTrue trivial
  | .restart => isTrue trivial

deriving instance DecidableEq for ConnectedBlock

def toyGenesis : ConnectedBlock := ⟨1, []⟩

def toyCommitment (type : LLMQType) (size : ℕ) (signed : Bool) : CFinalCommitment :=
  ⟨1, type, 1, .replicate size signed, .replicate size signed, none, 0, none, none⟩

def toyBlock (hash : Uint256) (qcs : List CFinalCommitment) : ConnectedBlock :=
  ⟨hash, qcs.map fun qc =>
    ⟨hash, 3, .quorumCommitment, [], [], 0, .finalCommitment ⟨1, 0, qc⟩, 0⟩⟩

def toyCalls : List Call :=
  [2, 3, 4, 5, 6, 7, 8, 9, 10].map fun hash => .processBlock (toyBlock hash []) true

def toyMain : ProcessorEnv where
  llmqs := .main
  sorted := by decide
  dip0003Enabled := true
  verify _ _ := true
  genesis := toyGenesis
  genesis_hash := by decide
  genesis_plain := by decide

theorem run_sessionRules_main :
    (run toyMain (toyCalls ++ [.processBlock (toyBlock 11 [toyCommitment 1 3 false]) true,
        .processBlock (toyBlock 12 [toyCommitment 1 3 true]) true, .undoBlock,
        .processBlock (toyBlock 13 [toyCommitment 1 3 true]) true])).chain.length = 12 ∧
      SessionRules toyMain.llmqs
        (run toyMain (toyCalls ++ [.processBlock (toyBlock 11 [toyCommitment 1 3 false]) true,
          .processBlock (toyBlock 12 [toyCommitment 1 3 true]) true, .undoBlock,
          .processBlock (toyBlock 13 [toyCommitment 1 3 true]) true])).chain :=
  ⟨by decide +kernel, run_sessionRules toyMain ⟨rfl, by decide, by decide⟩ _ (by decide +kernel)⟩

/-- The regression test network keeps `llmq3_60`, whose type is `LLMQ_50_60`, under `LLMQ_5_60`. -/
def toyRegtest : ProcessorEnv := { toyMain with llmqs := .regtest, sorted := by decide }

def toyRegtestCalls : List Call :=
  toyCalls ++ [.processBlock (toyBlock 11 [toyCommitment 1 50 false, toyCommitment 100 3 true]) true,
    .processBlock (toyBlock 12 [toyCommitment 100 3 false]) true]

/-- The commitment of block 10 is written under the type of the parameters, so the session goes on:
block 11 has a commitment as well. -/
theorem run_not_sessionRules_regtest :
    Steps.Meets (step toyRegtest) FollowsChain (initial toyRegtest) toyRegtestCalls ∧
      ¬ SessionRules toyRegtest.llmqs (run toyRegtest toyRegtestCalls).chain := by
  refine ⟨by decide +kernel, ?_⟩
  intro rules
  have tip : (run toyRegtest toyRegtestCalls).chain.atHeight 11 =
      some (toyBlock 12 [toyCommitment 100 3 false]) := by decide +kernel
  have below : (run toyRegtest toyRegtestCalls).chain.atHeight 10 =
      some (toyBlock 11 [toyCommitment 1 50 false, toyCommitment 100 3 true]) := by decide +kernel
  have rule := rules.sessions (Consensus.LLMQ_5_60, Consensus.llmq3_60) (by decide) 11 _ tip
  have empty := rule.afterwards ⟨10, _, toyCommitment 100 3 true, by decide, by decide,
    ⟨below, by decide, by decide⟩, rfl⟩
  exact absurd empty (by decide)

/-- In every run that follows the chain the database holds exactly the commitments of the chain, and
the cache says nothing else. -/
theorem run_stored (env : ProcessorEnv) (fit : ParamsFit env) (calls : List Call)
    (follows : Steps.Meets (step env) FollowsChain (initial env) calls) :
    Stored env (run env calls).chain (run env calls).store.db ∧ ∀ key cached,
      (run env calls).store.hasMinedCommitmentCache key = some cached →
        (cached = true ↔ ∃ h b qc, MinedAt (run env calls).chain h b qc ∧ quorumKey qc = key) := by
  have agrees : Agrees env (run env calls) :=
    Steps.run_inv (Agrees.step fit) (Agrees.initial fit) follows
  refine ⟨agrees.stored, fun key cached hit => ?_⟩
  rw [(agrees.coherent key cached hit).2, Option.isSome_iff_exists]
  simp only [agrees.stored.minedCommitment]
  exact ⟨fun ⟨_, h, b, qc, mined, same, _⟩ => ⟨h, b, qc, mined, same⟩,
    fun ⟨h, b, qc, mined, same⟩ => ⟨_, h, b, qc, mined, same, rfl⟩⟩

theorem run_stored_main :
    let s := run toyMain (toyCalls ++ [.processBlock (toyBlock 11 [toyCommitment 1 3 true]) true])
    s.store.db.minedCommitment (1, 1) ≠ none ∧ Stored toyMain s.chain s.store.db :=
  ⟨by decide +kernel, (run_stored toyMain ⟨rfl, by decide, by decide⟩ _ (by decide +kernel)).1⟩

end ButCore.Llmq.BlockProcessor
