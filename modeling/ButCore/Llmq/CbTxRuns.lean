import ButCore.Llmq.CbTxQuorums

/-!
# The root of the active quorums over runs

Blocks are connected, disconnected and assembled, and the static maps stay.
-/
namespace ButCore.Llmq.CbTxQuorums

open ActiveChain BlockProcessor Checked ButCore.Evo

/-! ### Runs -/

structure Node extends State where
  statics : Statics

/-- A block with what is known of it elsewhere: whether its roots are checked, whether that of the
list is right, the other root its coinbase has, and whether the remaining checks pass. -/
structure Connection where
  block : ConnectedBlock
  fCheckCbTxMerleRoots : Bool
  mnListRootMatches : Bool
  merkleRootQuorums : Uint256
  accepted : Bool

inductive NodeCall where
  | connectBlock (c : Connection)
  | disconnectBlock
  | createNewBlock (block : ConnectedBlock)
  | hasMinedCommitment (key : QuorumKey)
  | restart

section

variable (env : RootEnv) (db : CommitmentDb) (chain : ActiveChain)

def checkCbTxMerkleRoots (c : Connection) (st : Statics) : Except Abort (Bool × Statics) :=
  match c.block.vtx.head? with
  -- a block without transactions does not get here
  | none => pure (true, st)
  | some tx =>
    if tx.nType ≠ .coinbase then pure (true, st)
    else
      match tx.cbTxPayload with
      | none => pure (false, st)
      | some cbTx =>
        if ¬ c.mnListRootMatches then pure (false, st)
        else if 2 ≤ cbTx.nVersion then do
          let (root, st) ← calcCbTxMerkleRootQuorums env db chain c.block st
          pure (root.2 && root.1 == c.merkleRootQuorums, st)
        else pure (true, st)

def checkRoots (c : Connection) (st : Statics) : Except Abort (Bool × Statics) :=
  if c.fCheckCbTxMerleRoots then checkCbTxMerkleRoots env db chain c st else pure (true, st)

end

section

variable (env : RootEnv)

/-- Nothing static survives a restart, which also follows an abort. -/
def Node.restart (s : Node) : Node :=
  ⟨BlockProcessor.step env.toProcessorEnv s.toState .restart, ⟨[], []⟩⟩

/-- The root is calculated after `ProcessBlock` has written the commitments of the block. -/
def Node.connect (s : Node) (c : Connection) : Node :=
  match (processBlock env.toProcessorEnv s.chain s.chain.length c.block).run.run s.store with
  | (.error _, _) => ⟨BlockProcessor.connect env.toProcessorEnv s.toState c.block false, s.statics⟩
  | (.ok _, store) =>
    match checkRoots env store.db s.chain c s.statics with
    | .error _ => s.restart env
    | .ok (passed, st) =>
      ⟨BlockProcessor.connect env.toProcessorEnv s.toState c.block (passed && c.accepted), st⟩

def Node.createNewBlock (s : Node) (block : ConnectedBlock) : Node :=
  match calcCbTxMerkleRootQuorums env s.store.db s.chain block s.statics with
  | .error _ => s.restart env
  | .ok (_, st) => { s with statics := st }

def Node.step (s : Node) : NodeCall → Node
  | .connectBlock c => s.connect env c
  | .disconnectBlock => { s with toState := BlockProcessor.step env.toProcessorEnv s.toState .undoBlock }
  | .createNewBlock block => s.createNewBlock env block
  | .hasMinedCommitment key =>
    { s with toState := BlockProcessor.step env.toProcessorEnv s.toState (.hasMinedCommitment key) }
  | .restart => s.restart env

def Node.initial : Node := ⟨BlockProcessor.initial env.toProcessorEnv, ⟨[], []⟩⟩

def Node.run (calls : List NodeCall) : Node := Steps.run (Node.step env) (Node.initial env) calls

end

/-! ### When the maps stay right -/

def Connection.reaches (c : Connection) : Bool :=
  c.fCheckCbTxMerleRoots && c.mnListRootMatches && c.block.vtx.head?.any fun tx =>
    decide (tx.nType = .coinbase) && tx.cbTxPayload.any fun cbTx => decide (2 ≤ cbTx.nVersion)

/-- No cached hash is that of another commitment for a quorum of the block. -/
def Statics.Keeps (env : RootEnv) (block : ConnectedBlock) (st : Statics) : Prop :=
  st.Each fun type quorumHash hash => ∀ qc ∈ mined (blockCommitments block),
    quorumKey qc = (type, quorumHash) → hash = env.serializeHash qc

def Node.Follows (s : Node) : NodeCall → Prop
  | .connectBlock c => FollowsChain s.toState (.processBlock c.block c.accepted)
  | _ => True

/-- The condition on the state and the call: if the root of a block is not calculated, its
commitments are not at odds with the cached ones. -/
def Node.Refreshes (env : RootEnv) (s : Node) : NodeCall → Prop
  | .connectBlock c => c.reaches = true ∨ s.statics.Keeps env c.block
  | _ => True

/-- The database a call for a block reads: that of the state for a block that is assembled, and the
one `ProcessBlock` leaves for a block that is connected. -/
def Node.Reads (env : RootEnv) (s : Node) (block : ConnectedBlock) (db : CommitmentDb) : Prop :=
  db = s.store.db ∨ ∃ store, db = store.db ∧
    (processBlock env.toProcessorEnv s.chain s.chain.length block).run.run s.store = (.ok (), store)

structure Node.Sound (env : RootEnv) (s : Node) : Prop where
  agrees : Agrees env.toProcessorEnv s.toState
  right : s.statics.Right env s.chain

variable {store : ProcessorStore}

section

variable {env : RootEnv} {st : Statics} {block : ConnectedBlock} {chain : ActiveChain}

theorem Statics.right_nil : Statics.Right env chain ⟨[], []⟩ := List.Forall₂.nil

theorem Statics.Right.cons (right : st.Right env chain) (keeps : st.Keeps env block) :
    st.Right env (block :: chain) := by
  refine (right.and keeps).mp ?_
  intro quorums _ quorumHash _ hash ⟨below, top⟩ h b qc mined hkey
  obtain ⟨-, -, mem, notNull⟩ | mined := minedAt_cons.mp mined
  · exact top qc (mem_mined.mpr ⟨mem, notNull⟩) hkey
  · exact below h b qc mined hkey

theorem Statics.Right.of_cons (right : st.Right env (block :: chain)) : st.Right env chain := by
  refine right.mp ?_
  intro quorums _ quorumHash _ hash cached h b qc mined hkey
  exact cached h b qc (minedAt_cons.mpr (.inr mined)) hkey

theorem Statics.keeps_of_active {s : State} {db : CommitmentDb}
    (agrees : Agrees env.toProcessorEnv s) (covers : Covers env.toProcessorEnv s.chain db)
    (agrees' : Agrees env.toProcessorEnv ⟨block :: s.chain, store⟩)
    (active : st.quorumsCached = env.llmqs.map fun entry => (entry.1, activeQuorums db s.chain entry))
    (right : st.Right env s.chain) : st.Keeps env block := by
  refine right.mp ?_
  intro quorums hmem quorumHash hmem' hash _ qc top hkey
  rw [active] at hmem
  obtain ⟨entry, hentry, rfl⟩ := List.mem_map.mp hmem
  obtain ⟨h, b, qc', mined, hkey'⟩ := minedAt_of_activeQuorums agrees covers hmem'
  exact absurd (hkey.trans hkey'.symm) (agrees'.quorumKey_ne top mined)

end

section

variable {env : RootEnv} {s : Node} {db : CommitmentDb} {block : ConnectedBlock}
variable {st' st : Statics} {root : Uint256 × Bool} {chain : ActiveChain}

theorem minedHashes_of_calc (h : calcCbTxMerkleRootQuorums env db chain block st = .ok (root, st')) :
    ∃ qcHashes, minedHashes env db chain st = .ok (qcHashes, st') := by
  obtain ⟨⟨qcHashes, st''⟩, hmined, h⟩ := bind_eq_ok.mp h
  obtain ⟨_, -, h⟩ := bind_eq_ok.mp h
  obtain ⟨-, rfl⟩ := Prod.mk.inj (Except.ok.inj h)
  exact ⟨qcHashes, hmined⟩

theorem Node.Sound.calc (fit : RootParamsFit env) (sound : s.Sound env)
    (covers : Covers env.toProcessorEnv s.chain db)
    (h : calcCbTxMerkleRootQuorums env db s.chain block s.statics = .ok (root, st')) :
    st'.Right env s.chain ∧
      st'.quorumsCached = env.llmqs.map fun entry => (entry.1, activeQuorums db s.chain entry) := by
  obtain ⟨qcHashes, hmined⟩ := minedHashes_of_calc h
  obtain ⟨st'', hmined', right, active⟩ := minedHashes_ok fit sound.agrees covers sound.right
  rw [hmined'] at hmined
  obtain ⟨-, rfl⟩ := Prod.mk.inj (Except.ok.inj hmined)
  exact ⟨right, active⟩

variable {c : Connection} {passed : Bool}

theorem checkRoots_cases (h : checkRoots env db chain c st = .ok (passed, st')) :
    (c.reaches = false ∧ st' = st) ∨
      ∃ root, calcCbTxMerkleRootQuorums env db chain c.block st = .ok (root, st') := by
  have untouched {b : Bool} (h : (pure (b, st) : Except Abort _) = .ok (passed, st')) : st' = st :=
    (Prod.mk.inj (Except.ok.inj h)).2.symm
  unfold checkRoots at h
  unfold Connection.reaches
  split at h
  · next checked =>
      unfold checkCbTxMerkleRoots at h
      split at h
      · next none => exact .inl ⟨by simp [none], untouched h⟩
      · next tx first =>
          split at h
          · next other => exact .inl ⟨by simp [first, other], untouched h⟩
          · split at h
            · next missing => exact .inl ⟨by simp [first, missing], untouched h⟩
            · next cbTx payload =>
                split at h
                · next wrong => exact .inl ⟨by simp [wrong], untouched h⟩
                · split at h
                  · obtain ⟨⟨root, st''⟩, hcalc, h⟩ := bind_eq_ok.mp h
                    obtain ⟨-, rfl⟩ := Prod.mk.inj (Except.ok.inj h)
                    exact .inr ⟨root, hcalc⟩
                  · next old => exact .inl ⟨by simp [first, payload, old], untouched h⟩
  · next unchecked => exact .inl ⟨by simp [unchecked], untouched h⟩

theorem Node.Sound.restart (fit : RootParamsFit env) (sound : s.Sound env) :
    (s.restart env).Sound env :=
  ⟨Agrees.step fit.toParamsFit _ .restart sound.agrees trivial, Statics.right_nil⟩

theorem Node.Sound.createNewBlock (fit : RootParamsFit env) (sound : s.Sound env) :
    (s.createNewBlock env block).Sound env := by
  unfold Node.createNewBlock
  split
  · exact sound.restart fit
  · next hcalc => exact ⟨sound.agrees, (sound.calc fit (.of_stored sound.agrees.stored) hcalc).1⟩

theorem chain_disconnect (env : ProcessorEnv) (s : State) :
    (BlockProcessor.disconnect env s).chain = s.chain ∨
      ∃ block, s.chain = block :: (BlockProcessor.disconnect env s).chain := by
  unfold BlockProcessor.disconnect
  split
  · next block pprev rest hchain =>
      split
      · exact .inr ⟨block, hchain⟩
      · exact .inl rfl
  · exact .inl rfl

theorem Node.Sound.disconnect (sound : s.Sound env) :
    (s.step env .disconnectBlock).Sound env := by
  refine ⟨sound.agrees.disconnect, ?_⟩
  change s.statics.Right env (BlockProcessor.disconnect env.toProcessorEnv s.toState).chain
  obtain same | ⟨block, below⟩ := chain_disconnect env.toProcessorEnv s.toState
  · rw [same]
    exact sound.right
  · have right := sound.right
    rw [below] at right
    exact right.of_cons

theorem connect_of_ok {env : ProcessorEnv} {s : State} {u : Unit}
    (hrun : (processBlock env s.chain s.chain.length block).run.run s.store = (.ok u, store))
    (accepted : Bool) :
    BlockProcessor.connect env s block accepted =
      if accepted then ⟨block :: s.chain, store⟩ else ⟨s.chain, s.store.rollback store⟩ := by
  unfold BlockProcessor.connect
  rw [hrun]

theorem chain_connect_false (env : ProcessorEnv) (s : State) :
    (BlockProcessor.connect env s block false).chain = s.chain := by
  unfold BlockProcessor.connect
  split <;> rfl

theorem Node.Sound.checkRoots (fit : RootParamsFit env) (sound : s.Sound env)
    (refreshes : s.Refreshes env (.connectBlock c))
    (covers : Covers env.toProcessorEnv s.chain store.db)
    (agrees' : Agrees env.toProcessorEnv ⟨c.block :: s.chain, store⟩)
    (hcheck : checkRoots env store.db s.chain c s.statics = .ok (passed, st)) :
    st.Right env s.chain ∧ st.Keeps env c.block := by
  obtain ⟨notReached, rfl⟩ | ⟨root, hcalc⟩ := checkRoots_cases hcheck
  · refine ⟨sound.right, ?_⟩
    obtain reached | keeps := refreshes
    · rw [notReached] at reached
      cases reached
    · exact keeps
  · obtain ⟨right, active⟩ := sound.calc fit covers hcalc
    exact ⟨right, Statics.keeps_of_active sound.agrees covers agrees' active right⟩

theorem Node.Sound.connect (fit : RootParamsFit env) (sound : s.Sound env)
    (follows : s.Follows (.connectBlock c)) (refreshes : s.Refreshes env (.connectBlock c)) :
    (s.connect env c).Sound env := by
  have agrees' (accepted : Bool) : Agrees env.toProcessorEnv
      (BlockProcessor.connect env.toProcessorEnv s.toState c.block accepted) :=
    sound.agrees.connect fit.toParamsFit follows
  unfold Node.connect
  split
  · refine ⟨agrees' false, ?_⟩
    change s.statics.Right env (BlockProcessor.connect _ s.toState c.block false).chain
    rw [chain_connect_false]
    exact sound.right
  · next store hrun =>
      split
      · exact sound.restart fit
      · next passed st hcheck =>
          have onTop := agrees' true
          rw [connect_of_ok hrun, if_pos rfl] at onTop
          obtain ⟨right, keeps⟩ := sound.checkRoots fit refreshes (.of_stored_cons onTop.stored)
            onTop hcheck
          refine ⟨agrees' _, ?_⟩
          change st.Right env (BlockProcessor.connect _ s.toState c.block _).chain
          rw [connect_of_ok hrun]
          split
          · exact right.cons keeps
          · exact right

theorem Node.Sound.step (fit : RootParamsFit env) (s : Node) (call : NodeCall) (sound : s.Sound env)
    (safe : s.Follows call ∧ s.Refreshes env call) : (s.step env call).Sound env := by
  cases call with
  | connectBlock c => exact sound.connect fit safe.1 safe.2
  | disconnectBlock => exact sound.disconnect
  | createNewBlock block => exact sound.createNewBlock fit
  | hasMinedCommitment key => exact ⟨sound.agrees.lookup key, sound.right⟩
  | restart => exact sound.restart fit

theorem Node.Sound.initial (fit : RootParamsFit env) : (Node.initial env).Sound env :=
  ⟨Agrees.initial fit.toParamsFit, Statics.right_nil⟩

theorem Node.Sound.covers (fit : RootParamsFit env) (sound : s.Sound env)
    (reads : s.Reads env block db) : Covers env.toProcessorEnv s.chain db := by
  obtain rfl | ⟨store, rfl, hrun⟩ := reads
  · exact .of_stored sound.agrees.stored
  · obtain ⟨-, processed⟩ := processBlock_run env.toProcessorEnv s.chain s.chain.length fit.enabled
      (Agrees.keyed_lookup fit.toParamsFit) sound.agrees.coherent hrun
    obtain ⟨qcs, processed⟩ := processed rfl
    exact .of_stored_cons (sound.agrees.stored_of_processed processed)

end

/-- After every run whose calls meet the condition, the root calculated for a block is that of the
commitments active with it. -/
theorem run_calcCbTxMerkleRootQuorums (env : RootEnv) (fit : RootParamsFit env) (calls : List NodeCall)
    (safe : Steps.Meets (Node.step env) (fun s call => s.Follows call ∧ s.Refreshes env call)
      (Node.initial env) calls)
    {block : ConnectedBlock} (regular : Regular env block) {db : CommitmentDb}
    (reads : (Node.run env calls).Reads env block db) :
    (calcCbTxMerkleRootQuorums env db (Node.run env calls).chain block
        (Node.run env calls).statics).map Prod.fst =
      .ok (activeRoot env db (Node.run env calls).chain block) := by
  have sound : (Node.run env calls).Sound env :=
    Steps.run_inv (Node.Sound.step fit) (Node.Sound.initial fit) safe
  exact calcCbTxMerkleRootQuorums_ok fit sound.agrees (sound.covers fit reads) sound.right regular

/-! ### A reorganisation -/

instance decidableFollows (s : Node) : ∀ call, Decidable (s.Follows call)
  | .connectBlock c => decidableFollowsChain s.toState (.processBlock c.block c.accepted)
  | .disconnectBlock | .createNewBlock _ | .hasMinedCommitment _ | .restart => isTrue trivial

instance decidableEach {P : LLMQType → Uint256 → Uint256 → Prop}
    [∀ type quorumHash hash, Decidable (P type quorumHash hash)] (st : Statics) :
    Decidable (st.Each P) :=
  inferInstanceAs (Decidable (List.Forall₂ (fun (quorums hashes : LLMQType × List Uint256) =>
    quorums.1 = hashes.1 ∧ List.Forall₂ (P quorums.1) quorums.2 hashes.2) _ _))

instance decidableKeeps (env : RootEnv) (block : ConnectedBlock) (st : Statics) :
    Decidable (st.Keeps env block) :=
  decidableEach st

instance decidableRefreshes (env : RootEnv) (s : Node) : ∀ call, Decidable (s.Refreshes env call)
  | .connectBlock _ => instDecidableOr
  | .disconnectBlock | .createNewBlock _ | .hasMinedCommitment _ | .restart => isTrue trivial

def toyRoot : RootEnv where
  toProcessorEnv := { toyMain with llmqs := .test, sorted := by decide }
  serializeHash qc := BitVec.ofNat 256 (qc.signers.count true)
  computeMerkleRoot hashes := (hashes.headD 0, false)

def toyRootBlock (hash : Uint256) (nHeight : ℤ) (version : ℕ) (qcs : List CFinalCommitment) :
    ConnectedBlock :=
  ⟨hash, ⟨hash, 3, .coinbase, [⟨COutPoint.null, [], 0⟩], [], 0, .cbTx ⟨version, nHeight⟩, 0⟩ ::
    (toyBlock hash qcs).vtx⟩

def toyConnect (block : ConnectedBlock) (merkleRootQuorums : Uint256) : NodeCall :=
  .connectBlock ⟨block, true, true, merkleRootQuorums, true⟩

def toySigned : CFinalCommitment := toyCommitment 1 50 true

def toySignedLess : CFinalCommitment := { toySigned with signers := false :: .replicate 49 true }

def toyReorg (version : ℕ) : List NodeCall :=
  ([2, 3, 4, 5, 6, 7, 8, 9, 10].map fun hash => toyConnect (toyRootBlock hash (hash.toNat - 1) 2 []) 0)
    ++ [toyConnect (toyRootBlock 11 10 2 [toySigned]) 50, toyConnect (toyRootBlock 12 11 2 []) 50,
      .disconnectBlock, .disconnectBlock, toyConnect (toyRootBlock 13 10 version [toySignedLess]) 49]

def toyNext : ConnectedBlock := toyRootBlock 14 11 2 []

theorem run_calcCbTxMerkleRootQuorums_reorg :
    (Node.run toyRoot (toyReorg 2)).chain.length = 11 ∧
      (calcCbTxMerkleRootQuorums toyRoot (Node.run toyRoot (toyReorg 2)).store.db
          (Node.run toyRoot (toyReorg 2)).chain toyNext
          (Node.run toyRoot (toyReorg 2)).statics).map Prod.fst =
        .ok (activeRoot toyRoot (Node.run toyRoot (toyReorg 2)).store.db
          (Node.run toyRoot (toyReorg 2)).chain toyNext) :=
  ⟨by decide +kernel, run_calcCbTxMerkleRootQuorums toyRoot
    ⟨⟨rfl, by decide, by decide⟩, by decide⟩ _ (by decide +kernel)
    ⟨by decide, by decide, by decide, by decide⟩ (.inl rfl)⟩

/-- Without the calculation for the other block 10, whose coinbase is of version 1, the maps still have
the hash of the first commitment. The next block is refused with the root it has to have. -/
theorem run_calcCbTxMerkleRootQuorums_stale :
    Steps.Meets (Node.step toyRoot) Node.Follows (Node.initial toyRoot) (toyReorg 1) ∧
      (calcCbTxMerkleRootQuorums toyRoot (Node.run toyRoot (toyReorg 1)).store.db
          (Node.run toyRoot (toyReorg 1)).chain toyNext
          (Node.run toyRoot (toyReorg 1)).statics).map Prod.fst = .ok (50, true) ∧
      activeRoot toyRoot (Node.run toyRoot (toyReorg 1)).store.db
        (Node.run toyRoot (toyReorg 1)).chain toyNext = (49, true) ∧
      (Node.run toyRoot (toyReorg 1 ++ [toyConnect toyNext 49])).chain =
        (Node.run toyRoot (toyReorg 1)).chain := by
  refine ⟨by decide +kernel, by decide +kernel, by decide +kernel, by decide +kernel⟩

end ButCore.Llmq.CbTxQuorums
