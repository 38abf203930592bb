import ButCore.Validation.Runs

/-!
# Rules that the active chain is meant to keep

The founder payment, the checks that need the parent, and the rules on algorithms are each checked
at another place than the one that lets a block into the chain.
-/
namespace ButCore.Validation

open Checked

def toyHeader (prev : Uint256) (nonce : BitVec 32) : CBlockHeader where
  nVersion := 0x20000000 ||| BLOCK_VERSION_SHA256D
  hashPrevBlock := prev
  hashMerkleRoot := 0
  nTime := 600 * nonce
  nBits := Pow.powWorkLimit mainParams
  nNonce := nonce

def toyFounder : FounderPayment := .fivePercent [0x51] 0

def toyCoinbase (vout : List CTxOut) : CTransaction where
  hash := 0
  nVersion := 3
  nType := .coinbase
  vin := [⟨COutPoint.null, [0, 0], SEQUENCE_FINAL⟩]
  vout := vout
  nLockTime := 0
  extraPayload := .undecodable
  extraPayloadSize := 0

def toyEnv : Env where
  pow := mainParams
  genesis := ⟨toyHeader 0 1, [toyCoinbase [⟨0, []⟩]], false⟩
  hashDevnetGenesisBlock := 0
  nMaxCash := 400000
  nMinimumChainWork := 0
  bip34Enabled := true
  bipCSVEnabled := true
  dip0001Enabled := true
  dip0003Enabled := true
  fCheckpointsEnabled := false
  checkpoints := []
  founder := toyFounder
  getHash := fun header => header.nNonce.setWidth 256
  hashGR := fun header => header.nNonce.setWidth 256
  yespowerHash := fun header => header.nNonce.setWidth 256
  lyra2Hash := fun header => header.nNonce.setWidth 256
  scryptHash := fun header => header.nNonce.setWidth 256
  blockMerkleRoot := fun _ => (0, false)
  txSize := fun _ => 200
  blockSize := fun _ => 300
  getLegacySigOpCount := fun _ => 0
  getBlockProof := fun _ => 1
  startBlock_nonneg := le_refl 0
  due_ne_zero := fun _ started => (FounderPayment.fivePercent_due_pos started).ne'

def toyCall : CallEnv where
  adjustedTime := 1000000
  hasConflictingChainLock := fun _ _ => false
  connectRules := fun _ _ => .ok ()
  findBlockPos := fun _ => true
  readBlock := fun _ => true
  disconnectBlock := fun _ => true
  flushState := fun _ => true

def minerOnly : CTransaction := toyCoinbase [⟨1000, [0x52]⟩]

def toyBlock (prev : Uint256) (nonce : BitVec 32) (tx : CTransaction) : Input :=
  .block toyCall (toyHeader prev nonce) [tx] true 3

/-- As `minerOnly`, with 5% of five million coins for the founder. -/
def minerAndFounder : CTransaction := toyCoinbase [⟨1000, [0x52]⟩, ⟨250000 * COIN, [0x51]⟩]

def toyTip : ChainState := run toyEnv (initial toyEnv) [toyBlock 1 2 minerOnly]

/-! ### The verdict that admits a block -/

section

variable {ε α : Type}

theorem isOk_iff {x : Except ε α} : x.isOk = true ↔ ∃ a, x = .ok a := by
  cases x <;> simp [Except.isOk, Except.toBool]

/-- Two nodes agree on an unchecked block when it fails a check that reads neither the tip nor the
height, or when the money limits and founder payments of their tips agree on it. -/
theorem checkNewBlock_verdict_eq_iff (env : Env) (s₁ s₂ : ChainState) (block : CBlock)
    (unchecked : block.fChecked = false) :
    (checkNewBlock env s₁ block).isOk = (checkNewBlock env s₂ block).isOk ↔
      ¬ TipFree env block ∨
        (TipRules env (env.isMaxCash s₁.tipHeight?) s₁.height block ↔
          TipRules env (env.isMaxCash s₂.tipHeight?) s₂.height block) := by
  have verdict : ∀ s : ChainState, (checkNewBlock env s block).isOk = true ↔
      TipFree env block ∧ TipRules env (env.isMaxCash s.tipHeight?) s.height block := by
    intro s
    rw [isOk_iff, checkNewBlock, checkBlock_isOk_iff unchecked, add_sub_cancel_right]
  rw [Bool.eq_iff_iff, verdict, verdict]
  tauto

theorem checkNewBlock_verdict_eq_paid :
    (checkNewBlock toyEnv (initial toyEnv) ⟨toyHeader 1 9, [minerAndFounder], false⟩).isOk =
        (checkNewBlock toyEnv toyTip ⟨toyHeader 1 9, [minerAndFounder], false⟩).isOk ↔
      ¬ TipFree toyEnv ⟨toyHeader 1 9, [minerAndFounder], false⟩ ∨
        (TipRules toyEnv (toyEnv.isMaxCash (initial toyEnv).tipHeight?) (initial toyEnv).height
            ⟨toyHeader 1 9, [minerAndFounder], false⟩ ↔
          TipRules toyEnv (toyEnv.isMaxCash toyTip.tipHeight?) toyTip.height
            ⟨toyHeader 1 9, [minerAndFounder], false⟩) :=
  checkNewBlock_verdict_eq_iff toyEnv (initial toyEnv) toyTip _ rfl

/-- A child of genesis that pays no founder is admitted while genesis is the tip and refused once
another block is. -/
theorem checkNewBlock_verdict_ne_unpaid :
    ((initial toyEnv).node? 1).isSome = true ∧ (toyTip.node? 1).isSome = true ∧
      (checkNewBlock toyEnv (initial toyEnv) ⟨toyHeader 1 9, [minerOnly], false⟩).isOk = true ∧
      (checkNewBlock toyEnv toyTip ⟨toyHeader 1 9, [minerOnly], false⟩).isOk = false := by
  decide +kernel

end

/-! ### What is read back -/

section

variable {env : Env} {call : CallEnv} {s : ChainState} {hash : Uint256} {block : CBlock}

theorem readBlockFromDisk_eq_some (h : readBlockFromDisk env call s hash = some block) :
    ∃ stored, s.data? hash = some stored ∧ env.getHash stored.header = hash ∧
      block = { stored with fChecked := false } := by
  unfold readBlockFromDisk at h
  cases hdata : s.data? hash with
  | none => simp [hdata] at h
  | some stored =>
    simp only [hdata, Bool.and_eq_true, decide_eq_true_eq] at h
    split at h
    · rename_i hread
      exact ⟨stored, rfl, hread.2, (Option.some.inj h).symm⟩
    · exact absurd h (by simp)

/-- A block that is connected was checked when it came or is checked when it is read back. -/
theorem connected_tipFree {s₁ : ChainState} {input : Input} {block' : CBlock}
    {below : List ActiveBlock} {b : ActiveBlock} {node : BlockNode}
    (submitted : input.submitted env s = some block)
    (checked : checkNewBlock env s block = .ok block')
    (h : Connected env call (some block') s₁ below b node) : TipFree env b.block := by
  rcases h.source with ⟨hmem, -⟩ | hread
  · obtain ⟨hheader, hvtx⟩ := checkBlock_ok_same checked
    obtain rfl := Option.some.inj hmem
    exact (submitted_tipFree submitted checked).congr hheader hvtx
  · obtain ⟨ismaxcash, block'', hcheck⟩ := h.checked
    obtain ⟨stored, -, -, hblock⟩ := readBlockFromDisk_eq_some hread
    exact ((checkBlock_isOk_iff (by rw [hblock])).mp ⟨block'', hcheck⟩).1

end

/-! ### The founder payment -/

variable {s s₁ : ChainState} {block block' : CBlock} {input : Input} {node : BlockNode}
variable {below : List ActiveBlock} {b : ActiveBlock} {call : CallEnv}

section

variable (env : Env)

/-- The coinbase of a block at `nHeight` pays the founder, once payments have started. -/
def PaysFounderAt (block : CBlock) (nHeight : ℤ) : Prop :=
  env.founder.startBlock < nHeight - 1 →
    ∃ tx ∈ block.vtx.head?, ∃ out ∈ tx.vout, out.scriptPubKey = env.founder.founderScript ∧
      env.founder.due (nHeight - 1) ≤ out.nValue

instance (block : CBlock) (nHeight : ℤ) : Decidable (PaysFounderAt env block nHeight) :=
  inferInstanceAs (Decidable (_ → ∃ tx ∈ block.vtx.head?, _))

/-- The block was not checked before and is checked at its own height, or it pays the founder. -/
def FounderSafe (s : ChainState) (input : Input) : Prop :=
  ∀ block, input.submitted env s = some block →
    block.fChecked = false ∧ (ownNode env s block.header).index.nHeight = s.height + 1 ∨
      PaysFounderAt env block (ownNode env s block.header).index.nHeight

variable {env}

theorem checkLayout_coinbase (h : checkLayout env block = .ok ()) :
    ∃ tx ∈ block.vtx.head?, tx.isCoinBase = true := by
  simp only [checkLayout, bind_eq_ok, failIf_eq_ok, not_not] at h
  obtain ⟨_, -, _, hfirst, -⟩ := h
  obtain ⟨tx, htx, hcb⟩ := (Option.any_eq_true _ _).mp hfirst
  exact ⟨tx, htx, hcb⟩

theorem paysFounderAt_of_checked {ismaxcash : Bool} {nHeight : ℤ}
    (unchecked : block.fChecked = false)
    (h : checkBlock env ismaxcash block nHeight true true = .ok block') :
    PaysFounderAt env block nHeight := by
  obtain ⟨free, rules⟩ := (checkBlock_isOk_iff unchecked).mp ⟨block', h⟩
  obtain ⟨tx, htx, hcb⟩ := checkLayout_coinbase free.layout
  intro started
  exact ⟨tx, htx, rules.founder tx (List.mem_of_mem_head? htx) hcb started⟩

theorem connected_paysFounder (safe : FounderSafe env s input)
    (submitted : input.submitted env s = some block)
    (checked : checkNewBlock env s block = .ok block') (accepted : Accepting env block' s s₁)
    (h : Connected env call (some block') s₁ below b node) :
    PaysFounderAt env b.block node.index.nHeight := by
  rcases h.source with ⟨hmem, hhash⟩ | hread
  · obtain ⟨hheader, hvtx⟩ := checkBlock_ok_same checked
    obtain rfl := Option.some.inj hmem
    have own : node = ownNode env s block.header := by
      rw [← hheader]
      exact accepted.node.own (hhash ▸ h.found)
    have pays : PaysFounderAt env block node.index.nHeight := by
      rw [own]
      rcases safe block submitted with ⟨unchecked, hheight⟩ | pays
      · rw [hheight]
        exact paysFounderAt_of_checked unchecked checked
      · exact pays
    unfold PaysFounderAt at pays ⊢
    rw [hvtx]
    exact pays
  · obtain ⟨ismaxcash, block'', hcheck⟩ := h.checked
    obtain ⟨stored, -, -, hblock⟩ := readBlockFromDisk_eq_some hread
    exact paysFounderAt_of_checked (by rw [hblock]) hcheck

/-- In a run whose blocks are all safe, every block of the active chain pays the founder what is
due at its height. -/
theorem chainActive_paysFounder (env : Env) (inputs : List Input)
    (safe : Meets env (FounderSafe env) (initial env) inputs) (above below : List ActiveBlock)
    (b : ActiveBlock) (h : (run env (initial env) inputs).chainActive = above ++ b :: below) :
    PaysFounderAt env b.block below.length := by
  have inv : (TreeInv (run env (initial env) inputs) ∧
      LinkedChain (run env (initial env) inputs) (run env (initial env) inputs).chainActive) ∧
      ActiveAll (fun node block => PaysFounderAt env block node.index.nHeight)
        (run env (initial env) inputs) := by
    refine run_inv (I := fun s => (TreeInv s ∧ LinkedChain s s.chainActive) ∧
      ActiveAll (fun node block => PaysFounderAt env block node.index.nHeight) s)
      (fun s input hs hsafe => ⟨step_linked env input hs.1, ?_⟩)
      ⟨⟨initial_treeInv, initial_linked⟩, ?_⟩ safe
    · exact step_activeAll hs.2 fun hsub hcheck haccept hconnected =>
        connected_paysFounder hsafe hsub hcheck haccept hconnected
    · intro b hb
      obtain rfl := List.mem_singleton.mp hb
      refine ⟨_, initial_node?.mpr ⟨rfl, rfl⟩, fun started => ?_⟩
      -- genesis is below the start block
      have low := env.startBlock_nonneg
      simp only [genesisIndex] at started
      omega
  obtain ⟨⟨tree, linked⟩, pays⟩ := inv
  rw [h] at linked
  obtain ⟨node, hnode, hheight⟩ := linked.height tree
  obtain ⟨node', hnode', hpays⟩ := pays b (by rw [h]; simp)
  rw [hnode] at hnode'
  obtain rfl := Option.some.inj hnode'
  rw [← hheight]
  exact hpays

theorem chainActive_paysFounder_twoBlocks :
    PaysFounderAt toyEnv ⟨toyHeader 2 3, [minerAndFounder], true⟩ 2 := by
  refine chainActive_paysFounder toyEnv [toyBlock 1 2 minerOnly, toyBlock 2 3 minerAndFounder]
    ⟨?_, ?_, trivial⟩ []
    [⟨2, ⟨toyHeader 1 2, [minerOnly], true⟩⟩, ⟨1, ⟨toyHeader 0 1, [toyCoinbase [⟨0, []⟩]], false⟩⟩]
    ⟨3, ⟨toyHeader 2 3, [minerAndFounder], true⟩⟩ ?_
  · intro block hblock
    obtain rfl := Option.some.inj hblock
    exact Or.inl ⟨rfl, by decide +kernel⟩
  · intro block hblock
    obtain rfl := Option.some.inj hblock
    exact Or.inl ⟨rfl, by decide +kernel⟩
  · decide +kernel

/-- A compact block is checked at height 0 while it is rebuilt and never again, so the second block
needs no founder output. -/
theorem chainActive_unpaid_compactBlock :
    (run toyEnv (initial toyEnv) [toyBlock 1 2 minerOnly,
        .compactBlock toyCall (toyHeader 2 3) [some minerOnly] [] 3]).chainActive =
      [⟨3, ⟨toyHeader 2 3, [minerOnly], true⟩⟩, ⟨2, ⟨toyHeader 1 2, [minerOnly], true⟩⟩,
        ⟨1, toyEnv.genesis⟩] ∧
      ¬ PaysFounderAt toyEnv ⟨toyHeader 2 3, [minerOnly], true⟩ 2 := by
  decide +kernel

end

/-! ### The checks against the parent -/

section

variable (env : Env)

/-- What `ContextualCheckBlock` asks of a block of the active chain and no check on its way there
has asked. -/
structure ContextRules (block : CBlock) (pindexPrev : Chain) : Prop where
  legacy : env.dip0001Enabled = false → block.vtx.length ≤ maxBlockSize false ∧
    env.blockSize block.vtx ≤ maxBlockSize false ∧ sigOps env block ≤ maxBlockSigOps false
  lockTime : ∀ tx ∈ block.vtx, tx.nLockTime = 0 ∨
    (tx.nLockTime.toNat : ℤ) < (if (tx.nLockTime.toNat : ℤ) < LOCKTIME_THRESHOLD
      then contextualHeight pindexPrev else lockTimeCutoff env block pindexPrev) ∨
    ∀ txin ∈ tx.vin, txin.nSequence = SEQUENCE_FINAL
  type : env.dip0003Enabled = true → ∀ tx ∈ block.vtx,
    if 3 ≤ tx.nVersion then knownType tx.nType = true else tx.nType = .normal
  coinbase : env.dip0003Enabled = true → ∀ tx ∈ block.vtx, tx.isCoinBase = true →
    tx.nType = .coinbase
  size : env.dip0001Enabled = true → ∀ tx ∈ block.vtx, env.txSize tx ≤ MAX_STANDARD_TX_SIZE
  height : env.bip34Enabled = true → env.dip0003Enabled = false →
    ∃ tx ∈ block.vtx.head?, ∃ txin ∈ tx.vin.head?,
      scriptOfHeight (contextualHeight pindexPrev).toNat <+: txin.scriptSig

variable {env}

theorem isFinalTx_iff {tx : CTransaction} {nBlockHeight nBlockTime : ℤ} :
    isFinalTx tx nBlockHeight nBlockTime = true ↔ tx.nLockTime = 0 ∨
      (tx.nLockTime.toNat : ℤ) < (if (tx.nLockTime.toNat : ℤ) < LOCKTIME_THRESHOLD
        then nBlockHeight else nBlockTime) ∨ ∀ txin ∈ tx.vin, txin.nSequence = SEQUENCE_FINAL := by
  simp [isFinalTx, or_assoc, BitVec.toNat_eq]

theorem contextualCheckTransaction_eq_ok {tx : CTransaction} {u : Unit} :
    contextualCheckTransaction env tx = .ok u ↔
      (env.dip0003Enabled = true →
        (if 3 ≤ tx.nVersion then knownType tx.nType = true else tx.nType = .normal) ∧
          (3 ≤ tx.nVersion → tx.isCoinBase = true → tx.nType = .coinbase)) ∧
      (env.dip0001Enabled = true → env.txSize tx ≤ MAX_STANDARD_TX_SIZE) := by
  simp only [contextualCheckTransaction, bind_eq_ok, failIf_eq_ok, exists_const]
  by_cases version : 3 ≤ tx.nVersion
  · simp [version, not_lt.mpr version]
    tauto
  · simp [version, not_le.mp version]

theorem TipFree.size (free : TipFree env block) : block.vtx ≠ [] ∧
    block.vtx.length ≤ maxBlockSize true ∧ env.blockSize block.vtx ≤ maxBlockSize true := by
  have layout := free.layout
  simp only [checkLayout, bind_eq_ok, failIf_eq_ok, not_or, not_lt, exists_const] at layout
  exact layout.1

theorem TipFree.head_of_isCoinBase (free : TipFree env block) {tx : CTransaction}
    (mem : tx ∈ block.vtx) (isCoinBase : tx.isCoinBase = true) : block.vtx.head? = some tx := by
  have layout := free.layout
  simp only [checkLayout, bind_eq_ok, failIf_eq_ok, exists_const, List.any_eq_true] at layout
  cases vtx : block.vtx with
  | nil => simp [vtx] at mem
  | cons first rest =>
    rcases List.mem_cons.mp (vtx ▸ mem) with rfl | other
    · rfl
    · exact absurd ⟨tx, by rw [vtx]; exact other, isCoinBase⟩ layout.2.2

theorem TipFree.contextualCheckBlock_eq_ok (free : TipFree env block) (pindexPrev : Chain) :
    contextualCheckBlock env block pindexPrev = .ok () ↔ ContextRules env block pindexPrev := by
  obtain ⟨nonempty, length, size⟩ := free.size
  have sigOps := not_lt.mp (failIf_eq_ok.mp free.sigOps)
  simp only [contextualCheckBlock, bind_eq_ok, failIf_eq_ok, forM_eq_ok, isFinalTx_iff,
    contextualCheckTransaction_eq_ok, exists_const, not_not]
  constructor
  · rintro ⟨limits, txs, ops, script, type⟩
    simp only [not_or, not_lt] at limits ops
    refine ⟨fun off => ?_, fun tx mem => (txs tx mem).1, fun on tx mem => ((txs tx mem).2.1 on).1,
      fun on tx mem isCoinBase => ?_, fun on tx mem => (txs tx mem).2.2 on, fun on off => ?_⟩
    · rw [off] at limits ops
      exact ⟨limits.2.1, limits.2.2, ops⟩
    · by_contra other
      exact type ⟨on, by simp [free.head_of_isCoinBase mem isCoinBase, other]⟩
    · by_contra other
      refine script ⟨on, by simp [off], fun found => other ?_⟩
      obtain ⟨txin, hin, isPrefix⟩ := (Option.any_eq_true _ _).mp found
      obtain ⟨tx, htx, hin⟩ := Option.bind_eq_some_iff.mp hin
      exact ⟨tx, htx, txin, hin, List.isPrefixOf_iff_prefix.mp isPrefix⟩
  · intro rules
    obtain ⟨first, head, isCoinBase⟩ := checkLayout_coinbase free.layout
    refine ⟨?_, fun tx mem => ⟨rules.lockTime tx mem, fun on => ⟨rules.type on tx mem,
      fun _ => rules.coinbase on tx mem⟩, fun on => rules.size on tx mem⟩, ?_, ?_, ?_⟩
    · cases on : env.dip0001Enabled with
      | true => simp [nonempty, length, size]
      | false => simp [nonempty, rules.legacy on]
    · cases on : env.dip0001Enabled with
      | true => exact not_lt.mpr sigOps
      | false => exact not_lt.mpr (rules.legacy on).2.2
    · rintro ⟨on, off, missing⟩
      obtain ⟨tx, htx, txin, hin, isPrefix⟩ := rules.height on (by simpa using off)
      rw [Option.mem_def] at htx hin
      exact missing (by simp [htx, hin, isPrefix])
    · rintro ⟨on, missing⟩
      have coinbase := rules.coinbase on first (List.mem_of_mem_head? head) isCoinBase
      rw [Option.mem_def] at head
      simp [head, coinbase] at missing

/-- Every block of the active chain went through `CheckBlock`: what `ContextualCheckBlock` would
refuse it for is what that check does not ask. -/
theorem chainActive_contextualCheckBlock (env : Env) (inputs : List Input) :
    ∀ b ∈ (run env (initial env) inputs).chainActive, b.hash ≠ env.hashGenesisBlock →
      ∃ node, (run env (initial env) inputs).node? b.hash = some node ∧
        (contextualCheckBlock env b.block node.pprev = .ok () ↔
          ContextRules env b.block node.pprev) := by
  have checked : ActiveAll (fun node block => node.hash ≠ env.hashGenesisBlock → TipFree env block)
      (run env (initial env) inputs) := by
    refine List.foldlRecOn inputs (step env) (motive := ActiveAll fun node block =>
      node.hash ≠ env.hashGenesisBlock → TipFree env block) ?_ fun s hs input _ =>
        step_activeAll hs fun hsub hcheck _ hconnected _ => connected_tipFree hsub hcheck hconnected
    intro b hb
    obtain rfl := List.mem_singleton.mp hb
    exact ⟨_, initial_node?.mpr ⟨rfl, rfl⟩, fun hne => absurd rfl hne⟩
  intro b hb hne
  obtain ⟨node, hnode, free⟩ := checked b hb
  rw [(run_branch env inputs).1.hash hnode] at free
  exact ⟨node, hnode, (free hne).contextualCheckBlock_eq_ok _⟩

def finalAtTwo : CTransaction :=
  { minerAndFounder with
    vin := [⟨COutPoint.null, [0, 0], 0⟩]
    nLockTime := 1 }

theorem chainActive_contextualCheckBlock_twoBlocks :
    let s := run toyEnv (initial toyEnv) [toyBlock 1 2 minerOnly, toyBlock 2 3 finalAtTwo]
    let block := ⟨toyHeader 2 3, [finalAtTwo], true⟩
    ∃ node, s.node? 3 = some node ∧ contextualCheckBlock toyEnv block node.pprev = .ok () ∧
      ContextRules toyEnv block node.pprev := by
  intro s block
  obtain ⟨node, found, rules⟩ := chainActive_contextualCheckBlock toyEnv
    [toyBlock 1 2 minerOnly, toyBlock 2 3 finalAtTwo] ⟨3, block⟩ (by decide +kernel)
    (by decide +kernel)
  have passes : (s.node? 3).map (fun node => contextualCheckBlock toyEnv block node.pprev) =
      some (.ok ()) := by
    decide +kernel
  rw [found] at passes
  exact ⟨node, found, Option.some.inj passes, rules.mp (Option.some.inj passes)⟩

def notFinal : CTransaction :=
  { minerOnly with
    vin := [⟨COutPoint.null, [0, 0], 0⟩]
    nLockTime := 500 }

/-- Nothing on the way into the active chain looks at the lock time. -/
theorem chainActive_nonfinal_block :
    (run toyEnv (initial toyEnv) [toyBlock 1 2 notFinal]).chainActive =
        [⟨2, ⟨toyHeader 1 2, [notFinal], true⟩⟩, ⟨1, toyEnv.genesis⟩] ∧
      ((run toyEnv (initial toyEnv) [toyBlock 1 2 notFinal]).node? 2).map (fun node =>
        contextualCheckBlock toyEnv ⟨toyHeader 1 2, [notFinal], true⟩ node.pprev) =
        some (.error (reject 10 "bad-txns-nonfinal")) := by
  decide +kernel

end

section

variable (env : Env)

/-- `ComputeBlockVersion` leaves the algorithm of the block as it is, and the sixth last block with
that algorithm is too far back to be counted. -/
structure AlgoSpaced (node : BlockNode) : Prop where
  version : ∀ last ∈ node.pprev.head?, getAlgo (computeBlockVersion env.pow 0x20000000
    (getAlgo node.index.nVersion) last.nHeight) = getAlgo node.index.nVersion
  sixth : ∀ index ∈ (node.pprev.filter fun index =>
      decide (getAlgo index.nVersion = getAlgo node.index.nVersion))[SAME_ALGO_MAX_COUNT]?,
    index.nHeight + 2 * SAME_ALGO_MAX_COUNT < node.index.nHeight

/-- So it is with the header that the step brings into the tree, if it brings one. -/
def AlgoSafe (s : ChainState) (input : Input) : Prop :=
  ∀ hash node, s.node? hash = none → (step env s input).node? hash = some node →
    AlgoSpaced env node

def TreeObeys (s : ChainState) : Prop :=
  ∀ hash node, s.node? hash = some node → ChainObeys env.pow node.chain

variable {env}
variable {header : CBlockHeader} {hash : Uint256}

theorem TreeInv.pprev_height (tree : TreeInv s) {i : ℕ} {index : CBlockIndex}
    (found : s.node? hash = some node) (h : node.pprev[i]? = some index) :
    index.nHeight + i + 1 = node.index.nHeight := by
  unfold BlockNode.pprev at h
  rw [tree.height found]
  induction i generalizing hash node with
  | zero =>
    cases hanc : node.ancestors with
    | nil => simp [hanc] at h
    | cons p rest =>
      obtain ⟨pnode, hp, hindex, rfl⟩ := tree.parent found hanc
      rw [hanc] at h
      obtain rfl := Option.some.inj h
      simp [← hindex, tree.height hp]
  | succ i ih =>
    cases hanc : node.ancestors with
    | nil => simp [hanc] at h
    | cons p rest =>
      obtain ⟨pnode, hp, -, rfl⟩ := tree.parent found hanc
      have below := ih hp (by simpa [hanc] using h)
      push_cast [List.length_cons]
      omega

/-- Counting the blocks of an algorithm among the last ones looks for the block that is one too
many. -/
theorem hasUsedValidMiningAlgorithm_iff {algo : Algo} {pprev : Chain} {nHeight : ℤ}
    (heights : ∀ {i : ℕ} {index}, pprev[i]? = some index → index.nHeight + i + 1 = nHeight) :
    hasUsedValidMiningAlgorithm algo pprev = true ↔
      ∀ index ∈ (pprev.filter fun index => decide (getAlgo index.nVersion = algo))[
        SAME_ALGO_MAX_COUNT]?, index.nHeight + 2 * SAME_ALGO_MAX_COUNT < nHeight := by
  have split := congrArg (List.filter fun index => decide (getAlgo index.nVersion = algo))
    (List.take_append_drop (2 * SAME_ALGO_MAX_COUNT) pprev)
  rw [List.filter_append] at split
  rw [hasUsedValidMiningAlgorithm, decide_eq_true_eq, ← split, List.countP_eq_length_filter]
  constructor
  · intro few index mem
    rw [List.getElem?_append_right few] at mem
    obtain ⟨i, hi⟩ := List.getElem?_of_mem (List.mem_of_mem_filter (List.mem_of_getElem? mem))
    rw [List.getElem?_drop] at hi
    have := heights hi
    push_cast at this
    omega
  · intro far
    by_contra many
    rw [not_le] at many
    rw [List.getElem?_append_left many, List.getElem?_eq_getElem many] at far
    have low := far _ rfl
    have mem := List.mem_of_mem_filter (List.getElem_mem many)
    obtain ⟨i, hi⟩ := List.getElem?_of_mem mem
    rw [List.getElem?_take] at hi
    split at hi
    · have := heights hi
      omega
    · cases hi

theorem TreeInv.algoRules_iff (tree : TreeInv s) (found : s.node? hash = some node) :
    AlgoRules env.pow (getAlgo node.index.nVersion) node.pprev ↔ AlgoSpaced env node := by
  have version := getAlgo_computeBlockVersion_iff env.pow
    (show (0x20000000 : BitVec 32) &&& BLOCK_VERSION_ALGO = 0 by decide)
    (getAlgo node.index.nVersion)
  have sixth : hasUsedValidMiningAlgorithm (getAlgo node.index.nVersion) _ = true ↔ _ :=
    hasUsedValidMiningAlgorithm_iff (tree.pprev_height found)
  cases hprev : node.pprev with
  | nil => exact ⟨fun _ => ⟨by simp [hprev], by simp [hprev]⟩, fun _ => trivial⟩
  | cons last rest =>
    rw [hprev] at sixth
    refine (and_congr (version last.nHeight).symm sixth).trans ⟨fun h => ⟨?_, hprev ▸ h.2⟩,
      fun h => ⟨h.version last (by simp [hprev]), hprev ▸ h.sixth⟩⟩
    intro index mem
    rw [hprev] at mem
    obtain rfl := Option.some.inj mem
    exact h.1

theorem newNode_pprev_obeys (h : TreeObeys env s) :
    ChainObeys env.pow (newNode env s header).pprev := by
  cases hanc : (newNode env s header).ancestors with
  | nil =>
    unfold BlockNode.pprev
    rw [hanc]
    trivial
  | cons p rest =>
    obtain ⟨pnode, hp, rfl, rfl, -⟩ := newNode_parent hanc
    have obeys := h _ pnode hp
    unfold BlockNode.pprev
    rw [hanc]
    exact obeys

theorem step_obeys_iff (tree : TreeInv s) :
    TreeObeys env (step env s input) ↔ TreeObeys env s ∧ AlgoSafe env s input := by
  obtain ⟨header, hstep⟩ := step_nodeStep env s input
  have tree' := hstep.treeInv tree
  constructor
  · intro h
    exact ⟨fun hash node found => h hash node (hstep.old found),
      fun hash node _ found => (tree'.algoRules_iff found).mp (h hash node found).1⟩
  · rintro ⟨h, safe⟩ hash node found
    rcases hstep.cases found with old | ⟨fresh, rfl, rfl⟩
    · exact h hash node old
    · exact ⟨(tree'.algoRules_iff found).mpr (safe _ _ fresh found), newNode_pprev_obeys h⟩

theorem run_obeys_iff (tree : TreeInv s) (inputs : List Input) :
    TreeObeys env (run env s inputs) ↔
      TreeObeys env s ∧ Meets env (AlgoSafe env) s inputs := by
  induction inputs generalizing s with
  | nil => exact (and_iff_left trivial).symm
  | cons input inputs ih =>
    obtain ⟨header, hstep⟩ := step_nodeStep env s input
    rw [run, List.foldl_cons, ← run, ih (hstep.treeInv tree), step_obeys_iff tree, and_assoc]
    exact Iff.rfl

def toyHeaderOf (version : BitVec 32) (prev : Uint256) (nonce : BitVec 32) : Input :=
  .header toyCall { toyHeader prev nonce with nVersion := 0x20000000 ||| version }

end

end ButCore.Validation
