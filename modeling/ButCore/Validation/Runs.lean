import ButCore.Validation.Activation

/-!
# Runs of a node

What one call may do to the tree and to the active chain, and the runs made of such calls.
-/
namespace ButCore.Validation

open Checked

/-! ### Moves of the active chain -/

variable {chain below above : List ActiveBlock} {P : List ActiveBlock → ActiveBlock → Prop}
variable {b : ActiveBlock}

section

variable (env : Env) (call : CallEnv) (pblock : Option CBlock)

/-- What is known of a block that was connected on top of `below`: it has the hash of its index,
`CheckBlock` returned true at the height of its index, the rules of `ConnectBlock` held if it is not
genesis, and it is the block in memory or one that was read back. -/
structure Connected (s : ChainState) (below : List ActiveBlock) (b : ActiveBlock)
    (node : BlockNode) : Prop where
  found : s.node? b.hash = some node
  hash : node.hash = env.getHash b.block.header
  rules : env.getHash b.block.header = env.hashGenesisBlock ∨
    call.connectRules below b.block = .ok ()
  parent : node.ancestors.head?.map Prod.fst = below.head?.map ActiveBlock.hash
  checked : ∃ ismaxcash block',
    checkBlock env ismaxcash b.block node.index.nHeight true true = .ok block'
  source : pblock = some b.block ∧ env.getHash b.block.header = b.hash ∨
    readBlockFromDisk env call s b.hash = some b.block

inductive Moves (s : ChainState) : List ActiveBlock → Prop
  | start : Moves s s.chainActive
  | disconnect {b : ActiveBlock} {below : List ActiveBlock} :
      Moves s (b :: below) → Moves s below
  | connect {b : ActiveBlock} {below : List ActiveBlock} {node : BlockNode} :
      Moves s below → Connected env call pblock s below b node → Moves s (b :: below)

structure Activating (s₀ s : ChainState) : Prop where
  node : s.node? = s₀.node?
  data : s.data? = s₀.data?
  moves : Moves env call pblock s₀ s.chainActive

variable {env call pblock} {s₀ s s' : ChainState}

theorem Activating.refl : Activating env call pblock s s := ⟨rfl, rfl, .start⟩

theorem Activating.kept (h : Activating env call pblock s₀ s) (hkept : Kept s s') :
    Activating env call pblock s₀ s' :=
  ⟨hkept.node.trans h.node, hkept.data.trans h.data, hkept.chainActive ▸ h.moves⟩

theorem Moves.suffix {chain' : List ActiveBlock} (h : Moves env call pblock s chain)
    (hsuffix : chain' <:+ chain) : Moves env call pblock s chain' := by
  obtain ⟨above, rfl⟩ := hsuffix
  induction above with
  | nil => exact h
  | cons b above ih => exact ih h.disconnect

theorem readBlockFromDisk_congr (hdata : s.data? = s'.data?) (hash : Uint256) :
    readBlockFromDisk env call s hash = readBlockFromDisk env call s' hash := by
  unfold readBlockFromDisk
  rw [hdata]

variable {pindex : BlockIndex}

theorem connectBlock_checked {block : CBlock} (h : connectBlock env call s block pindex = .ok ()) :
    ∃ ismaxcash block',
      checkBlock env ismaxcash block pindex.index.nHeight true true = .ok block' := by
  refine ⟨env.isMaxCash s.tipHeight?, ?_⟩
  simp only [connectBlock, bind_eq_ok] at h
  obtain ⟨_, -, _, hcheck, -⟩ := h
  cases hres : checkBlock env (env.isMaxCash s.tipHeight?) block pindex.index.nHeight true true with
  | ok block' => exact ⟨block', rfl⟩
  | error r => simp [hres] at hcheck

theorem connectBlock_ruled {block : CBlock} (h : connectBlock env call s block pindex = .ok ()) :
    pindex.hash = env.getHash block.header ∧
      (env.getHash block.header = env.hashGenesisBlock ∨
        call.connectRules s.chainActive block = .ok ()) := by
  simp only [connectBlock, bind_eq_ok, failIf_eq_ok, not_not] at h
  obtain ⟨_, hhash, _, -, _, -, hrules⟩ := h
  refine ⟨hhash, ?_⟩
  split at hrules
  · next genesis => exact Or.inl genesis
  · exact Or.inr hrules

variable {mem : Option CBlock}

theorem Activating.connectTip (h : Activating env call pblock s₀ s) (hash : Uint256)
    (hmem : ∀ b, mem = some b → pblock = some b ∧ env.getHash b.header = hash) :
    Activating env call pblock s₀ (connectTip env call s hash mem).1 := by
  unfold Validation.connectTip
  cases hindex : s.mapBlockIndex[hash]? with
  | none => exact h
  | some pindexNew =>
    dsimp only
    split
    · exact h
    rename_i hparent
    cases hblock : mem.or (readBlockFromDisk env call s hash) with
    | none => exact h
    | some block =>
      dsimp only
      cases hconnect : connectBlock env call s block pindexNew with
      | error e =>
        cases e with
        | invalid r => exact h.kept (invalidBlockFound_kept hash r)
        | systemError => exact h
        | assertion => exact h
      | ok u =>
        dsimp only
        have kept := raiseConnected_kept env (s := s) hash block
        have raised := h.kept kept
        split
        · have connected : Connected env call pblock s₀
              (raiseConnected env s hash block).chainActive ⟨hash, block⟩
              pindexNew.toBlockNode := by
            obtain ⟨hhash, hrules⟩ := connectBlock_ruled hconnect
            refine ⟨?_, hhash, ?_, ?_, connectBlock_checked hconnect, ?_⟩
            · rw [← h.node]
              simp [ChainState.node?, hindex]
            · rw [kept.chainActive]
              exact hrules
            · rw [kept.chainActive]
              exact not_not.mp hparent
            · rcases Option.or_eq_some_iff.mp hblock with hm | ⟨-, hread⟩
              · exact Or.inl (hmem block hm)
              · rw [readBlockFromDisk_congr h.data] at hread
                exact Or.inr hread
          exact ⟨raised.node, raised.data, raised.moves.connect connected⟩
        · exact raised

theorem Activating.connectTips (h : Activating env call pblock s₀ s) (oldTip : Option BlockIndex)
    {mostWork : Uint256}
    (hmem : ∀ b, mem = some b → pblock = some b ∧ env.getHash b.header = mostWork)
    (hashes : List Uint256) :
    Activating env call pblock s₀ (connectTips env call oldTip mostWork mem hashes s).1 := by
  induction hashes generalizing s with
  | nil => exact h
  | cons hash hashes ih =>
    unfold Validation.connectTips
    have hmem' : ∀ b, (if hash = mostWork then mem else none) = some b →
        pblock = some b ∧ env.getHash b.header = hash := by
      intro b hb
      split at hb
      · rename_i heq
        exact heq ▸ hmem b hb
      · exact absurd hb (by simp)
    have connected := h.connectTip hash hmem'
    cases hres : Validation.connectTip env call s hash (if hash = mostWork then mem else none) with
    | mk t r =>
      rw [hres] at connected
      cases r with
      | error e => cases e <;> exact connected
      | ok u =>
        dsimp only
        cases hprune : pruneBlockIndexCandidates t with
        | none => exact connected
        | some t' =>
          have pruned := connected.kept (pruneBlockIndexCandidates_kept hprune)
          dsimp only
          split
          · exact pruned
          · exact ih pruned

theorem Activating.activateBestChainStep (h : Activating env call pblock s₀ s)
    (mostWork : BlockIndex)
    (hmem : ∀ b, mem = some b → pblock = some b ∧ env.getHash b.header = mostWork.hash) :
    Activating env call pblock s₀ (activateBestChainStep env call s mostWork mem).1 := by
  unfold Validation.activateBestChainStep
  have hsuffix := disconnectTips_suffix call (mostWork.path.find? s.contains) s.chainActive
  dsimp only
  cases hdisc : disconnectTips call (mostWork.path.find? s.contains) s.chainActive with
  | mk chain done =>
    rw [hdisc] at hsuffix
    have disconnected : Activating env call pblock s₀ { s with chainActive := chain } :=
      ⟨h.node, h.data, h.moves.suffix hsuffix⟩
    cases done with
    | false => exact disconnected
    | true => exact disconnected.connectTips s.tip? hmem _

theorem Activating.activateBestChain (h : Activating env call pblock s₀ s) (rounds : ℕ)
    (mostWork : Option BlockIndex) :
    Activating env call pblock s₀ (activateBestChain env call pblock rounds mostWork s).1 := by
  induction rounds generalizing s mostWork with
  | zero => exact h
  | succ rounds ih =>
    unfold Validation.activateBestChain
    have chosen := h.kept (mostWorkChain_kept mostWork)
    cases hchosen : mostWorkChain s mostWork with
    | mk t r =>
      rw [hchosen] at chosen
      cases r with
      | error e => exact chosen
      | ok best =>
        cases best with
        | none => exact chosen
        | some pindexMostWork =>
          dsimp only
          split
          · exact chosen
          have hmem : ∀ b,
              (pblock.filter fun b => env.getHash b.header == pindexMostWork.hash) = some b →
              pblock = some b ∧ env.getHash b.header = pindexMostWork.hash := by
            intro b hb
            obtain ⟨hb, heq⟩ := Option.filter_eq_some_iff.mp hb
            exact ⟨hb, by simpa using heq⟩
          have stepped := chosen.activateBestChainStep pindexMostWork hmem
          cases hstep : Validation.activateBestChainStep env call t pindexMostWork
              (pblock.filter fun b => env.getHash b.header == pindexMostWork.hash) with
          | mk u r =>
            rw [hstep] at stepped
            cases r with
            | error e => exact stepped
            | ok fInvalidFound =>
              cases fInvalidFound with
              | true => exact ih stepped none
              | false =>
                dsimp only
                split
                · exact stepped
                · exact ih stepped (some pindexMostWork)

theorem Moves.forall_mem {P : ActiveBlock → Prop} (h : Moves env call pblock s chain)
    (start : ∀ b ∈ s.chainActive, P b)
    (connected : ∀ {b below node}, Connected env call pblock s below b node → P b) :
    ∀ b ∈ chain, P b := by
  induction h with
  | start => exact start
  | disconnect _ ih => exact fun b hb => ih b (List.mem_cons_of_mem _ hb)
  | connect _ hconnected ih =>
    intro b hb
    rcases List.mem_cons.mp hb with rfl | hb
    · exact connected hconnected
    · exact ih b hb

def Stacked (P : List ActiveBlock → ActiveBlock → Prop) : List ActiveBlock → Prop
  | [] => True
  | b :: below => (below ≠ [] → P below b) ∧ Stacked P below

theorem Stacked.at (h : Stacked P (above ++ b :: below)) :
    (below ≠ [] → P below b) ∧ Stacked P below := by
  induction above with
  | nil => exact h
  | cons a above ih => exact ih h.2

theorem Moves.stacked (h : Moves env call pblock s chain) (start : Stacked P s.chainActive)
    (connected : ∀ {b below node}, Connected env call pblock s below b node → below ≠ [] → P below b) :
    Stacked P chain := by
  induction h with
  | start => exact start
  | disconnect _ ih => exact ih.2
  | connect _ hconnected ih => exact ⟨connected hconnected, ih⟩

end

/-! ### The active chain is a branch of the tree -/

def LinkedChain (s : ChainState) : List ActiveBlock → Prop
  | [] => True
  | b :: below => (∃ node, s.node? b.hash = some node ∧
      node.ancestors.map Prod.fst = below.map ActiveBlock.hash) ∧ LinkedChain s below

variable {node : BlockNode}

section

variable {env : Env} {call : CallEnv} {pblock : Option CBlock} {s s' : ChainState}

theorem LinkedChain.mono (hnode : ∀ hash node, s.node? hash = some node → s'.node? hash = some node)
    (h : LinkedChain s chain) : LinkedChain s' chain := by
  induction chain with
  | nil => trivial
  | cons b below ih =>
    obtain ⟨⟨node, hb, hancestors⟩, hbelow⟩ := h
    exact ⟨⟨node, hnode _ _ hb, hancestors⟩, ih hbelow⟩

theorem Connected.linked (h : Connected env call pblock s below b node) (tree : TreeInv s)
    (linked : LinkedChain s below) :
    node.ancestors.map Prod.fst = below.map ActiveBlock.hash := by
  have hparent := h.parent
  cases hanc : node.ancestors with
  | nil =>
    rw [hanc] at hparent
    cases below with
    | nil => rfl
    | cons c below => exact absurd hparent (by simp)
  | cons p rest =>
    rw [hanc] at hparent
    cases below with
    | nil => exact absurd hparent (by simp)
    | cons c below =>
      have heq : p.1 = c.hash := by simpa using hparent
      obtain ⟨pnode, hp, -, rfl⟩ := tree.parent h.found hanc
      obtain ⟨⟨cnode, hc, hrest⟩, -⟩ := linked
      rw [heq, hc] at hp
      obtain rfl := Option.some.inj hp
      rw [List.map_cons, List.map_cons, heq, hrest]

theorem Moves.linked (h : Moves env call pblock s chain) (tree : TreeInv s)
    (start : LinkedChain s s.chainActive) : LinkedChain s chain := by
  induction h with
  | start => exact start
  | disconnect _ ih => exact ih.2
  | connect _ hconnected ih => exact ⟨⟨_, hconnected.found, hconnected.linked tree ih⟩, ih⟩

theorem LinkedChain.height (tree : TreeInv s) (h : LinkedChain s (above ++ b :: below)) :
    ∃ node, s.node? b.hash = some node ∧ node.index.nHeight = below.length := by
  induction above with
  | nil =>
    obtain ⟨⟨node, hnode, hancestors⟩, -⟩ := h
    refine ⟨node, hnode, ?_⟩
    rw [tree.height hnode, ← List.length_map (f := Prod.fst), hancestors, List.length_map]
  | cons a above ih => exact ih h.2

theorem LinkedChain.nodup (tree : TreeInv s) (linked : LinkedChain s chain) :
    (chain.map ActiveBlock.hash).Nodup := by
  induction chain with
  | nil => exact List.nodup_nil
  | cons b below ih =>
    refine List.nodup_cons.mpr ⟨fun mem => ?_, ih linked.2⟩
    obtain ⟨c, mem, same⟩ := List.mem_map.mp mem
    obtain ⟨above, rest, rfl⟩ := List.append_of_mem mem
    obtain ⟨⟨node, found, ancestors⟩, linked⟩ := linked
    obtain ⟨_, found', height⟩ := linked.height tree
    rw [same, found] at found'
    cases found'
    have length := congrArg List.length ancestors
    simp only [List.length_map, List.length_append, List.length_cons] at length
    rw [tree.height found] at height
    omega

end

/-! ### Accepting a block -/

structure Accepting (env : Env) (block : CBlock) (s s' : ChainState) : Prop where
  node : NodeStep env block.header s s'
  data : ∀ {hash b}, s'.data? hash = some b → s.data? hash = some b ∨ b = block
  chainActive : s'.chainActive = s.chainActive

variable {block' : CBlock} {hash : Uint256}

section

variable {env : Env} {call : CallEnv} {s s' : ChainState} {block : CBlock}

theorem HeaderStep.accepting (h : HeaderStep env block.header s s') : Accepting env block s s' :=
  ⟨h.node, fun hb => Or.inl (h.data ▸ hb), h.chainActive⟩

theorem data?_storeBlock {k : Uint256} {b : CBlock}
    (h : (s.update hash (storeBlock block)).data? k = some b) : s.data? k = some b ∨ b = block := by
  unfold ChainState.data? at h ⊢
  rw [ChainState.getElem?_update] at h
  split at h
  · cases hk : s.mapBlockIndex[k]? with
    | none => simp [hk] at h
    | some e =>
      simp only [hk, Option.map_some, Option.bind_some, storeBlock,
        BlockIndex.raiseValidity_data] at h
      exact Or.inr (Option.some.inj h).symm
  · exact Or.inl h

theorem receivedBlockTransactions_accepting (hash : Uint256)
    (h : HeaderStep env block.header s s') :
    Accepting env block s (receivedBlockTransactions s' block hash) := by
  have kept := receivedBlockTransactions_kept (s := s') block hash
  have stored : (s'.update hash (storeBlock block)).node? = s'.node? :=
    ChainState.node?_update fun e => BlockIndex.raiseValidity_node _ _
  refine ⟨?_, ?_, kept.chainActive.trans h.chainActive⟩
  · have hnode := h.node
    unfold NodeStep at hnode ⊢
    rw [kept.node, stored]
    exact hnode
  · intro k b hb
    rw [kept.data] at hb
    rw [← h.data]
    exact data?_storeBlock hb

theorem acceptBlock_accepting (fRequested : Bool) :
    Accepting env block s (acceptBlock env call s block fRequested).1 := by
  unfold acceptBlock
  have accepted : HeaderStep env block.header s (acceptBlockHeader env call s block.header).1 :=
    acceptBlockHeader_step
  cases hres : acceptBlockHeader env call s block.header with
  | mk t r =>
    rw [hres] at accepted
    cases r with
    | error e => exact accepted.accepting
    | ok hash =>
      dsimp only
      cases t.mapBlockIndex[hash]? with
      | none => exact accepted.accepting
      | some pindex =>
        dsimp only
        split
        · exact accepted.accepting
        split
        · exact receivedBlockTransactions_accepting hash accepted
        · exact accepted.accepting

theorem checkBlock_ok_same {ismaxcash fCheckPOW fCheckMerkleRoot : Bool} {nHeight : ℤ}
    (h : checkBlock env ismaxcash block nHeight fCheckPOW fCheckMerkleRoot = .ok block') :
    block'.header = block.header ∧ block'.vtx = block.vtx := by
  unfold checkBlock at h
  split at h
  · obtain rfl := pure_eq_ok.mp h
    exact ⟨rfl, rfl⟩
  · simp only [bind_eq_ok, pure_eq_ok] at h
    obtain ⟨_, -, _, -, _, -, _, -, _, -, rfl⟩ := h
    exact ⟨rfl, rfl⟩

theorem fillBlock_header {header : CBlockHeader} {available : List (Option CTransaction)}
    {missing : List CTransaction} (h : (fillBlock env s header available missing).2 = some block) :
    block.header = header := by
  unfold fillBlock at h
  cases hfill : fillTransactions available missing with
  | none => simp [hfill] at h
  | some vtx =>
    simp only [hfill] at h
    cases hcheck : checkBlock env (env.isMaxCash s.tipHeight?) ⟨header, vtx, false⟩ 0 true true with
    | ok block' =>
      simp only [hcheck, Option.some.injEq] at h
      rw [← h]
      exact (checkBlock_ok_same hcheck).1
    | error r =>
      simp only [hcheck] at h
      split at h
      · exact absurd h (by simp)
      · rw [← Option.some.inj h]

end

/-! ### Runs -/

theorem TipFree.congr {env : Env} {block : CBlock} (h : TipFree env block)
    (hheader : block'.header = block.header) (hvtx : block'.vtx = block.vtx) :
    TipFree env block' := by
  obtain ⟨header, vtx, fChecked⟩ := block
  obtain ⟨header', vtx', fChecked'⟩ := block'
  cases hheader
  cases hvtx
  exact ⟨h.header, h.merkleRoot, h.layout, h.txs, h.sigOps⟩

/-- A header, a full block, or a block that is rebuilt from a compact one. -/
inductive Input where
  | header (call : CallEnv) (header : CBlockHeader)
  | block (call : CallEnv) (header : CBlockHeader) (vtx : List CTransaction)
      (fForceProcessing : Bool) (rounds : ℕ)
  | compactBlock (call : CallEnv) (header : CBlockHeader) (available : List (Option CTransaction))
      (missing : List CTransaction) (rounds : ℕ)

namespace Input

def call : Input → CallEnv
  | .header call _ => call
  | .block call _ _ _ _ => call
  | .compactBlock call _ _ _ _ => call

def blockHeader : Input → CBlockHeader
  | .header _ h => h
  | .block _ h _ _ _ => h
  | .compactBlock _ h _ _ _ => h

def submitted (env : Env) (s : ChainState) : Input → Option CBlock
  | .header _ _ => none
  | .block _ h vtx _ _ => some ⟨h, vtx, false⟩
  | .compactBlock _ h available missing _ => (fillBlock env s h available missing).2

end Input

section

variable (env : Env)

def step (s : ChainState) : Input → ChainState
  | .header call header => (acceptBlockHeader env call s header).1
  | .block call header vtx fForceProcessing rounds =>
    (processNewBlock env call s ⟨header, vtx, false⟩ fForceProcessing rounds).1
  | .compactBlock call header available missing rounds =>
    match (fillBlock env s header available missing).2 with
    | none => s
    | some block => (processNewBlock env call s block true rounds).1

def genesisIndex : BlockIndex where
  hash := env.hashGenesisBlock
  index := ⟨0, env.genesis.header.nVersion, env.genesis.header.nTime, env.genesis.header.nBits⟩
  ancestors := []
  nChainWork := env.getBlockProof
    [⟨0, env.genesis.header.nVersion, env.genesis.header.nTime, env.genesis.header.nBits⟩]
  nTx := env.genesis.vtx.length
  nChainTx := env.genesis.vtx.length
  nSequenceId := 0
  validity := BLOCK_VALID_SCRIPTS
  data := some env.genesis
  failedValid := false
  failedChild := false
  conflictChainlock := false

def initial : ChainState where
  mapBlockIndex := (∅ : Std.ExtTreeMap Uint256 BlockIndex).insert env.hashGenesisBlock
    (genesisIndex env)
  chainActive := [⟨env.hashGenesisBlock, env.genesis⟩]
  setBlockIndexCandidates := [env.hashGenesisBlock]
  mapBlocksUnlinked := []
  nBlockSequenceId := 1
  failedBlocks := []
  pindexBestHeader := some env.hashGenesisBlock

def run (s : ChainState) (inputs : List Input) : ChainState := inputs.foldl (step env) s

def Meets (Cond : ChainState → Input → Prop) : ChainState → List Input → Prop
  | _, [] => True
  | s, input :: inputs => Cond s input ∧ Meets Cond (step env s input) inputs

variable {env}
variable {s : ChainState}

theorem run_inv {I : ChainState → Prop} {Cond : ChainState → Input → Prop}
    (preserved : ∀ s input, I s → Cond s input → I (step env s input)) {inputs : List Input}
    (init : I s) (meets : Meets env Cond s inputs) :
    I (run env s inputs) := by
  induction inputs generalizing s with
  | nil => exact init
  | cons input inputs ih => exact ih (preserved s input init meets.1) meets.2

theorem initial_node? :
    (initial env).node? hash = some node ↔
      hash = env.hashGenesisBlock ∧ node = (genesisIndex env).toBlockNode := by
  unfold ChainState.node? initial
  rw [Keyed.getElem?_insert_eq]
  by_cases hk : hash = env.hashGenesisBlock
  · simp [hk, eq_comm]
  · simp [hk]

theorem initial_treeInv : TreeInv (initial env) := by
  refine ⟨?_, ?_, ?_⟩
  · intro hash node hnode
    obtain ⟨rfl, rfl⟩ := initial_node?.mp hnode
    rfl
  · intro hash node hnode
    obtain ⟨rfl, rfl⟩ := initial_node?.mp hnode
    rfl
  · intro hash node p rest hnode hanc
    obtain ⟨rfl, rfl⟩ := initial_node?.mp hnode
    exact absurd hanc (by simp [genesisIndex])

theorem initial_linked : LinkedChain (initial env) (initial env).chainActive :=
  ⟨⟨_, initial_node?.mpr ⟨rfl, rfl⟩, rfl⟩, trivial⟩

theorem processNewBlock_cases (call : CallEnv) (s : ChainState) (block : CBlock)
    (fForceProcessing : Bool) (rounds : ℕ) :
    (processNewBlock env call s block fForceProcessing rounds).1 = s ∨
      ∃ block' s₁, checkNewBlock env s block = .ok block' ∧ Accepting env block' s s₁ ∧
        Activating env call (some block') s₁
          (processNewBlock env call s block fForceProcessing rounds).1 := by
  unfold processNewBlock
  split
  · exact Or.inl rfl
  cases hcheck : checkNewBlock env s block with
  | error r => exact Or.inl rfl
  | ok block' =>
    dsimp only
    have accepted : Accepting env block' s (acceptBlock env call s block' fForceProcessing).1 :=
      acceptBlock_accepting fForceProcessing
    cases hres : acceptBlock env call s block' fForceProcessing with
    | mk t r =>
      rw [hres] at accepted
      refine Or.inr ⟨block', t, rfl, accepted, ?_⟩
      cases r with
      | error e => exact Activating.refl
      | ok u => exact Activating.refl.activateBestChain rounds none

variable (env) in
theorem step_cases (s : ChainState) (input : Input) :
    HeaderStep env input.blockHeader s (step env s input) ∨
      ∃ block block' s₁, input.submitted env s = some block ∧ block.header = input.blockHeader ∧
        checkNewBlock env s block = .ok block' ∧ Accepting env block' s s₁ ∧
        Activating env input.call (some block') s₁ (step env s input) := by
  cases input with
  | header call header => exact Or.inl acceptBlockHeader_step
  | block call header vtx fForceProcessing rounds =>
    rcases processNewBlock_cases call s ⟨header, vtx, false⟩ fForceProcessing rounds with
      hsame | ⟨block', s₁, hcheck, haccept, hactivate⟩
    · refine Or.inl ?_
      change HeaderStep env header s (processNewBlock env call s _ fForceProcessing rounds).1
      rw [hsame]
      exact HeaderStep.refl
    · exact Or.inr ⟨_, block', s₁, rfl, rfl, hcheck, haccept, hactivate⟩
  | compactBlock call header available missing rounds =>
    change HeaderStep env header s (match (fillBlock env s header available missing).2 with
        | none => s
        | some block => (processNewBlock env call s block true rounds).1) ∨
      ∃ block block' s₁, (fillBlock env s header available missing).2 = some block ∧
        block.header = header ∧ checkNewBlock env s block = .ok block' ∧
        Accepting env block' s s₁ ∧ Activating env call (some block') s₁
          (match (fillBlock env s header available missing).2 with
          | none => s
          | some block => (processNewBlock env call s block true rounds).1)
    cases hfill : (fillBlock env s header available missing).2 with
    | none => exact Or.inl HeaderStep.refl
    | some block =>
      dsimp only
      rcases processNewBlock_cases call s block true rounds with
        hsame | ⟨block', s₁, hcheck, haccept, hactivate⟩
      · refine Or.inl ?_
        rw [hsame]
        exact HeaderStep.refl
      · exact Or.inr ⟨block, block', s₁, rfl, fillBlock_header hfill, hcheck, haccept, hactivate⟩

variable (env) in
theorem step_nodeStep (s : ChainState) (input : Input) :
    ∃ header, NodeStep env header s (step env s input) := by
  rcases step_cases env s input with hstep | ⟨block, block', s₁, -, -, -, haccept, hactivate⟩
  · exact ⟨_, hstep.node⟩
  · refine ⟨block'.header, ?_⟩
    have node := haccept.node
    unfold NodeStep at node ⊢
    rw [hactivate.node]
    exact node

variable (env) in
theorem step_linked (input : Input) (h : TreeInv s ∧ LinkedChain s s.chainActive) :
    TreeInv (step env s input) ∧ LinkedChain (step env s input) (step env s input).chainActive := by
  rcases step_cases env s input with
    hstep | ⟨block, block', s₁, -, -, -, haccept, hactivate⟩
  · refine ⟨hstep.node.treeInv h.1, ?_⟩
    rw [hstep.chainActive]
    exact h.2.mono fun _ _ => hstep.node.old
  · have tree := haccept.node.treeInv h.1
    have start : LinkedChain s₁ s₁.chainActive := by
      rw [haccept.chainActive]
      exact h.2.mono fun _ _ => haccept.node.old
    have same : ∀ hash node, s₁.node? hash = some node →
        (step env s input).node? hash = some node := by
      intro hash node hnode
      rw [hactivate.node, hnode]
    refine ⟨⟨?_, ?_, ?_⟩, (hactivate.moves.linked tree start).mono same⟩
    · intro hash node hnode
      exact tree.hash (hactivate.node ▸ hnode)
    · intro hash node hnode
      exact tree.height (hactivate.node ▸ hnode)
    · intro hash node p rest hnode hanc
      rw [hactivate.node] at hnode ⊢
      exact tree.parent hnode hanc

/-- In every run the heights of the index count ancestors, and the active chain is one branch of the
tree: the ancestors of each block are the blocks below it, and none occurs twice. -/
theorem run_branch (env : Env) (inputs : List Input) :
    let s := run env (initial env) inputs
    TreeInv s ∧ LinkedChain s s.chainActive ∧ (s.chainActive.map ActiveBlock.hash).Nodup := by
  intro s
  obtain ⟨tree, linked⟩ : TreeInv s ∧ LinkedChain s s.chainActive :=
    List.foldlRecOn inputs (step env) (motive := fun s => TreeInv s ∧ LinkedChain s s.chainActive)
      ⟨initial_treeInv, initial_linked⟩ fun _ h input _ => step_linked env input h
  exact ⟨tree, linked, linked.nodup tree⟩

def ActiveAll (P : BlockNode → CBlock → Prop) (s : ChainState) : Prop :=
  ∀ b ∈ s.chainActive, ∃ node, s.node? b.hash = some node ∧ P node b.block

variable {input : Input}

theorem step_activeAll {P : BlockNode → CBlock → Prop} (h : ActiveAll P s)
    (connected : ∀ {block block' s₁ below b node}, input.submitted env s = some block → checkNewBlock env s block = .ok block' → Accepting env block' s s₁ → Connected env input.call (some block') s₁ below b node → P node b.block) :
    ActiveAll P (step env s input) := by
  rcases step_cases env s input with
    hstep | ⟨block, block', s₁, hsub, -, hcheck, haccept, hactivate⟩
  · intro b hb
    rw [hstep.chainActive] at hb
    obtain ⟨node, hnode, hP⟩ := h b hb
    exact ⟨node, hstep.node.old hnode, hP⟩
  · intro b hb
    rw [hactivate.node]
    refine hactivate.moves.forall_mem
      (P := fun b => ∃ node, s₁.node? b.hash = some node ∧ P node b.block) ?_ ?_ b hb
    · intro b hb
      rw [haccept.chainActive] at hb
      obtain ⟨node, hnode, hP⟩ := h b hb
      exact ⟨node, haccept.node.old hnode, hP⟩
    · intro b below node hconnected
      exact ⟨node, hconnected.found, connected hsub hcheck haccept hconnected⟩

theorem step_stacked (h : Stacked P s.chainActive)
    (connected : ∀ {block block' s₁ below b node}, input.submitted env s = some block → checkNewBlock env s block = .ok block' → Accepting env block' s s₁ → Connected env input.call (some block') s₁ below b node → below ≠ [] → P below b) :
    Stacked P (step env s input).chainActive := by
  rcases step_cases env s input with
    hstep | ⟨block, block', s₁, hsub, -, hcheck, haccept, hactivate⟩
  · rw [hstep.chainActive]
    exact h
  · refine hactivate.moves.stacked (haccept.chainActive.symm ▸ h) ?_
    exact connected hsub hcheck haccept

/-! ### The blocks that are submitted -/

/-- A block that `ProcessNewBlock` lets through has passed the checks that read neither the tip nor
the height, here or when it was rebuilt. -/
theorem submitted_tipFree {block : CBlock} (submitted : input.submitted env s = some block)
    (checked : checkNewBlock env s block = .ok block') : TipFree env block := by
  cases hchecked : block.fChecked with
  | false => exact ((checkBlock_isOk_iff hchecked).mp ⟨block', checked⟩).1
  | true =>
    cases input with
    | header call header => cases submitted
    | block call header vtx fForceProcessing rounds =>
      cases submitted
      cases hchecked
    | compactBlock call header available missing rounds =>
      simp only [Input.submitted, fillBlock] at submitted
      cases hfill : fillTransactions available missing with
      | none => simp [hfill] at submitted
      | some vtx =>
        simp only [hfill] at submitted
        cases hcheck : checkBlock env (env.isMaxCash s.tipHeight?) ⟨header, vtx, false⟩ 0 true
            true with
        | ok filled =>
          simp only [hcheck, Option.some.injEq] at submitted
          obtain ⟨hheader, hvtx⟩ := checkBlock_ok_same hcheck
          obtain ⟨free, -⟩ := (checkBlock_isOk_iff rfl).mp ⟨filled, hcheck⟩
          exact free.congr (submitted ▸ hheader) (submitted ▸ hvtx)
        | error r =>
          simp only [hcheck] at submitted
          split at submitted
          · cases submitted
          · cases submitted
            cases hchecked

end

end ButCore.Validation
