import ButCore.Coins.Undo
import ButCore.Evo.BuildSafety
import ButCore.Llmq.BlockProcessor
import ButCore.Validation.ChainRules

/-!
# The coins of a chain

Every block of a chain is connected to an empty cache over the coins that the blocks below it left.
-/
namespace ButCore.ChainCoins

open AddressIndex Checked CCoinsViewCache
open Validation (ActiveBlock CBlock Fault Stacked TipFree)

/-- What `ConnectBlock` reads besides the coins: the indexes that are kept, the quorum parameters,
and what the smartnode code sees from the block below. -/
structure ConnectEnv where
  cfg : IndexConfig
  processor : Llmq.BlockProcessor.ProcessorEnv
  evo : List ActiveBlock → Evo.Env
  mnList : List ActiveBlock → Evo.CDeterministicMNList
  prevHeight_eq : ∀ below, (evo below).prevHeight + 1 = below.length

abbrev Coins := COutPoint → Option Coin

def freshView (coins : Coins) : CCoinsViewCache := ⟨coins, ∅⟩

/-- The coins that a chain leaves. The transactions of genesis are not connected. -/
def chainCoins (cfg : IndexConfig) : List ActiveBlock → Except ConnectFault Coins
  | [] => .ok fun _ => none
  | [_] => .ok fun _ => none
  | b :: pprev :: below => do
    let coins ← chainCoins cfg (pprev :: below)
    let (_, _, V) ← connectBlock cfg (below.length + 1) b.block.vtx (freshView coins)
    pure V.lookup

def ofConnect : ConnectFault → Fault
  | .invalid r => .invalid r
  | .coins _ => .assertion

def ofEvo : Evo.Fault → Fault
  | .reject r => .invalid (Validation.reject r.dos r.reason)
  | .assertion _ => .assertion

def ofProcessor : Llmq.BlockProcessor.Fault → Fault
  | .invalid reason => .invalid (Validation.reject 100 reason)
  | .outOfRange => .assertion

/-- The rules of `ConnectBlock` on coins and on special transactions. -/
def connectRules (ce : ConnectEnv) (below : List ActiveBlock) (block : CBlock) :
    Except Fault Unit := do
  let coins ← (chainCoins ce.cfg below).mapError ofConnect
  let _ ← (connectBlock ce.cfg below.length block.vtx (freshView coins)).mapError ofConnect
  block.vtx.forM fun tx =>
    (Evo.checkSpecialTx (ce.evo below) (ce.mnList below) tx).mapError ofEvo
  let _ ← (Llmq.BlockProcessor.getCommitmentsFromBlock ce.processor ⟨0, block.vtx⟩).mapError
    ofProcessor
  pure ()

structure Passes (ce : ConnectEnv) (below : List ActiveBlock) (block : CBlock) (coins : Coins)
    (V : CCoinsViewCache) : Prop where
  parent : chainCoins ce.cfg below = .ok coins
  connected : ∃ undos batch,
    connectBlock ce.cfg below.length block.vtx (freshView coins) = .ok (undos, batch, V)
  special : ∀ tx ∈ block.vtx, Evo.checkSpecialTx (ce.evo below) (ce.mnList below) tx = .ok ()
  commitments : ∃ qcs,
    Llmq.BlockProcessor.getCommitmentsFromBlock ce.processor ⟨0, block.vtx⟩ = .ok qcs

theorem connectRules_ok {ce : ConnectEnv} {below : List ActiveBlock} {block : CBlock}
    (h : connectRules ce below block = .ok ()) : ∃ coins V, Passes ce below block coins V := by
  simp only [connectRules, bind_eq_ok, mapError_eq_ok, forM_eq_ok, Prod.exists] at h
  obtain ⟨coins, hparent, undos, batch, V, hconnected, _, hspecial, qcs, hqcs, -⟩ := h
  exact ⟨coins, V, hparent, ⟨undos, batch, hconnected⟩, hspecial, qcs, hqcs⟩

/-! ### Transactions that were connected -/

/-- The coins come from transactions that are done, and what these have spent is gone. -/
structure Settled (done : Set CTransaction) (coins : Coins) : Prop where
  created : ∀ {o coin}, coins o = some coin → ∃ tx ∈ done, tx.hash = o.hash
  spent : ∀ {tx}, tx ∈ done → ∀ o ∈ tx.spends, coins o = none ∧ ∃ tx' ∈ done, tx'.hash = o.hash

variable {coins : Coins}

section

variable {done : Set CTransaction} {nHeight : ℕ} {tx : CTransaction} {spent : List Coin}
  {before after : Coins}

variable {o : COutPoint}

theorem holds_present {os : List COutPoint} (held : Holds coins os spent) (mem : o ∈ os) : ∃ coin, coins o = some coin := by
  induction held with
  | nil => cases mem
  | cons present _ ih =>
    rcases List.mem_cons.mp mem with rfl | mem
    · exact ⟨_, present⟩
    · exact ih mem

theorem connects_cases {coin : Coin} (connects : Connects nHeight tx spent before after)
    (shape : TxShape tx) (present : after o = some coin) :
    before o = some coin ∧ o ∉ tx.spends ∨ o.hash = tx.hash :=
  (connects.origin shape present).imp_right created_hash

/-- A transaction that finds its inputs is new: the inputs of an old one are gone. Those without
inputs have to be new for another reason. -/
theorem Settled.fresh (inv : Settled done before) (held : Holds before tx.spends spent)
    (collisionFree : ∀ tx' ∈ done, tx'.hash = tx.hash → tx' = tx)
    (inputless : tx.spends = [] → tx ∉ done) : ∀ tx' ∈ done, tx'.hash ≠ tx.hash := by
  intro tx' hdone hsame
  obtain rfl := collisionFree tx' hdone hsame
  cases hspends : tx'.spends with
  | nil => exact inputless hspends hdone
  | cons o os =>
    rw [hspends] at held
    cases held with
    | cons present _ =>
      have gone := (inv.spent hdone o (by rw [hspends]; exact List.mem_cons_self)).1
      rw [gone] at present
      cases present

theorem Settled.connects (inv : Settled done before)
    (connects : Connects nHeight tx spent before after) (shape : TxShape tx)
    (fresh : ∀ tx' ∈ done, tx'.hash ≠ tx.hash) : Settled (insert tx done) after := by
  -- what a done transaction has spent was created by a done one, so it is no output of `tx`
  have stays : ∀ o, before o = none ∨ o ∈ tx.spends → (∃ tx' ∈ done, tx'.hash = o.hash) →
      after o = none := by
    rintro o hgone ⟨tx', hdone, hhash⟩
    rw [Option.eq_none_iff_forall_ne_some]
    intro coin present
    rcases connects_cases connects shape present with ⟨hbefore, hkept⟩ | hown
    · rcases hgone with hgone | hspent
      · rw [hgone] at hbefore
        cases hbefore
      · exact hkept hspent
    · exact fresh tx' hdone (hhash.trans hown)
  have widen : ∀ {o : COutPoint}, (∃ tx' ∈ done, tx'.hash = o.hash) →
      ∃ tx' ∈ insert tx done, tx'.hash = o.hash := by
    rintro o ⟨tx', hdone, hhash⟩
    exact ⟨tx', Set.mem_insert_of_mem tx hdone, hhash⟩
  refine ⟨?_, ?_⟩
  · intro o coin present
    rcases connects_cases connects shape present with ⟨hbefore, -⟩ | hown
    · exact widen (inv.created hbefore)
    · exact ⟨tx, Set.mem_insert tx done, hown.symm⟩
  · intro tx' hdone o ho
    rcases Set.mem_insert_iff.mp hdone with rfl | hdone
    · obtain ⟨coin, present⟩ := holds_present connects.held ho
      have origin := inv.created present
      exact ⟨stays o (Or.inr ho) origin, widen origin⟩
    · obtain ⟨hgone, origin⟩ := inv.spent hdone o ho
      exact ⟨stays o (Or.inl hgone) origin, widen origin⟩

end

/-! ### The transactions of a block -/

variable {vtx : List CTransaction}

section

variable {cfg : IndexConfig} {nHeight : ℕ} {hidden : COutPoint → Prop} {V V' : CCoinsViewCache}
  {done old : Set CTransaction} {txs : List (CTransaction × ℕ)} {undos : List CTxUndo}
  {batch : IndexBatch}

/-- One round of the loop: the transaction is new, and then it is done. The outpoints that no
transaction before the block has created are hidden from the cache. -/
theorem Settled.connectTx {tx : CTransaction} {txindex : ℕ} {undo : CTxUndo}
    (inv : Settled done V.lookup) (view : Over hidden V) (shape : TxShape tx) (subset : old ⊆ done)
    (unseen : ∀ o, (∀ tx' ∈ old, tx'.hash ≠ o.hash) → hidden o)
    (collisionFree : ∀ tx' ∈ done, tx'.hash = tx.hash → tx' = tx)
    (inputless : tx.spends = [] → tx ∉ done)
    (connected : ButCore.connectTx cfg nHeight tx txindex V = .ok (undo, batch, V')) :
    (∀ tx' ∈ old, tx'.hash ≠ tx.hash) ∧ Over hidden V' ∧ Settled (insert tx done) V'.lookup := by
  have found : (V.haveInputs tx).1 = true := by
    simp only [ButCore.connectTx, bind_eq_ok, require_eq_ok] at connected
    obtain ⟨_, found, -⟩ := connected
    exact found
  obtain ⟨-, -, spent, held⟩ := view.haveInputs found
  have fresh := inv.fresh held collisionFree inputless
  have freshOld : ∀ tx' ∈ old, tx'.hash ≠ tx.hash := fun tx' h => fresh tx' (subset h)
  have vacant : ∀ created ∈ spendableCoins (tx.coins nHeight), V.lookup created.1 = none := by
    intro created mem
    rw [Option.eq_none_iff_forall_ne_some]
    intro coin present
    obtain ⟨tx', hdone, hhash⟩ := inv.created present
    exact fresh tx' hdone (hhash.trans (created_hash mem))
  have seen : ∀ created ∈ spendableCoins (tx.coins nHeight), hidden created.1 := by
    intro created mem
    apply unseen
    rw [created_hash mem]
    exact freshOld
  obtain ⟨after, connects, -⟩ := view.connectTx shape seen (fun _ => vacant) connected
  exact ⟨freshOld, after, inv.connects connects shape fresh⟩

def InputlessDistinct (txs : List CTransaction) : Prop :=
  txs.Pairwise fun a b => a.spends = [] → a ≠ b

theorem Settled.connectTxs (inv : Settled done V.lookup) (view : Over hidden V)
    (shape : ∀ entry ∈ txs, TxShape entry.1) (subset : old ⊆ done)
    (unseen : ∀ o, (∀ tx' ∈ old, tx'.hash ≠ o.hash) → hidden o)
    (collisionFree : ∀ entry ∈ txs, ∀ tx', tx' ∈ done ∨ tx' ∈ txs.map Prod.fst →
      tx'.hash = entry.1.hash → tx' = entry.1)
    (distinct : InputlessDistinct (txs.map Prod.fst))
    (inputless : ∀ entry ∈ txs, entry.1.spends = [] → entry.1 ∉ done)
    (connected : ButCore.connectTxs cfg nHeight txs V = .ok (undos, batch, V')) :
    (∀ entry ∈ txs, ∀ tx' ∈ old, tx'.hash ≠ entry.1.hash) ∧
      Settled ({tx | tx ∈ txs.map Prod.fst} ∪ done) V'.lookup := by
  induction txs generalizing V done undos batch with
  | nil =>
    cases connected
    exact ⟨by simp, by simpa using inv⟩
  | cons entry txs ih =>
    obtain ⟨tx, txindex⟩ := entry
    simp only [ButCore.connectTxs, bind_eq_ok, pure_eq_ok, Prod.exists,
      Prod.mk.injEq] at connected
    obtain ⟨undo, batch₁, W, first, undos', batches, W', rest, rfl, rfl, rfl⟩ := connected
    rw [List.forall_mem_cons] at shape inputless collisionFree
    rw [List.map_cons, InputlessDistinct, List.pairwise_cons] at distinct
    obtain ⟨fresh, next, settled⟩ := inv.connectTx view shape.1 subset unseen
      (fun tx' hdone => collisionFree.1 tx' (Or.inl hdone)) inputless.1 first
    have collisionFreeRest : ∀ entry ∈ txs, ∀ tx',
        tx' ∈ insert tx done ∨ tx' ∈ txs.map Prod.fst → tx'.hash = entry.1.hash →
          tx' = entry.1 := by
      intro entry mem tx' hdone
      refine collisionFree.2 entry mem tx' ?_
      rcases hdone with (rfl | hdone) | hlater
      · exact Or.inr List.mem_cons_self
      · exact Or.inl hdone
      · exact Or.inr (List.mem_cons_of_mem _ hlater)
    have inputlessRest : ∀ entry ∈ txs, entry.1.spends = [] → entry.1 ∉ insert tx done := by
      rintro entry mem hspends (heq | hdone)
      · have hne := distinct.1 entry.1 (List.mem_map_of_mem mem)
        rw [heq] at hspends hne
        exact hne hspends rfl
      · exact inputless.2 entry mem hspends hdone
    obtain ⟨freshRest, last⟩ := ih settled next shape.2
      (subset.trans (Set.subset_insert tx done)) collisionFreeRest distinct.2 inputlessRest rest
    refine ⟨?_, ?_⟩
    · rw [List.forall_mem_cons]
      exact ⟨fresh, freshRest⟩
    · convert last using 1
      ext tx'
      simp only [List.map_cons, List.mem_cons, Set.mem_union, Set.mem_ofPred_eq,
        Set.mem_insert_iff]
      tauto

theorem freshView_sound (coins : Coins) : (freshView coins).Sound := by
  refine ⟨?_, ?_⟩ <;>
  · intro o entry h
    simp [freshView] at h

theorem Settled.connectBlock (inv : Settled done (freshView coins).lookup) (shape : BlockShape vtx)
    (collisionFree : ∀ tx ∈ vtx, ∀ tx', tx' ∈ done ∨ tx' ∈ vtx → tx'.hash = tx.hash → tx' = tx)
    (distinct : InputlessDistinct vtx) (inputless : ∀ tx ∈ vtx, tx.spends = [] → tx ∉ done)
    (connected : ButCore.connectBlock cfg nHeight vtx (freshView coins) = .ok (undos, batch, V')) :
    (∀ tx ∈ vtx, ∀ tx' ∈ done, tx'.hash ≠ tx.hash) ∧ Settled ({tx | tx ∈ vtx} ∪ done) V'.lookup := by
  simp only [ButCore.connectBlock, bind_eq_ok, pure_eq_ok, Prod.exists, Prod.mk.injEq] at connected
  obtain ⟨undos', batch', _, loop, -, -, rfl⟩ := connected
  have unseen : ∀ o, (∀ tx' ∈ done, tx'.hash ≠ o.hash) → (freshView coins).lookup o = none := by
    intro o unused
    rw [Option.eq_none_iff_forall_ne_some]
    intro coin present
    obtain ⟨tx', hdone, hhash⟩ := inv.created present
    exact unused tx' hdone hhash
  have member : ∀ entry ∈ vtx.zipIdx, entry.1 ∈ vtx := fun entry mem =>
    List.fst_mem_of_mem_zipIdx mem
  have all : vtx.zipIdx.map Prod.fst = vtx := List.zipIdx_map_fst 0 vtx
  obtain ⟨fresh, settled⟩ := inv.connectTxs (freshView_sound coins).over
    (fun entry mem => shape.txs _ (member entry mem)) subset_rfl unseen
    (fun entry mem => by rw [all]; exact collisionFree _ (member entry mem))
    (by rw [all]; exact distinct) (fun entry mem => inputless _ (member entry mem)) loop
  rw [all] at settled
  refine ⟨?_, settled⟩
  intro tx mem
  rw [← all] at mem
  obtain ⟨entry, hentry, rfl⟩ := List.mem_map.mp mem
  exact fresh entry hentry

end

/-! ### Transactions without inputs -/

def heightStamp (tx : CTransaction) : Option ℤ :=
  match tx.extraPayload with
  | .cbTx cbTx => some cbTx.nHeight
  | .finalCommitment qc => some qc.nHeight
  | _ => none

/-- A coinbase whose payload is checked: `ContextualCheckBlock` asks for the type, and
`CheckSpecialTx` leaves other versions alone. -/
def IsCbTx (tx : CTransaction) : Prop := tx.nVersion = 3 ∧ tx.nType = .coinbase

instance (tx : CTransaction) : Decidable (IsCbTx tx) := inferInstanceAs (Decidable (_ ∧ _))

def HasCbTx (block : CBlock) : Prop := ∃ tx ∈ block.vtx.head?, IsCbTx tx

instance (block : CBlock) : Decidable (HasCbTx block) :=
  inferInstanceAs (Decidable (∃ tx ∈ block.vtx.head?, IsCbTx tx))

/-- The hash of a transaction is that of its bytes, and only version 3 has a payload in them. -/
structure Serialized (txs : Set CTransaction) : Prop where
  collisionFree : ∀ tx ∈ txs, ∀ tx' ∈ txs, tx.hash = tx'.hash → tx = tx'
  payload : ∀ tx ∈ txs, tx.nVersion ≠ 3 → tx.extraPayload = .undecodable

def CountsOutputs (env : Validation.Env) : Prop :=
  ∀ vtx, ∀ tx ∈ vtx, tx.vout.length ≤ env.blockSize vtx

section

variable {env : Validation.Env} {ce : ConnectEnv} {below : List ActiveBlock} {block : CBlock}
  {coins : Coins} {V : CCoinsViewCache} {tx : CTransaction}

theorem blockShape_of_tipFree (sizes : CountsOutputs env) (checked : TipFree env block) :
    BlockShape block.vtx := by
  refine BlockShape.of_tipFree checked fun tx mem => ?_
  have layout := checked.layout
  simp only [Validation.checkLayout, bind_eq_ok, failIf_eq_ok, exists_const, not_or, not_lt]
    at layout
  obtain ⟨⟨-, -, hsize⟩, -⟩ := layout
  have hcount := sizes block.vtx tx mem
  have hmax : maxBlockSize true < 2 ^ 32 := by decide
  omega

variable {evo : Evo.Env}

theorem checkCbTx_height (h : Evo.checkCbTx evo tx = .ok ()) :
    heightStamp tx = some (evo.prevHeight + 1) := by
  simp only [Evo.checkCbTx, Evo.rejectMissing, bind_eq_ok, expect_eq_ok, Evo.rejectIf_eq_ok,
    not_not] at h
  obtain ⟨_, -, _, -, cbTx, hpayload, _, -, _, hheight, -⟩ := h
  unfold CTransaction.cbTxPayload at hpayload
  unfold heightStamp
  split at hpayload
  · next payload =>
      cases hpayload
      simp only [payload, hheight]
  · cases hpayload

theorem checkLLMQCommitment_height (h : Evo.checkLLMQCommitment evo tx = .ok ()) :
    heightStamp tx = some (evo.prevHeight + 1) := by
  simp only [Evo.checkLLMQCommitment, Evo.rejectMissing, bind_eq_ok, expect_eq_ok,
    Evo.rejectIf_eq_ok, not_not] at h
  obtain ⟨qc, hpayload, _, -, _, hheight, -⟩ := h
  simp only [heightStamp, CTransaction.finalCommitmentPayload_eq_some.mp hpayload, hheight]

theorem commitment_of_inputless (checked : Validation.TxTipFree env tx)
    (plain : tx.isCoinBase = false) (hspends : tx.spends = []) : tx.nType = .quorumCommitment := by
  have hvin : tx.vin = [] := by simpa [CTransaction.spends, plain] using hspends
  have size := checked.size
  simp only [Validation.checkTransactionSize, bind_eq_ok, failIf_eq_ok] at size
  obtain ⟨_, hempty, -⟩ := size
  by_contra htype
  exact hempty ⟨htype, hvin⟩

theorem payload_of_collected {ret qcs : List CFinalCommitment}
    (h : vtx.foldlM Llmq.BlockProcessor.collectCommitment ret = .ok qcs) (mem : tx ∈ vtx)
    (htype : tx.nType = .quorumCommitment) : ∃ qc, tx.finalCommitmentPayload = some qc := by
  induction vtx generalizing ret with
  | nil => cases mem
  | cons first rest ih =>
    obtain ⟨ret', hfirst, hrest⟩ := foldlM_cons_ok.mp h
    rcases List.mem_cons.mp mem with rfl | mem
    · rw [Llmq.BlockProcessor.collectCommitment, if_pos htype] at hfirst
      simp only [bind_eq_ok, expect_eq_ok] at hfirst
      obtain ⟨qc, hpayload, -⟩ := hfirst
      exact ⟨qc, hpayload⟩
    · exact ih hrest mem

theorem Passes.payload (passes : Passes ce below block coins V) (mem : tx ∈ block.vtx)
    (htype : tx.nType = .quorumCommitment) : ∃ qc, tx.finalCommitmentPayload = some qc := by
  obtain ⟨qcs, hqcs⟩ := passes.commitments
  unfold Llmq.BlockProcessor.getCommitmentsFromBlock at hqcs
  obtain ⟨ret, hret, -⟩ := bind_eq_ok.mp hqcs
  exact payload_of_collected hret mem htype

theorem Passes.heightStamp (passes : Passes ce below block coins V) (shape : BlockShape block.vtx)
    (checked : TipFree env block)
    (payload : ∀ tx ∈ block.vtx, tx.nVersion ≠ 3 → tx.extraPayload = .undecodable)
    (cbTx : HasCbTx block) (mem : tx ∈ block.vtx) (hspends : tx.spends = []) :
    heightStamp tx = some (below.length : ℤ) := by
  have special := passes.special tx mem
  rw [← ce.prevHeight_eq below]
  obtain ⟨first, rest, hvtx, -, plain⟩ := shape.coinbase
  have hmem := mem
  rw [hvtx, List.mem_cons] at hmem
  rcases hmem with rfl | hrest
  · obtain ⟨tx', hhead, hversion, htype⟩ := cbTx
    rw [hvtx, List.head?_cons, Option.mem_some_iff] at hhead
    cases hhead
    have hcheck := Evo.checkSpecialTx_ok hversion special
    rw [htype] at hcheck
    exact checkCbTx_height hcheck
  · have htype := commitment_of_inputless (checked.txs tx mem) (plain tx hrest) hspends
    obtain ⟨qc, hpayload⟩ := passes.payload mem htype
    have hversion : tx.nVersion = 3 := by
      by_contra hne
      have hempty := payload tx mem hne
      rw [CTransaction.finalCommitmentPayload_eq_some.mp hpayload] at hempty
      cases hempty
    have hcheck := Evo.checkSpecialTx_ok hversion special
    rw [htype] at hcheck
    exact checkLLMQCommitment_height hcheck

theorem Passes.inputlessDistinct (passes : Passes ce below block coins V)
    (shape : BlockShape block.vtx) (checked : TipFree env block) :
    InputlessDistinct block.vtx := by
  obtain ⟨qcs, hqcs⟩ := passes.commitments
  obtain ⟨perm, types⟩ := Llmq.BlockProcessor.getCommitmentsFromBlock_ok hqcs
  have distinct : ((block.vtx.filterMap Llmq.BlockProcessor.commitmentOf).map
      CFinalCommitment.llmqType).Nodup := (perm.map _).nodup_iff.mp types
  obtain ⟨first, rest, hvtx, coinbase, plain⟩ := shape.coinbase
  have carries : ∀ tx ∈ rest, tx.spends = [] →
      ∃ qc, Llmq.BlockProcessor.commitmentOf tx = some qc := by
    intro tx mem hspends
    have hmem : tx ∈ block.vtx := by
      rw [hvtx]
      exact List.mem_cons_of_mem first mem
    have htype := commitment_of_inputless (checked.txs tx hmem) (plain tx mem) hspends
    obtain ⟨qc, hpayload⟩ := passes.payload hmem htype
    exact ⟨qc.commitment, by simp [Llmq.BlockProcessor.commitmentOf, htype, hpayload]⟩
  rw [hvtx] at distinct ⊢
  have restDistinct : ((rest.filterMap Llmq.BlockProcessor.commitmentOf).map
      CFinalCommitment.llmqType).Nodup :=
    distinct.sublist (((List.sublist_cons_self first rest).filterMap _).map _)
  refine List.pairwise_cons.mpr ⟨?_, ?_⟩
  · rintro tx mem - rfl
    rw [plain first mem] at coinbase
    cases coinbase
  · clear hvtx distinct
    induction rest with
    | nil => exact List.Pairwise.nil
    | cons tx rest ih =>
      rw [List.forall_mem_cons] at plain carries
      refine List.pairwise_cons.mpr ⟨?_, ?_⟩
      · rintro tx' mem hspends rfl
        obtain ⟨qc, hqc⟩ := carries.1 hspends
        rw [List.filterMap_cons_some hqc, List.map_cons, List.nodup_cons] at restDistinct
        exact restDistinct.1 (List.mem_map_of_mem (List.mem_filterMap.mpr ⟨tx, mem, hqc⟩))
      · exact ih plain.2 carries.2
          (restDistinct.sublist (((List.sublist_cons_self tx rest).filterMap _).map _))

end

/-! ### Chains -/

def chainTxs (chain : List ActiveBlock) : Set CTransaction :=
  {tx | ∃ b ∈ chain.dropLast, tx ∈ b.block.vtx}

structure Accepted (env : Validation.Env) (ce : ConnectEnv) (below : List ActiveBlock)
    (b : ActiveBlock) : Prop where
  checked : TipFree env b.block
  rules : connectRules ce below b.block = .ok ()

/-- No output of the block goes where the chain below has a coin. -/
def NoOverwrite (cfg : IndexConfig) (below : List ActiveBlock) (b : ActiveBlock) : Prop :=
  ∃ coins, chainCoins cfg below = .ok coins ∧
    ∀ tx ∈ b.block.vtx, ∀ created ∈ tx.coins below.length, coins created.1 = none

/-- What holds of the coins of a chain, and why the next transaction without inputs is new. -/
structure ChainInv (cfg : IndexConfig) (chain : List ActiveBlock) (coins : Coins) : Prop where
  coins_eq : chainCoins cfg chain = .ok coins
  unspent : (freshView coins).lookup = coins
  settled : Settled (chainTxs chain) coins
  stamped : ∀ tx ∈ chainTxs chain, tx.spends = [] →
    ∃ nHeight : ℕ, heightStamp tx = some (nHeight : ℤ) ∧ nHeight < chain.length

section

variable {env : Validation.Env} {ce : ConnectEnv} {chain below : List ActiveBlock}
  {b pprev : ActiveBlock} {coins : Coins}

theorem mem_chainTxs_cons {tx : CTransaction} :
    tx ∈ chainTxs (b :: pprev :: below) ↔ tx ∈ b.block.vtx ∨ tx ∈ chainTxs (pprev :: below) := by
  simp [chainTxs, List.dropLast_cons_cons]

theorem freshView_lookup_of_view (V : CCoinsViewCache) : (freshView V.lookup).lookup = V.lookup := by
  funext o
  rw [lookup_of_not_cached (by simp [freshView])]
  change CCoinsViewCache.unspent (V.lookup o) = V.lookup o
  cases h : V.lookup o with
  | none => rfl
  | some coin => exact unspent_eq_some.mpr ⟨rfl, lookup_isSpent h⟩

theorem ChainInv.genesis {cfg : IndexConfig} (h : chain.length ≤ 1) :
    ChainInv cfg chain fun _ => none := by
  have none_ : chainTxs chain = ∅ := by
    match chain, h with
    | [], _ => simp [chainTxs]
    | [_], _ => simp [chainTxs]
  refine ⟨?_, ?_, ?_, ?_⟩
  · match chain, h with
    | [], _ => rfl
    | [_], _ => rfl
  · funext o
    rw [lookup_of_not_cached (by simp [freshView])]
    rfl
  · rw [none_]
    exact ⟨fun h => by simp at h, fun h => by simp at h⟩
  · rw [none_]
    simp

theorem ChainInv.connect (inv : ChainInv ce.cfg (pprev :: below) coins)
    (sizes : CountsOutputs env) (accepted : Accepted env ce (pprev :: below) b)
    (serialized : Serialized (chainTxs (b :: pprev :: below))) (cbTx : HasCbTx b.block) :
    NoOverwrite ce.cfg (pprev :: below) b ∧ ∃ coins', ChainInv ce.cfg (b :: pprev :: below) coins' := by
  obtain ⟨coins', V, passes⟩ := connectRules_ok accepted.rules
  obtain rfl : coins' = coins := Except.ok.inj (passes.parent.symm.trans inv.coins_eq)
  have shape := blockShape_of_tipFree sizes accepted.checked
  have member : ∀ {tx}, tx ∈ b.block.vtx → tx ∈ chainTxs (b :: pprev :: below) := fun mem =>
    mem_chainTxs_cons.mpr (Or.inl mem)
  have stamp : ∀ {tx}, tx ∈ b.block.vtx → tx.spends = [] →
      heightStamp tx = some ((pprev :: below).length : ℤ) := fun mem hspends =>
    passes.heightStamp shape accepted.checked (fun tx mem => serialized.payload tx (member mem))
      cbTx mem hspends
  obtain ⟨undos, batch, connected⟩ := passes.connected
  have settled : Settled (chainTxs (pprev :: below)) (freshView coins').lookup := by
    rw [inv.unspent]
    exact inv.settled
  have collisionFree : ∀ tx ∈ b.block.vtx, ∀ tx',
      tx' ∈ chainTxs (pprev :: below) ∨ tx' ∈ b.block.vtx → tx'.hash = tx.hash → tx' = tx := by
    intro tx mem tx' mem' hsame
    exact serialized.collisionFree tx' (mem_chainTxs_cons.mpr mem'.symm) tx (member mem) hsame
  have inputless : ∀ tx ∈ b.block.vtx, tx.spends = [] → tx ∉ chainTxs (pprev :: below) := by
    intro tx mem hspends old
    obtain ⟨nHeight, hstamp, hlt⟩ := inv.stamped tx old hspends
    rw [stamp mem hspends, Option.some.injEq, Nat.cast_inj] at hstamp
    omega
  obtain ⟨fresh, settled'⟩ := settled.connectBlock shape collisionFree
    (passes.inputlessDistinct shape accepted.checked) inputless connected
  refine ⟨⟨coins', inv.coins_eq, ?_⟩, V.lookup, ?_, freshView_lookup_of_view V, ?_, ?_⟩
  · intro tx mem created hcreated
    rw [Option.eq_none_iff_forall_ne_some]
    intro coin present
    obtain ⟨tx', old, hhash⟩ := inv.settled.created present
    obtain ⟨⟨out, i⟩, -, rfl⟩ := List.mem_map.mp hcreated
    exact fresh tx mem tx' old hhash
  · rw [chainCoins, inv.coins_eq, ok_bind]
    rw [List.length_cons] at connected
    rw [connected]
    rfl
  · convert settled' using 1
    ext tx
    rw [mem_chainTxs_cons]
    rfl
  · intro tx mem hspends
    rcases mem_chainTxs_cons.mp mem with mem | old
    · exact ⟨_, stamp mem hspends, Nat.lt_succ_self _⟩
    · obtain ⟨nHeight, hstamp, hlt⟩ := inv.stamped tx old hspends
      exact ⟨nHeight, hstamp, Nat.lt_succ_of_lt hlt⟩

theorem Serialized.mono {txs txs' : Set CTransaction} (h : Serialized txs) (subset : txs' ⊆ txs) :
    Serialized txs' :=
  ⟨fun tx mem tx' mem' => h.collisionFree tx (subset mem) tx' (subset mem'),
    fun tx mem => h.payload tx (subset mem)⟩

theorem stacked_noOverwrite (sizes : CountsOutputs env) (stacked : Stacked (Accepted env ce) chain)
    (serialized : Serialized (chainTxs chain)) (cbTxs : ∀ b ∈ chain.dropLast, HasCbTx b.block) :
    Stacked (NoOverwrite ce.cfg) chain ∧ ∃ coins, ChainInv ce.cfg chain coins := by
  induction chain with
  | nil => exact ⟨trivial, _, ChainInv.genesis (by simp)⟩
  | cons b below ih =>
    cases below with
    | nil => exact ⟨⟨fun h => absurd rfl h, trivial⟩, _, ChainInv.genesis (by simp)⟩
    | cons pprev below =>
      rw [List.dropLast_cons_cons, List.forall_mem_cons] at cbTxs
      have subset : chainTxs (pprev :: below) ⊆ chainTxs (b :: pprev :: below) := fun tx mem =>
        mem_chainTxs_cons.mpr (Or.inr mem)
      obtain ⟨intact, coins, inv⟩ := ih stacked.2 (serialized.mono subset) cbTxs.2
      obtain ⟨intact', next⟩ := inv.connect sizes (stacked.1 (by simp)) serialized cbTxs.1
      exact ⟨⟨fun _ => intact', intact⟩, next⟩

def RollsBack (cfg : IndexConfig) (below : List ActiveBlock) (b : ActiveBlock) : Prop :=
  ∃ coins undos batch V batch' W, chainCoins cfg below = .ok coins ∧
    connectBlock cfg below.length b.block.vtx (freshView coins) = .ok (undos, batch, V) ∧
    chainCoins cfg (b :: below) = .ok V.lookup ∧
    disconnectBlock cfg below.length b.block.vtx undos (freshView V.lookup) = .ok (.ok, batch', W) ∧
    W.lookup = coins

theorem stacked_rollsBack (sizes : CountsOutputs env) (stacked : Stacked (Accepted env ce) chain)
    (intact : Stacked (NoOverwrite ce.cfg) chain) : Stacked (RollsBack ce.cfg) chain ∧
      ∀ coins, chainCoins ce.cfg chain = .ok coins → (freshView coins).lookup = coins ∧
        ∀ o coin, coins o = some coin → coin.Restorable := by
  induction chain with
  | nil =>
    have none_ : ChainInv ce.cfg [] fun _ => none := ChainInv.genesis (by simp)
    refine ⟨trivial, ?_⟩
    rintro _ ⟨⟩
    exact ⟨none_.unspent, by simp⟩
  | cons b below ih =>
    obtain ⟨rolls, restorable⟩ := ih stacked.2 intact.2
    cases below with
    | nil =>
      refine ⟨⟨fun h => absurd rfl h, trivial⟩, ?_⟩
      rintro _ ⟨⟩
      exact restorable _ rfl
    | cons pprev below =>
      have accepted := stacked.1 (by simp)
      have shape := blockShape_of_tipFree sizes accepted.checked
      obtain ⟨coins, hcoins, free⟩ := intact.1 (by simp)
      obtain ⟨_, V, passes⟩ := connectRules_ok accepted.rules
      cases passes.parent.symm.trans hcoins
      obtain ⟨undos, batch, connected⟩ := passes.connected
      obtain ⟨same, all⟩ := restorable coins hcoins
      have unused : Unused (pprev :: below).length b.block.vtx (freshView coins).lookup := by
        rw [same]
        exact fun tx mem created hcreated => free tx mem created (List.mem_of_mem_filter hcreated)
      rw [← same] at all
      have sound := freshView_sound coins
      obtain ⟨counts, -, entries, block⟩ := connectBlock_ledger sound shape unused connected
      have shapes : ∀ entry ∈ entries, TxShape entry.1.1 := fun entry h => shape.txs _ (block.mem h)
      obtain ⟨W, run, -, back⟩ := block.ledger.undo shapes
        (block.ledger.restorable (fun _ => True) (by simp) shapes (fun _ _ _ _ => trivial)
          fun o coin _ => all o coin) (s := ⟨true, .empty, freshView V.lookup⟩)
        (freshView_sound _).over (freshView_lookup_of_view V)
      rw [block.undos] at run
      have tip : disconnectBlock ce.cfg _ _ undos (freshView V.lookup) = .ok (.ok, _, W) :=
        bind_eq_ok.mpr ⟨(), require_eq_ok.mpr counts, bind_eq_ok.mpr ⟨_, run, rfl⟩⟩
      have next : chainCoins ce.cfg (b :: pprev :: below) = .ok V.lookup := by
        rw [chainCoins, hcoins, ok_bind]
        rw [List.length_cons] at connected
        rw [connected]
        rfl
      refine ⟨⟨fun _ => ⟨coins, undos, batch, V, _, W, hcoins, connected, next, tip,
        back.trans same⟩, rolls⟩, ?_⟩
      rw [next]
      rintro _ ⟨⟩
      exact ⟨freshView_lookup_of_view V,
        connectBlock_restorable sound shape (by simp) unused all connected⟩

end

section

open Validation

variable {env : Validation.Env} {ce : ConnectEnv}

/-- The rules that a call finds in `ConnectBlock` include those on coins and special
transactions. -/
def Enforces (ce : ConnectEnv) (call : CallEnv) : Prop :=
  ∀ below block, call.connectRules below block = .ok () → connectRules ce below block = .ok ()

structure AcceptInv (env : Validation.Env) (ce : ConnectEnv) (s : ChainState) : Prop where
  tree : TreeInv s
  genesis : s.node? env.hashGenesisBlock = some (genesisIndex env).toBlockNode
  stacked : Stacked (Accepted env ce) s.chainActive

variable {s : ChainState} {input : Input}

theorem accepted_of_connected {call : CallEnv} {s₁ : ChainState} {block block' : CBlock}
    {below : List ActiveBlock} {b : ActiveBlock} {node : BlockNode} (enforces : Enforces ce call)
    (tree : TreeInv s₁)
    (genesis : s₁.node? env.hashGenesisBlock = some (genesisIndex env).toBlockNode)
    (submitted : input.submitted env s = some block)
    (checked : checkNewBlock env s block = .ok block')
    (h : Connected env call (some block') s₁ below b node) (above : below ≠ []) :
    Accepted env ce below b := by
  refine ⟨connected_tipFree submitted checked h,
    enforces below b.block (h.rules.resolve_left fun heq => ?_)⟩
  -- genesis has no block below it
  rw [← h.hash, tree.hash h.found] at heq
  have found := h.found
  rw [heq, genesis] at found
  obtain rfl := Option.some.inj found
  have parent := h.parent
  cases below with
  | nil => exact above rfl
  | cons pprev below => simp [genesisIndex] at parent

theorem AcceptInv.step (inv : AcceptInv env ce s) (enforces : Enforces ce input.call) : AcceptInv env ce (Validation.step env s input) := by
  obtain ⟨header, hstep⟩ := step_nodeStep env s input
  refine ⟨hstep.treeInv inv.tree, hstep.old inv.genesis, ?_⟩
  apply step_stacked inv.stacked
  intro block block' s₁ below b node hsub hcheck haccept hconnected above
  exact accepted_of_connected enforces (haccept.node.treeInv inv.tree)
    (haccept.node.old inv.genesis) hsub hcheck hconnected above

theorem acceptInv_run {inputs : List Input} (enforced : ∀ input ∈ inputs, Enforces ce input.call) :
    AcceptInv env ce (run env (initial env) inputs) := by
  have meets : ∀ (s : ChainState), Meets env (fun _ input => Enforces ce input.call) s inputs := by
    induction inputs with
    | nil => exact fun _ => trivial
    | cons input inputs ih =>
      rw [List.forall_mem_cons] at enforced
      exact fun s => ⟨enforced.1, ih enforced.2 (Validation.step env s input)⟩
  refine run_inv (I := AcceptInv env ce) (fun s input => AcceptInv.step) ?_ (meets (initial env))
  exact ⟨initial_treeInv, initial_node?.mpr ⟨rfl, rfl⟩, fun h => absurd rfl h, trivial⟩

/-- In every run, a block of the active chain creates no outpoint that the chain below it has, if
the coinbases of the chain are all checked to carry their height. -/
theorem chainActive_noOverwrite (env : Validation.Env) (ce : ConnectEnv) (inputs : List Input)
    (sizes : CountsOutputs env) (enforced : ∀ input ∈ inputs, Enforces ce input.call)
    (serialized : Serialized (chainTxs (run env (initial env) inputs).chainActive))
    (cbTxs : ∀ b ∈ (run env (initial env) inputs).chainActive.dropLast, HasCbTx b.block) :
    ∀ above b below, (run env (initial env) inputs).chainActive = above ++ b :: below →
      below ≠ [] → NoOverwrite ce.cfg below b := by
  intro above b below hchain
  have inv : AcceptInv env ce (run env (initial env) inputs) := acceptInv_run enforced
  obtain ⟨stacked, -⟩ := stacked_noOverwrite sizes inv.stacked serialized cbTxs
  rw [hchain] at stacked
  exact stacked.at.1

/-! ### Two blocks with one coinbase -/

def coinEnv : Validation.Env :=
  { toyEnv with blockSize := fun vtx => (vtx.map fun tx => tx.vout.length).sum }

theorem coinEnv_countsOutputs : CountsOutputs coinEnv := by
  intro vtx tx mem
  exact List.single_le_sum (by simp) _ (List.mem_map_of_mem mem)

def toyProcessor : Llmq.BlockProcessor.ProcessorEnv where
  llmqs := []
  sorted := List.Pairwise.nil
  dip0003Enabled := true
  verify := fun _ _ => true
  genesis := ⟨1, []⟩
  genesis_hash := by decide
  genesis_plain := by simp

def toyConnect : ConnectEnv where
  cfg := ⟨false, false, fun _ => 0⟩
  processor := toyProcessor
  evo := fun below => { Evo.toyEnv with prevHeight := below.length - 1 }
  mnList := fun _ => Evo.CDeterministicMNList.empty 0
  prevHeight_eq := fun below => by simp

def coinCall : CallEnv := { toyCall with connectRules := connectRules toyConnect }

def coinBlock (prev : Uint256) (nonce : BitVec 32) (tx : CTransaction) : Input :=
  .block coinCall (toyHeader prev nonce) [tx] true 3

def stampedCoinbase (nHeight : ℕ) : CTransaction :=
  { minerAndFounder with
    hash := BitVec.ofNat 256 (100 + nHeight)
    extraPayload := .cbTx ⟨2, nHeight⟩ }

theorem chainActive_noOverwrite_stamped :
    NoOverwrite toyConnect.cfg [⟨2, ⟨toyHeader 1 2, [stampedCoinbase 1], true⟩⟩, ⟨1, coinEnv.genesis⟩]
      ⟨3, ⟨toyHeader 2 3, [stampedCoinbase 2], true⟩⟩ := by
  have hchain : (run coinEnv (initial coinEnv) [coinBlock 1 2 (stampedCoinbase 1),
      coinBlock 2 3 (stampedCoinbase 2)]).chainActive =
      [⟨3, ⟨toyHeader 2 3, [stampedCoinbase 2], true⟩⟩,
        ⟨2, ⟨toyHeader 1 2, [stampedCoinbase 1], true⟩⟩, ⟨1, coinEnv.genesis⟩] := by
    decide +kernel
  refine chainActive_noOverwrite coinEnv toyConnect
    [coinBlock 1 2 (stampedCoinbase 1), coinBlock 2 3 (stampedCoinbase 2)] coinEnv_countsOutputs
    ?_ ?_ ?_ [] _ _ hchain (by simp)
  · intro input mem
    simp only [List.mem_cons, List.not_mem_nil, or_false] at mem
    rcases mem with rfl | rfl <;> exact fun below block h => h
  · rw [hchain]
    have txs : chainTxs [⟨3, ⟨toyHeader 2 3, [stampedCoinbase 2], true⟩⟩,
        ⟨2, ⟨toyHeader 1 2, [stampedCoinbase 1], true⟩⟩, ⟨1, coinEnv.genesis⟩] =
        {stampedCoinbase 2, stampedCoinbase 1} := by
      ext tx
      simp [chainTxs]
    rw [txs]
    constructor
    · rintro tx (rfl | rfl) tx' (rfl | rfl) <;> decide
    · rintro tx (rfl | rfl) <;> decide
  · rw [hchain]
    decide +kernel

def plainCoinbase : CTransaction :=
  { minerAndFounder with
    hash := 100
    nVersion := 1
    nType := .normal }

/-- The same coinbase in two blocks: the second one puts its outputs over the coins of the
first. -/
theorem chainActive_overwrites :
    (run coinEnv (initial coinEnv)
        [coinBlock 1 2 plainCoinbase, coinBlock 2 3 plainCoinbase]).chainActive =
      [⟨3, ⟨toyHeader 2 3, [plainCoinbase], true⟩⟩, ⟨2, ⟨toyHeader 1 2, [plainCoinbase], true⟩⟩,
        ⟨1, coinEnv.genesis⟩] ∧
      (⟨⟨100, 0⟩, ⟨⟨1000, [0x52]⟩, true, 2⟩⟩ : COutPoint × Coin) ∈ plainCoinbase.coins 2 ∧
      ((chainCoins toyConnect.cfg [⟨2, ⟨toyHeader 1 2, [plainCoinbase], true⟩⟩,
        ⟨1, coinEnv.genesis⟩]).toOption.bind fun coins => coins ⟨100, 0⟩) =
          some ⟨⟨1000, [0x52]⟩, true, 1⟩ ∧
      ¬ NoOverwrite toyConnect.cfg [⟨2, ⟨toyHeader 1 2, [plainCoinbase], true⟩⟩,
        ⟨1, coinEnv.genesis⟩] ⟨3, ⟨toyHeader 2 3, [plainCoinbase], true⟩⟩ := by
  have created : (⟨⟨100, 0⟩, ⟨⟨1000, [0x52]⟩, true, 2⟩⟩ : COutPoint × Coin) ∈
      plainCoinbase.coins 2 := by
    decide +kernel
  have there : ((chainCoins toyConnect.cfg [⟨2, ⟨toyHeader 1 2, [plainCoinbase], true⟩⟩,
      ⟨1, coinEnv.genesis⟩]).toOption.bind fun coins => coins ⟨100, 0⟩) =
        some ⟨⟨1000, [0x52]⟩, true, 1⟩ := by
    decide +kernel
  refine ⟨by decide +kernel, created, there, ?_⟩
  rintro ⟨coins, hcoins, intact⟩
  rw [hcoins] at there
  have gone := intact plainCoinbase List.mem_cons_self _ created
  cases gone.symm.trans there

/-- In every run, each block of an active chain without overwritten coins can be disconnected. -/
theorem chainActive_rollsBack (env : Validation.Env) (ce : ConnectEnv) (inputs : List Input)
    (sizes : CountsOutputs env) (enforced : ∀ input ∈ inputs, Enforces ce input.call)
    (intact : Stacked (NoOverwrite ce.cfg) (run env (initial env) inputs).chainActive) :
    Stacked (RollsBack ce.cfg) (run env (initial env) inputs).chainActive :=
  (stacked_rollsBack sizes (acceptInv_run enforced).stacked intact).1

/-- The miner's output of the first block is spent in the second. -/
def toySpend : CTransaction :=
  { plainCoinbase with
    hash := 200
    vin := [⟨⟨101, 0⟩, [], 0⟩] }

theorem chainActive_rollsBack_spend :
    RollsBack toyConnect.cfg [⟨2, ⟨toyHeader 1 2, [stampedCoinbase 1], true⟩⟩, ⟨1, coinEnv.genesis⟩]
      ⟨3, ⟨toyHeader 2 3, [stampedCoinbase 2, toySpend], true⟩⟩ := by
  have hchain : (run coinEnv (initial coinEnv) [coinBlock 1 2 (stampedCoinbase 1),
      .block coinCall (toyHeader 2 3) [stampedCoinbase 2, toySpend] true 3]).chainActive =
      [⟨3, ⟨toyHeader 2 3, [stampedCoinbase 2, toySpend], true⟩⟩,
        ⟨2, ⟨toyHeader 1 2, [stampedCoinbase 1], true⟩⟩, ⟨1, coinEnv.genesis⟩] := by
    decide +kernel
  have rolls := chainActive_rollsBack coinEnv toyConnect [coinBlock 1 2 (stampedCoinbase 1),
    .block coinCall (toyHeader 2 3) [stampedCoinbase 2, toySpend] true 3] coinEnv_countsOutputs
    (List.forall_mem_cons.mpr ⟨fun below block h => h,
      List.forall_mem_singleton.mpr fun below block h => h⟩)
  rw [hchain] at rolls
  refine (rolls ⟨fun _ => ⟨_, rfl, ?_⟩, fun _ => ⟨_, rfl, fun _ _ _ _ => rfl⟩,
    fun h => absurd rfl h, trivial⟩).1 (by simp)
  decide +kernel

end

end ButCore.ChainCoins
