import ButCore.Evo.BlockDiff
import ButCore.Evo.Destination

/-!
# Collaterals stay unspent

A registration is checked against the coins of the parent, the inputs of the block are only looked
at after all of its transactions.
-/
namespace ButCore

namespace Coins

variable {coins : Coins} {o : COutPoint} {tx : CTransaction}

theorem spendCoins_of_notMem {vin : List CTxIn} (unspent : o ∉ vin.map CTxIn.prevout) :
    vin.foldl (fun coins txin => coins.spendCoin txin.prevout) coins o = coins o := by
  induction vin generalizing coins with
  | nil => rfl
  | cons txin vin ih =>
    rw [List.map_cons, List.mem_cons, not_or] at unspent
    rw [List.foldl_cons, ih unspent.2]
    exact Function.update_of_ne unspent.1 _ _

theorem isSome_addCoin (o' : COutPoint) (out : CTxOut) (present : (coins o).isSome) :
    (coins.addCoin o' out o).isSome := by
  unfold addCoin
  split_ifs
  · exact present
  · rw [Function.update_apply]
    split_ifs
    · rfl
    · exact present

theorem isSome_foldl_addCoin {hash : Uint256} (outs : List (CTxOut × ℕ))
    (present : (coins o).isSome) :
    (outs.foldl (fun coins (out, i) => coins.addCoin ⟨hash, BitVec.ofNat 32 i⟩ out) coins o).isSome := by
  induction outs generalizing coins with
  | nil => exact present
  | cons out outs ih => exact ih (isSome_addCoin _ _ present)

variable {n : BitVec 32} {out : CTxOut}

theorem isSome_addCoins_of_output (output : tx.vout[n.toNat]? = some out)
    (spendable : isUnspendable out.scriptPubKey = false) :
    (coins.addCoins tx ⟨tx.hash, n⟩).isSome := by
  have mem : (out, n.toNat) ∈ tx.vout.zipIdx := by
    rw [List.mem_zipIdx_iff_getElem?]
    exact output
  obtain ⟨before, later, hsplit⟩ := List.append_of_mem mem
  unfold addCoins
  rw [hsplit, List.foldl_append, List.foldl_cons]
  apply isSome_foldl_addCoin
  simp only [addCoin, spendable, Bool.false_eq_true, if_false, BitVec.ofNat_toNat,
    BitVec.setWidth_eq, Function.update_self, Option.isSome_some]

theorem isSome_updateCoins (present : (coins o).isSome)
    (unspent : tx.isCoinBase = true ∨ o ∉ tx.vin.map CTxIn.prevout) :
    (coins.updateCoins tx o).isSome := by
  unfold updateCoins addCoins
  apply isSome_foldl_addCoin
  split_ifs with hcoinbase
  · exact present
  · rw [spendCoins_of_notMem (unspent.resolve_left hcoinbase)]
    exact present

variable {vtx : List CTransaction}

theorem isSome_foldl_updateCoins (present : (coins o).isSome)
    (unspent : ∀ tx ∈ vtx, tx.isCoinBase = true ∨ o ∉ tx.vin.map CTxIn.prevout) :
    (vtx.foldl updateCoins coins o).isSome := by
  induction vtx generalizing coins with
  | nil => exact present
  | cons tx vtx ih =>
    obtain ⟨hfirst, hrest⟩ := List.forall_mem_cons.mp unspent
    exact ih (isSome_updateCoins present hfirst) hrest

theorem isSome_foldl_updateCoins_of_output (mem : tx ∈ vtx) (output : tx.vout[n.toNat]? = some out)
    (spendable : isUnspendable out.scriptPubKey = false)
    (unspent : ∀ tx' ∈ vtx, tx'.isCoinBase = true ∨ ⟨tx.hash, n⟩ ∉ tx'.vin.map CTxIn.prevout) :
    (vtx.foldl updateCoins coins ⟨tx.hash, n⟩).isSome := by
  obtain ⟨before, later, rfl⟩ := List.append_of_mem mem
  rw [List.foldl_append, List.foldl_cons]
  apply isSome_foldl_updateCoins
  · exact isSome_addCoins_of_output output spendable
  · intro tx' hmem
    exact unspent tx' (List.mem_append_right _ (List.mem_cons_of_mem _ hmem))

end Coins

namespace Evo

open Checked CDeterministicMNList

def finishList (env : Env) (blockHash : Uint256) (newList : CDeterministicMNList) :
    CDeterministicMNList :=
  { newList with
    nHeight := if newList.nHeight = -1 then nextHeight env else newList.nHeight
    blockHash := blockHash }

/-- The list after a block on the list of its parent. What the quorum block processor and the roots
in the coinbase add can only reject, and is left out. -/
def processSpecialTxsInBlock (env : Env) (oldList : CDeterministicMNList) (block : ConnectedBlock) :
    Except Fault CDeterministicMNList := do
  block.vtx.forM (checkSpecialTx env oldList)
  if env.dip0003Enabled = false then pure (empty block.hash)
  else
    let newList ← buildNewListFromBlock env oldList block.vtx
    pure (finishList env block.hash newList)

/-- What block processing reads of the chain that it extends, besides coins and height. -/
structure ChainEnv where
  evo : ActiveChain → Env
  hash160 : List (BitVec 8) → CKeyID

def ChainEnv.tip (ce : ChainEnv) (chain : ActiveChain) : Env :=
  { (ce.evo chain).atTip chain with extractDestination := extractDestination ce.hash160 }

/-- `CheckBlock` asks for the coinbase. The hash of a transaction is not null and fixes the owner
key that it registers. -/
structure WellFormed (ownerOf : Uint256 → CKeyID) (vtx : List CTransaction) : Prop where
  coinbase : ∀ tx ∈ vtx.head?, tx.isCoinBase = true
  hash_ne : ∀ tx ∈ vtx, tx.hash ≠ 0
  owner : ∀ tx ∈ vtx, ∀ ptx, tx.proRegPayload = some ptx → ptx.keyIDOwner = ownerOf tx.hash

/-- What `GetListForBlock` can give for a block: smartnodes of the list that was built for it, as they
stand there. It may be empty. -/
structure Given (ownerOf : Uint256 → CKeyID) (built given : CDeterministicMNList) : Prop where
  unique : given.UniqueInvariant ownerOf
  member : ∀ {h dmn}, given.getMN h = some dmn → built.getMN h = some dmn

/-- A chain whose blocks were all accepted, with the list that was built for the last one. -/
inductive Accepted (ce : ChainEnv) (ownerOf : Uint256 → CKeyID) :
    ActiveChain → CDeterministicMNList → Prop where
  | genesis (block : ConnectedBlock) : Accepted ce ownerOf [block] (empty block.hash)
  | block {chain : ActiveChain} {list oldList newList : CDeterministicMNList}
      (block : ConnectedBlock) (parent : Accepted ce ownerOf chain list)
      (given : Given ownerOf list oldList) (wellFormed : WellFormed ownerOf block.vtx)
      (ok : processSpecialTxsInBlock (ce.tip chain) oldList block = .ok newList) :
      Accepted ce ownerOf (block :: chain) newList

section

variable {env : Env} {ownerOf : Uint256 → CKeyID} {L N : CDeterministicMNList}
variable {tx : CTransaction} {vtx : List CTransaction}

theorem checkProRegTx_collateral (hok : checkProRegTx env L tx = .ok ()) :
    ∃ ptx r, tx.proRegPayload = some ptx ∧ checkCollateral env tx ptx = .ok r := by
  simp only [checkProRegTx, rejectMissing, bind_eq_ok, expect_eq_ok, rejectIf_eq_ok] at hok
  obtain ⟨_, -, ptx, hptx, _, -, _, -, _, -, _, -, _, -, _, -, _, -, _, -, _, -, r, hcoll, -⟩ := hok
  exact ⟨ptx, r, hptx, hcoll⟩

variable {c : COutPoint}

/-- The collateral of a checked registration is a coin of the parent or an output of its own that
has a destination. -/
theorem registeredCollateral_source (passed : checkSpecialTx env L tx = .ok ())
    (registered : registeredCollateral tx = some c) :
    (∃ coin, env.getUTXOCoin c = some coin) ∨
      ∃ n out dest, c = ⟨tx.hash, n⟩ ∧ tx.vout[n.toNat]? = some out ∧
        env.extractDestination out.scriptPubKey = some dest := by
  unfold registeredCollateral at registered
  split_ifs at registered with isReg
  simp only [isRegistration, Bool.and_eq_true, decide_eq_true_eq] at isReg
  have hchk := checkSpecialTx_ok isReg.1 passed
  rw [isReg.2] at hchk
  obtain ⟨ptx, r, hptx, hcoll⟩ := checkProRegTx_collateral hchk
  rw [hptx, Option.map_some, Option.some.injEq] at registered
  unfold checkCollateral at hcoll
  unfold collateralOf at registered
  by_cases hext : ptx.collateralOutpoint.hash = 0
  · rw [if_pos hext] at registered
    rw [if_neg (not_not.mpr hext)] at hcoll
    simp only [rejectMissing, bind_eq_ok, expect_eq_ok, rejectIf_eq_ok] at hcoll
    obtain ⟨out, hout, _, -, dest, hdest, -⟩ := hcoll
    exact Or.inr ⟨_, out, dest, registered.symm, hout, hdest⟩
  · rw [if_neg hext] at registered
    rw [if_pos hext] at hcoll
    simp only [rejectMissing, bind_eq_ok, expect_eq_ok] at hcoll
    obtain ⟨coin, hcoin, -⟩ := hcoll
    exact Or.inl ⟨coin, registered ▸ hcoin⟩

variable {dmn : CDeterministicMN} {h : Uint256}

theorem buildNewListFromBlock_notSpent (old : L.UniqueInvariant ownerOf)
    (checked : ∀ tx ∈ vtx, CheckedTx env L ownerOf tx)
    (run : buildNewListFromBlock env L vtx = .ok N) (get : N.getMN h = some dmn) : dmn.collateralOutpoint ∉ spentBy vtx := by
  obtain ⟨C₀, hprepare, run⟩ := bind_eq_ok.mp run
  obtain ⟨C₁, hloop, run⟩ := bind_eq_ok.mp run
  obtain ⟨C₂, hspent, hmark⟩ := bind_eq_ok.mp run
  obtain ⟨C₀', hprepare', inv₀, -⟩ := prepareList_neutral env old
  cases hprepare.symm.trans hprepare'
  have inv₁ := (applyTxs_refines old (fun tx hmem => checked tx (List.mem_of_mem_drop hmem))
    inv₀ hloop).1
  have hpass : C₂.UniqueInvariant ownerOf ∧
      ∀ k b, C₂.getMN k = some b → b.collateralOutpoint ∉ spentBy vtx := by
    refine foldlM_inv removeSpentBy (fun done t => t.UniqueInvariant ownerOf ∧
      ∀ k b, t.getMN k = some b → b.collateralOutpoint ∉ done) ⟨inv₁, by simp⟩ ?_ hspent
    rintro done c rest t t' - ⟨ht, hdone⟩ hstep
    rw [removeSpentBy_eq ht] at hstep
    obtain ⟨t₁, hok, hinv, hdrop⟩ := replaceByCollateral_spec ht c
    cases hstep.symm.trans hok
    refine ⟨hinv, fun k b getB => ?_⟩
    obtain ⟨getT, hne⟩ := hdrop.mem.mp getB
    rw [List.mem_append, List.mem_singleton, not_or]
    exact ⟨hdone k b getT, hne⟩
  obtain ⟨N', hmark', -, keeps⟩ := markPayee_neutral env (L.getMNPayee env) hpass.1
  cases hmark.symm.trans hmark'
  obtain ⟨b, getB, hcore⟩ := Keeps.getMN_back keeps get
  rw [(kept_of_core hcore).1]
  exact hpass.2 h b getB

theorem spentBy_unspent (coinbase : ∀ tx ∈ vtx.head?, tx.isCoinBase = true)
    (notSpent : c ∉ spentBy vtx) :
    ∀ tx ∈ vtx, tx.isCoinBase = true ∨ c ∉ tx.vin.map CTxIn.prevout := by
  intro tx hmem
  cases vtx with
  | nil => cases hmem
  | cons first rest =>
    rcases List.mem_cons.mp hmem with rfl | hmem
    · exact Or.inl (coinbase tx rfl)
    · exact Or.inr fun hspent => notSpent (List.mem_flatMap.mpr ⟨tx, hmem, hspent⟩)

theorem buildNewListFromBlock_unspent {coins : Coins} {hash160 : List (BitVec 8) → CKeyID}
    (hcoins : env.getUTXOCoin = coins) (hdest : env.extractDestination = extractDestination hash160)
    (old : L.UniqueInvariant ownerOf)
    (unspent : ∀ {h dmn}, L.getMN h = some dmn → (coins dmn.collateralOutpoint).isSome)
    (checked : ∀ tx ∈ vtx, CheckedTx env L ownerOf tx)
    (coinbase : ∀ tx ∈ vtx.head?, tx.isCoinBase = true)
    (run : buildNewListFromBlock env L vtx = .ok N) (get : N.getMN h = some dmn) :
    (vtx.foldl Coins.updateCoins coins dmn.collateralOutpoint).isSome := by
  have progress := buildNewListFromBlock_progress old checked run
  have kept := spentBy_unspent coinbase (buildNewListFromBlock_notSpent old checked run get)
  cases getL : L.getMN h with
  | some a =>
    have hsame : dmn.collateralOutpoint = a.collateralOutpoint := by
      rw [progress.kept getL get]
    exact Coins.isSome_foldl_updateCoins (hsame ▸ unspent getL) kept
  | none =>
    obtain ⟨i, last, -⟩ := progress.added getL get
    obtain ⟨tx, hmem, hreg⟩ := List.mem_filterMap.mp (List.mem_of_getElem? last.1)
    have hmem := List.mem_of_mem_drop hmem
    rcases registeredCollateral_source (checked tx hmem).passed hreg with
      ⟨coin, hcoin⟩ | ⟨n, out, dest, hc, hout, hdest'⟩
    · rw [hcoins] at hcoin
      exact Coins.isSome_foldl_updateCoins (by rw [hcoin]; rfl) kept
    · rw [hdest] at hdest'
      rw [hc] at kept ⊢
      exact Coins.isSome_foldl_updateCoins_of_output hmem hout
        (extractDestination_spendable hdest') kept

end

section

variable {ce : ChainEnv} {ownerOf : Uint256 → CKeyID} {chain : ActiveChain}
variable {list : CDeterministicMNList}

theorem Accepted.ne_nil (accepted : Accepted ce ownerOf chain list) : chain ≠ [] := by
  cases accepted <;> simp

theorem coinsTip_cons (block : ConnectedBlock) (nonempty : chain ≠ []) :
    ActiveChain.coinsTip (block :: chain) =
      block.vtx.foldl Coins.updateCoins chain.coinsTip := by
  cases chain with
  | nil => exact absurd rfl nonempty
  | cons _ _ => rfl

theorem Accepted.inv (accepted : Accepted ce ownerOf chain list) :
    list.UniqueInvariant ownerOf ∧
      ∀ h dmn, list.getMN h = some dmn → (chain.coinsTip dmn.collateralOutpoint).isSome := by
  induction accepted with
  | genesis block => exact ⟨uniqueInvariant_empty _ _, by simp [getMN_empty]⟩
  | @block chain list oldList newList block parent given wellFormed ok ih =>
    obtain ⟨_, hchecks, ok⟩ := bind_eq_ok.mp ok
    split_ifs at ok with hdip
    · cases pure_eq_ok.mp ok
      exact ⟨uniqueInvariant_empty _ _, by simp [getMN_empty]⟩
    · obtain ⟨N, run, hfinish⟩ := bind_eq_ok.mp ok
      cases pure_eq_ok.mp hfinish
      have checked : ∀ tx ∈ block.vtx, CheckedTx (ce.tip chain) oldList ownerOf tx := fun tx hmem =>
        ⟨forM_eq_ok.mp hchecks tx hmem, wellFormed.hash_ne tx hmem, wellFormed.owner tx hmem⟩
      have inv := (buildNewListFromBlock_progress given.unique checked run).unique
      refine ⟨⟨inv.hash, inv.held, inv.collateral_ne, inv.owner_ne, inv.owner⟩, ?_⟩
      intro h dmn get
      rw [coinsTip_cons block parent.ne_nil]
      exact buildNewListFromBlock_unspent rfl rfl given.unique
        (fun getOld => ih.2 _ _ (given.member getOld)) checked wellFormed.coinbase run get

/-- Every smartnode of the list after the last block has an unspent collateral. -/
theorem collateral_unspent (accepted : Accepted ce ownerOf chain list) {proTxHash : Uint256}
    {dmn : CDeterministicMN} (get : list.getMN proTxHash = some dmn) :
    ∃ coin, chain.coinsTip dmn.collateralOutpoint = some coin :=
  Option.isSome_iff_exists.mp (accepted.inv.2 proTxHash dmn get)

end

def toyKeyScript : CScript := [0x76, 0xa9, 0x14] ++ List.replicate 20 7 ++ [0x88, 0xac]

def toyChainEnv : ChainEnv :=
  ⟨fun chain => { toyEnv with prevHeight := chain.tipHeight }, fun _ => 9⟩

def toyMint (hash : Uint256) (nHeight : ℤ) : CTransaction :=
  ⟨hash, 3, .coinbase, [⟨COutPoint.null, [], 0⟩], [⟨1000, toyKeyScript⟩], 0, .cbTx ⟨2, nHeight⟩, 0⟩

def toyTake (hash : Uint256) : CTransaction :=
  ⟨hash, 3, .providerRegister, [], [], 0, .proRegTx ⟨1, 0, 0, ⟨11, 0⟩, ⟨hash.setWidth 128, 2⟩,
    toyOwner hash, some (hash.setWidth 384), 5, 0, toyScript, 0, []⟩, 0⟩

def toyGenesis : ConnectedBlock := ⟨100, []⟩
def toyFunding : ConnectedBlock := ⟨101, [toyMint 11 1]⟩

def toyReplacing : ConnectedBlock := ⟨102, [toyMint 12 2, toyTake 30, toyTake 31]⟩

theorem toyTake_wellFormed : WellFormed toyOwner [toyMint 12 2, toyTake 30, toyTake 31] := by
  refine ⟨by decide +kernel, by decide +kernel, ?_⟩
  intro tx hmem ptx hptx
  simp only [List.mem_cons, List.not_mem_nil, or_false] at hmem
  rcases hmem with rfl | rfl | rfl <;> cases hptx <;> rfl

theorem collateral_unspent_replaced :
    ∃ list, Accepted toyChainEnv toyOwner [toyReplacing, toyFunding, toyGenesis] list ∧
      ∃ dmn, list.getMN 31 = some dmn ∧ ∃ coin,
        ActiveChain.coinsTip [toyReplacing, toyFunding, toyGenesis] dmn.collateralOutpoint =
          some coin := by
  have hrun : ((do
      let list ← processSpecialTxsInBlock (toyChainEnv.tip [toyGenesis]) (empty 100) toyFunding
      let list ← processSpecialTxsInBlock (toyChainEnv.tip [toyFunding, toyGenesis]) list toyReplacing
      pure (list.getMN 31).isSome) : Except Fault Bool) = .ok true := by
    decide +kernel
  obtain ⟨list₁, hfunding, hrun⟩ := bind_eq_ok.mp hrun
  obtain ⟨list₂, hreplacing, hget⟩ := bind_eq_ok.mp hrun
  obtain ⟨dmn, get⟩ := Option.isSome_iff_exists.mp (pure_eq_ok.mp hget)
  have accepted₁ : Accepted toyChainEnv toyOwner [toyFunding, toyGenesis] list₁ :=
    .block toyFunding (.genesis toyGenesis) ⟨uniqueInvariant_empty _ _, id⟩
      ⟨by decide +kernel, by decide +kernel, by simp [toyFunding, toyMint, CTransaction.proRegPayload]⟩
      hfunding
  have accepted₂ : Accepted toyChainEnv toyOwner [toyReplacing, toyFunding, toyGenesis] list₂ :=
    .block toyReplacing accepted₁ ⟨accepted₁.inv.1, id⟩ toyTake_wellFormed hreplacing
  exact ⟨list₂, accepted₂, dmn, get, collateral_unspent accepted₂ get⟩

end Evo

end ButCore
