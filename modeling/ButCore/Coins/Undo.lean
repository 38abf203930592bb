import ButCore.Coins.ConnectBlock

/-!
# Disconnecting undoes connecting

Every loop over the coins view is followed on what a reader sees.
-/
namespace ButCore

open AddressIndex Checked CCoinsViewCache

def Holds (table : COutPoint → Option Coin) (os : List COutPoint) (coins : List Coin) : Prop :=
  List.Forall₂ (fun o coin => table o = some coin) os coins

/-- Coins that `ApplyTxInUndo` can bring back: height zero stands for missing metadata, and
`AddCoin` drops unspendable outputs. -/
structure Coin.Restorable (coin : Coin) : Prop where
  height : coin.nHeight ≠ 0
  spendable : isUnspendable coin.out.scriptPubKey = false

def spendableCoins (created : List (COutPoint × Coin)) : List (COutPoint × Coin) :=
  created.filter fun entry => !isUnspendable entry.2.out.scriptPubKey

variable {table : COutPoint → Option Coin}

theorem Holds.update_none {o : COutPoint} {os : List COutPoint} {coins : List Coin}
    (held : Holds table os coins) (absent : o ∉ os) :
    Holds (Function.update table o none) os coins := by
  induction held with
  | nil => exact .nil
  | cons present held ih =>
    rw [List.mem_cons, not_or] at absent
    exact .cons (by rw [Function.update_of_ne (Ne.symm absent.1), present]) (ih absent.2)

theorem Holds.exists_of_mem {os : List COutPoint} {coins : List Coin} {coin : Coin}
    (held : Holds table os coins) (mem : coin ∈ coins) :
    ∃ o ∈ os, table o = some coin ∧ (o, coin) ∈ os.zip coins := by
  induction held with
  | nil => cases mem
  | @cons o coin' os coins present held ih =>
    rcases List.mem_cons.mp mem with rfl | mem
    · exact ⟨o, List.mem_cons_self, present, List.mem_cons_self⟩
    · obtain ⟨o', spent, there, pair⟩ := ih mem
      exact ⟨o', List.mem_cons_of_mem _ spent, there, List.mem_cons_of_mem _ pair⟩

variable {s : Undoing}

namespace CCoinsViewCache

section

variable {hidden : COutPoint → Prop} {V V' : CCoinsViewCache} {o : COutPoint}
  {os : List COutPoint} {coin : Coin} {coins : List Coin}

theorem haveAll_cons : V.haveAll (o :: os) =
    if (V.haveCoin o).1 then (V.haveCoin o).2.haveAll os else (false, (V.haveCoin o).2) := rfl

theorem Over.haveAll (inv : Over hidden V) (found : (V.haveAll os).1 = true) :
    Over hidden (V.haveAll os).2 ∧ (V.haveAll os).2.lookup = V.lookup ∧
      ∃ coins, Holds V.lookup os coins := by
  induction os generalizing V with
  | nil => exact ⟨inv, rfl, [], .nil⟩
  | cons o os ih =>
    obtain ⟨seen, after, same⟩ := inv.haveCoin o
    rw [haveAll_cons] at found ⊢
    cases hseen : (V.haveCoin o).1 with
    | false =>
      rw [hseen, if_neg Bool.false_ne_true] at found
      exact absurd found Bool.false_ne_true
    | true =>
      rw [hseen, if_pos rfl] at found
      rw [if_pos rfl]
      obtain ⟨last, sameRest, coins, held⟩ := ih after found
      obtain ⟨coin, present⟩ := Option.isSome_iff_exists.mp (seen.symm.trans hseen)
      rw [same] at sameRest held
      exact ⟨last, sameRest, coin :: coins, .cons present held⟩

theorem Over.accessCoin (inv : Over hidden V) (present : V.lookup o = some coin) :
    (V.accessCoin o).1 = coin ∧ Over hidden (V.accessCoin o).2 ∧
      (V.accessCoin o).2.lookup = V.lookup := by
  obtain ⟨after, same⟩ := inv.fetchCoin o
  refine ⟨?_, after, same⟩
  rw [CCoinsViewCache.accessCoin]
  cases hentry : (V.fetchCoin o).cacheCoins[o]? with
  | none => exact absurd (present.symm.trans (fetchCoin_not_cached hentry)) (by simp)
  | some entry =>
    rw [← same, lookup_of_entry hentry, unspent_eq_some, Option.some.injEq] at present
    exact present.1

theorem Over.spendInputs (inv : Over hidden V) (distinct : os.Nodup)
    (held : Holds V.lookup os coins) :
    ∃ V', V.spendInputs os = .ok (coins, V') ∧ Over hidden V' ∧
      V'.lookup = Table.eraseAll id os V.lookup := by
  induction os generalizing V coins with
  | nil =>
    cases held
    exact ⟨V, rfl, inv, rfl⟩
  | cons o os ih =>
    cases held with
    | @cons _ coin _ coins present held =>
      obtain ⟨after, spent⟩ := inv.spendCoin o
      rw [List.nodup_cons] at distinct
      have heldRest : Holds (V.spendCoin o).2.lookup os coins := by
        rw [spent]
        exact Holds.update_none held distinct.1
      obtain ⟨V', run, last, seen⟩ := ih after distinct.2 heldRest
      refine ⟨V', ?_, last, ?_⟩
      · rw [CCoinsViewCache.spendInputs, inv.spendCoin_fst present, run]
        rfl
      · rw [seen, spent, Table.eraseAll_cons, id]

variable {cfg : IndexConfig} {txhash : Uint256} {nHeight txindex j : ℕ}

theorem readInputs_cons {rest : List (COutPoint × ℕ)} : readInputs cfg nHeight txindex txhash ((o, j) :: rest) V =
      (connectInput cfg ⟨nHeight, txindex, txhash, j⟩ o (V.accessCoin o).1 ++
        (readInputs cfg nHeight txindex txhash rest (V.accessCoin o).2).1,
        (readInputs cfg nHeight txindex txhash rest (V.accessCoin o).2).2) := rfl

theorem Over.readInputs {n : ℕ} (inv : Over hidden V) (held : Holds V.lookup os coins) :
    ∃ V', readInputs cfg nHeight txindex txhash (os.zipIdx n) V =
        (IndexBatch.concat (((os.zip coins).zipIdx n).map fun input =>
          connectInput cfg ⟨nHeight, txindex, txhash, input.2⟩ input.1.1 input.1.2), V') ∧
      Over hidden V' ∧ V'.lookup = V.lookup := by
  induction os generalizing V coins n with
  | nil =>
    cases held
    exact ⟨V, rfl, inv, rfl⟩
  | cons o os ih =>
    cases held with
    | @cons _ coin _ coins present held =>
      obtain ⟨read, after, same⟩ := inv.accessCoin present
      obtain ⟨V', run, last, sameRest⟩ := ih (n := n + 1) after (same.symm ▸ held)
      refine ⟨V', ?_, last, sameRest.trans same⟩
      rw [List.zipIdx_cons, readInputs_cons, read, run]
      rfl

variable {created : List (COutPoint × Coin)} {entry : COutPoint × Coin}

theorem spendableCoins_skip (unspendable : isUnspendable entry.2.out.scriptPubKey = true) :
    spendableCoins (entry :: created) = spendableCoins created := by
  simp [spendableCoins, unspendable]

theorem spendableCoins_keep (spendable : isUnspendable entry.2.out.scriptPubKey = false) :
    spendableCoins (entry :: created) = entry :: spendableCoins created := by
  simp [spendableCoins, spendable]

theorem Over.addAll {overwrite : Bool} (inv : Over hidden V)
    (distinct : (created.map Prod.fst).Nodup)
    (unseen : ∀ entry ∈ spendableCoins created, hidden entry.1)
    (vacant : overwrite = true → ∀ entry ∈ spendableCoins created, V.lookup entry.1 = none)
    (added : created.foldlM (fun V entry => V.addCoin entry.1 entry.2 overwrite) V = .ok V') :
    Over hidden V' ∧ (∀ entry ∈ spendableCoins created, V.lookup entry.1 = none) ∧
      V'.lookup = Table.putAll Prod.fst Prod.snd (spendableCoins created) V.lookup := by
  induction created generalizing V with
  | nil =>
    rw [List.foldlM_nil, pure_eq_ok] at added
    subst added
    exact ⟨inv, by simp [spendableCoins], rfl⟩
  | cons entry created ih =>
    obtain ⟨W, first, rest⟩ := foldlM_cons_ok.mp added
    rw [List.map_cons, List.nodup_cons] at distinct
    cases spendable : isUnspendable entry.2.out.scriptPubKey with
    | true =>
      obtain ⟨-, rfl⟩ := (addCoin_unspendable spendable).mp first
      rw [spendableCoins_skip spendable] at unseen vacant ⊢
      exact ih inv distinct.2 unseen vacant rest
    | false =>
      rw [spendableCoins_keep spendable] at unseen vacant ⊢
      rw [List.forall_mem_cons] at unseen
      simp only [List.forall_mem_cons] at vacant ⊢
      have here : V.lookup entry.1 = none := by
        cases overwrite with
        | true => exact (vacant rfl).1
        | false => exact inv.vacant_of_addCoin unseen.1 spendable first
      obtain ⟨after, seen⟩ := inv.of_addCoin here spendable first
      have elsewhere : ∀ entry' ∈ spendableCoins created,
          W.lookup entry'.1 = V.lookup entry'.1 := by
        intro entry' mem
        have hne : entry'.1 ≠ entry.1 := by
          intro heq
          exact distinct.1 (heq ▸ List.mem_map_of_mem (List.mem_of_mem_filter mem))
        rw [seen, Function.update_of_ne hne]
      obtain ⟨last, vacantRest, seenRest⟩ := ih after distinct.2 unseen.2
        (fun ow entry' mem => (elsewhere entry' mem).trans ((vacant ow).2 entry' mem)) rest
      refine ⟨last, ⟨here, ?_⟩, ?_⟩
      · exact fun entry' mem => (elsewhere entry' mem).symm.trans (vacantRest entry' mem)
      · rw [seenRest, seen, Table.putAll_cons]

theorem Over.spendOutputs {clean : Bool} (inv : Over hidden V)
    (distinct : (created.map Prod.fst).Nodup)
    (vacant : ∀ entry ∈ spendableCoins created, table entry.1 = none)
    (seen : V.lookup = Table.putAll Prod.fst Prod.snd (spendableCoins created) table) :
    ∃ V', created.foldl spendOutput (clean, V) = (clean, V') ∧ Over hidden V' ∧
      V'.lookup = table := by
  induction created generalizing V with
  | nil => exact ⟨V, rfl, inv, seen⟩
  | cons entry created ih =>
    rw [List.map_cons, List.nodup_cons] at distinct
    cases spendable : isUnspendable entry.2.out.scriptPubKey with
    | true =>
      rw [spendableCoins_skip spendable] at vacant seen
      obtain ⟨V', run, last, seen'⟩ := ih inv distinct.2 vacant seen
      refine ⟨V', ?_, last, seen'⟩
      rw [List.foldl_cons, spendOutput, if_pos spendable, run]
    | false =>
      rw [spendableCoins_keep spendable] at vacant seen
      rw [List.forall_mem_cons] at vacant
      have absent : entry.1 ∉ (spendableCoins created).map Prod.fst := by
        intro mem
        obtain ⟨entry', mem, heq⟩ := List.mem_map.mp mem
        exact distinct.1 (heq ▸ List.mem_map_of_mem (List.mem_of_mem_filter mem))
      rw [Table.putAll_cons, Table.putAll_update_of_notMem absent] at seen
      have present : V.lookup entry.1 = some entry.2 := by
        rw [seen, Function.update_self]
      obtain ⟨after, spent⟩ := inv.spendCoin entry.1
      have seen' : (V.spendCoin entry.1).2.lookup =
          Table.putAll Prod.fst Prod.snd (spendableCoins created) table := by
        have bare : none = Table.putAll Prod.fst Prod.snd (spendableCoins created) table
            entry.1 := by
          rw [Table.putAll_of_notMem absent, vacant.1]
        rw [spent, seen, Function.update_idem, bare, Function.update_eq_self]
      obtain ⟨V', run, last, back⟩ := ih after distinct.2 vacant.2 seen'
      refine ⟨V', ?_, last, back⟩
      rw [List.foldl_cons, spendOutput, if_neg (by simp [spendable]),
        inv.spendCoin_fst present, decide_eq_true rfl, Bool.and_true, run]

theorem lookup_isSpent (present : V.lookup o = some coin) : coin.isSpent = false := by
  cases hentry : V.cacheCoins[o]? with
  | none =>
    rw [lookup_of_not_cached hentry] at present
    exact (unspent_eq_some.mp present).2
  | some entry =>
    rw [lookup_of_entry hentry] at present
    exact (unspent_eq_some.mp present).2

theorem Over.applyTxInUndo (inv : Over hidden V) (vacant : V.lookup o = none)
    (unspent_ : coin.isSpent = false) (restorable : coin.Restorable) :
    ∃ V', V.applyTxInUndo coin o = .ok (true, V') ∧ Over hidden V' ∧
      V'.lookup = Function.update V.lookup o (some coin) := by
  obtain ⟨seen, after, same⟩ := inv.haveCoin o
  rw [vacant, Option.isSome_none] at seen
  obtain ⟨V', run, last, put⟩ : ∃ V', (V.haveCoin o).2.addCoin o coin false = .ok V' ∧
      Over hidden V' ∧ V'.lookup = Function.update (V.haveCoin o).2.lookup o (some coin) :=
    after.addCoin (by rw [same, vacant]) unspent_ restorable.spendable
  refine ⟨V', ?_, last, by rw [put, same]⟩
  have pair : V.haveCoin o = (false, (V.haveCoin o).2) := Prod.ext seen rfl
  rw [CCoinsViewCache.applyTxInUndo, pair]
  simp only [if_neg restorable.height, Bool.not_false, Bool.not_true]
  change (do
    let V ← ((V.haveCoin o).2.addCoin o coin false).mapError DisconnectFault.coins
    pure (true, V)) = _
  rw [run]
  rfl

theorem Over.restoreInput (inv : Over hidden s.view) (vacant : s.view.lookup o = none)
    (unspent_ : coin.isSpent = false) (restorable : coin.Restorable) :
    ∃ V', restoreInput cfg nHeight txindex txhash ((o, coin), j) s = .ok ⟨s.fClean,
        s.batch ++ disconnectInput cfg ⟨nHeight, txindex, txhash, j⟩ o coin coin.nHeight, V'⟩ ∧
      Over hidden V' ∧ V'.lookup = Function.update s.view.lookup o (some coin) := by
  obtain ⟨V', run, last, put⟩ := inv.applyTxInUndo vacant unspent_ restorable
  simp only [ButCore.restoreInput, run, ok_bind, Bool.and_true]
  cases indexed : cfg.fAddressIndex with
  | false =>
    refine ⟨V', ?_, last, put⟩
    simp only [disconnectInput, indexed, Bool.false_eq_true, if_false]
    rfl
  | true =>
    have present : V'.lookup o = some coin := by rw [put, Function.update_self]
    obtain ⟨read, after, same⟩ := last.accessCoin present
    refine ⟨(V'.accessCoin o).2, ?_, after, same.trans put⟩
    rw [if_pos rfl, ← read]
    rfl

theorem Over.restoreInputs {inputs : List ((COutPoint × Coin) × ℕ)} (inv : Over hidden s.view)
    (distinct : (inputs.map fun input => input.1.1).Nodup)
    (held : ∀ input ∈ inputs, table input.1.1 = some input.1.2)
    (restorable : ∀ input ∈ inputs, input.1.2.isSpent = false ∧ input.1.2.Restorable)
    (seen : s.view.lookup = Table.eraseAll (fun input => input.1.1) inputs table) :
    ∃ V', inputs.foldrM (ButCore.restoreInput cfg nHeight txindex txhash) s = .ok ⟨s.fClean,
        s.batch ++ IndexBatch.concat (inputs.map fun input =>
          disconnectInput cfg ⟨nHeight, txindex, txhash, input.2⟩ input.1.1 input.1.2
            input.1.2.nHeight).reverse, V'⟩ ∧
      Over hidden V' ∧ V'.lookup = table := by
  induction inputs generalizing table with
  | nil =>
    refine ⟨s.view, ?_, inv, seen⟩
    rw [List.map_nil, List.reverse_nil, IndexBatch.concat, List.foldr_nil,
      IndexBatch.append_empty]
    rfl
  | cons input inputs ih =>
    obtain ⟨⟨o, coin⟩, j⟩ := input
    rw [List.map_cons, List.nodup_cons] at distinct
    rw [List.forall_mem_cons] at held restorable
    rw [Table.eraseAll_cons] at seen
    have heldRest : ∀ input ∈ inputs,
        Function.update table o none input.1.1 = some input.1.2 := by
      intro input mem
      have hne : input.1.1 ≠ o := by
        intro heq
        exact distinct.1 (List.mem_map.mpr ⟨input, mem, heq⟩)
      rw [Function.update_of_ne hne]
      exact held.2 input mem
    obtain ⟨V₁, runRest, after, seenRest⟩ := ih distinct.2 heldRest restorable.2 seen
    have vacant : V₁.lookup o = none := by rw [seenRest, Function.update_self]
    obtain ⟨V', run, last, put⟩ := Over.restoreInput (s := ⟨s.fClean, _, V₁⟩) after vacant
      restorable.1.1 restorable.1.2
    refine ⟨V', ?_, last, ?_⟩
    · rw [List.foldrM_cons, runRest, ok_bind, run, List.map_cons, List.reverse_cons,
        IndexBatch.concat_append, IndexBatch.concat_singleton, IndexBatch.append_assoc]
    · rw [put, seenRest, Function.update_idem, ← held.1, Function.update_eq_self]

end

end CCoinsViewCache

/-! ### One transaction -/

def CTransaction.spends (tx : CTransaction) : List COutPoint :=
  if tx.isCoinBase then [] else tx.vin.map CTxIn.prevout

/-- What `CheckTransaction` and the size of a block guarantee. -/
structure TxShape (tx : CTransaction) : Prop where
  inputs : (tx.vin.map CTxIn.prevout).Nodup
  outputs : tx.vout.length < 2 ^ 32

/-- `tx` turns the coins of `before` into those of `after` and spends `coins`. -/
structure Connects (nHeight : ℕ) (tx : CTransaction) (coins : List Coin)
    (before after : COutPoint → Option Coin) : Prop where
  held : Holds before tx.spends coins
  unspent : ∀ coin ∈ coins, coin.isSpent = false
  vacant : ∀ entry ∈ spendableCoins (tx.coins nHeight),
    Table.eraseAll id tx.spends before entry.1 = none
  after_eq : after = Table.putAll Prod.fst Prod.snd (spendableCoins (tx.coins nHeight))
    (Table.eraseAll id tx.spends before)

section

variable (cfg : IndexConfig) (nHeight : ℕ) (tx : CTransaction) (txindex : ℕ) (coins : List Coin)

def inputBatches (entry : Place → COutPoint → Coin → IndexBatch) : List IndexBatch :=
  (tx.spends.zip coins).zipIdx.map fun input =>
    entry ⟨nHeight, txindex, tx.hash, input.2⟩ input.1.1 input.1.2

def connectBatch : IndexBatch :=
  IndexBatch.concat (inputBatches nHeight tx txindex coins (connectInput cfg)) ++
    IndexBatch.concat (outputBatches nHeight (connectOutput cfg) tx txindex)

def disconnectBatch : IndexBatch :=
  IndexBatch.concat (outputBatches nHeight (disconnectOutput cfg) tx txindex).reverse ++
    IndexBatch.concat (inputBatches nHeight tx txindex coins fun place prevout coin =>
      disconnectInput cfg place prevout coin coin.nHeight).reverse

def undoRecord : Option CTxUndo := if tx.isCoinBase then none else some ⟨coins⟩

variable {cfg nHeight tx txindex coins}

theorem TxShape.coins_nodup (shape : TxShape tx) :
    ((tx.coins nHeight).map Prod.fst).Nodup := by
  have keys : (tx.coins nHeight).map Prod.fst = (List.range' 0 tx.vout.length).map fun i =>
      (⟨tx.hash, BitVec.ofNat 32 i⟩ : COutPoint) := by
    rw [CTransaction.coins, List.map_map, ← List.zipIdx_map_snd, List.map_map]
    rfl
  rw [keys]
  refine List.Nodup.map_on ?_ List.nodup_range'
  intro i hi i' hi' heq
  rw [List.mem_range'_1] at hi hi'
  have same := congrArg BitVec.toNat (congrArg COutPoint.n heq)
  rw [BitVec.toNat_ofNat, BitVec.toNat_ofNat, Nat.mod_eq_of_lt, Nat.mod_eq_of_lt] at same
  · exact same
  · have := shape.outputs
    omega
  · have := shape.outputs
    omega

theorem inputBatches_connect_off (addressOff : cfg.fAddressIndex = false)
    (spentOff : cfg.fSpentIndex = false) :
    IndexBatch.concat (inputBatches nHeight tx txindex coins (connectInput cfg)) = .empty := by
  rw [inputBatches]
  generalize (tx.spends.zip coins).zipIdx = inputs
  induction inputs with
  | nil => rfl
  | cons input inputs ih =>
    rw [List.map_cons, IndexBatch.concat, List.foldr_cons]
    change connectInput cfg _ _ _ ++ IndexBatch.concat _ = _
    rw [ih]
    simp only [connectInput, addressOff, spentOff, Bool.false_and, Bool.false_eq_true, if_false]
    rfl

variable {hidden : COutPoint → Prop} {V V' : CCoinsViewCache} {undo : CTxUndo} {batch : IndexBatch}

theorem Holds.unspent {os : List COutPoint} (held : Holds V.lookup os coins) :
    ∀ coin ∈ coins, coin.isSpent = false := by
  intro coin mem
  obtain ⟨o, -, present, -⟩ := held.exists_of_mem mem
  exact lookup_isSpent present

theorem CCoinsViewCache.Over.haveInputs (inv : Over hidden V) (found : (V.haveInputs tx).1 = true) :
    Over hidden (V.haveInputs tx).2 ∧ (V.haveInputs tx).2.lookup = V.lookup ∧
      ∃ coins, Holds V.lookup tx.spends coins := by
  rw [CCoinsViewCache.haveInputs] at found ⊢
  rw [CTransaction.spends]
  split at found
  · rename_i hcb
    rw [if_pos hcb, if_pos hcb]
    exact ⟨inv, rfl, [], .nil⟩
  · rename_i hcb
    rw [if_neg hcb, if_neg hcb]
    exact inv.haveAll found

theorem CCoinsViewCache.Over.updateCoins (inv : Over hidden V) (shape : TxShape tx)
    (held : Holds V.lookup tx.spends coins)
    (unseen : ∀ entry ∈ spendableCoins (tx.coins nHeight), hidden entry.1)
    (vacant : tx.isCoinBase = true →
      ∀ entry ∈ spendableCoins (tx.coins nHeight), V.lookup entry.1 = none)
    (updated : V.updateCoins tx nHeight = .ok (undo, V')) :
    undo = ⟨coins⟩ ∧ Over hidden V' ∧ Connects nHeight tx coins V.lookup V'.lookup := by
  obtain ⟨W, run, after, erased⟩ : ∃ W, (if tx.isCoinBase then pure ([], V)
      else V.spendInputs (tx.vin.map CTxIn.prevout)) = .ok (coins, W) ∧ Over hidden W ∧
        W.lookup = Table.eraseAll id tx.spends V.lookup := by
    rw [CTransaction.spends] at held ⊢
    cases hcb : tx.isCoinBase with
    | true =>
      rw [hcb, if_pos rfl] at held
      cases held
      exact ⟨V, rfl, inv, rfl⟩
    | false =>
      rw [hcb, if_neg Bool.false_ne_true] at held
      exact inv.spendInputs shape.inputs held
  rw [CCoinsViewCache.updateCoins, run, ok_bind, bind_eq_ok] at updated
  obtain ⟨V₁, added, done⟩ := updated
  cases done
  have vacantAfter : tx.isCoinBase = true →
      ∀ entry ∈ spendableCoins (tx.coins nHeight), W.lookup entry.1 = none := by
    intro hcb entry mem
    rw [erased, CTransaction.spends, if_pos hcb]
    exact vacant hcb entry mem
  obtain ⟨last, bare, put⟩ := after.addAll shape.coins_nodup unseen vacantAfter added
  rw [erased] at bare put
  exact ⟨rfl, last, held, Holds.unspent held, bare, put⟩

theorem CCoinsViewCache.Over.readSpends (inv : Over hidden V)
    (held : Holds V.lookup tx.spends coins) :
    ∃ W, (if tx.isCoinBase = false ∧ (cfg.fAddressIndex || cfg.fSpentIndex) = true
        then ButCore.readInputs cfg nHeight txindex tx.hash (tx.vin.map CTxIn.prevout).zipIdx V
        else (.empty, V)) =
          (IndexBatch.concat (inputBatches nHeight tx txindex coins (connectInput cfg)), W) ∧
      Over hidden W ∧ W.lookup = V.lookup := by
  cases hcb : tx.isCoinBase with
  | true =>
    have none_ : tx.spends = [] := by rw [CTransaction.spends, if_pos hcb]
    rw [if_neg (by simp), inputBatches, none_]
    exact ⟨V, rfl, inv, rfl⟩
  | false =>
    have all : tx.spends = tx.vin.map CTxIn.prevout := by
      rw [CTransaction.spends, if_neg (by simp [hcb])]
    cases hon : cfg.fAddressIndex || cfg.fSpentIndex with
    | true =>
      rw [if_pos ⟨rfl, rfl⟩, inputBatches, all]
      exact inv.readInputs (all ▸ held)
    | false =>
      rw [Bool.or_eq_false_iff] at hon
      rw [if_neg (by simp), inputBatches_connect_off hon.1 hon.2]
      exact ⟨V, rfl, inv, rfl⟩

theorem CCoinsViewCache.Over.connectTx (inv : Over hidden V) (shape : TxShape tx)
    (unseen : ∀ entry ∈ spendableCoins (tx.coins nHeight), hidden entry.1)
    (vacant : tx.isCoinBase = true →
      ∀ entry ∈ spendableCoins (tx.coins nHeight), V.lookup entry.1 = none)
    (connected : ButCore.connectTx cfg nHeight tx txindex V = .ok (undo, batch, V')) :
    Over hidden V' ∧ Connects nHeight tx undo.vprevout V.lookup V'.lookup ∧
      batch = connectBatch cfg nHeight tx txindex undo.vprevout := by
  obtain ⟨found, W, hfound⟩ : ∃ found W, V.haveInputs tx = (found, W) := ⟨_, _, rfl⟩
  simp only [ButCore.connectTx, hfound, bind_eq_ok, require_eq_ok, mapError_eq_ok, exists_const,
    pure_eq_ok, Prod.exists] at connected
  obtain ⟨rfl, connected⟩ := connected
  have found : (V.haveInputs tx).1 = true := by rw [hfound]
  obtain ⟨after, same, coins, held⟩ := inv.haveInputs found
  rw [hfound] at after same
  rw [← same] at held
  obtain ⟨W₁, read, last, sameRead⟩ := after.readSpends held
  rw [read] at connected
  obtain ⟨undo', V₁, updated, done⟩ := connected
  cases done
  rw [same] at sameRead held
  obtain ⟨rfl, final, connects⟩ := last.updateCoins shape (sameRead.symm ▸ held) unseen
    (sameRead.symm ▸ vacant) updated
  exact ⟨final, sameRead ▸ connects, rfl⟩

theorem Holds.inputs {os : List COutPoint} (held : Holds table os coins) :
    ((os.zip coins).zipIdx.map fun input => input.1.1) = os ∧
      ∀ input ∈ (os.zip coins).zipIdx, table input.1.1 = some input.1.2 ∧ input.1.2 ∈ coins := by
  obtain ⟨lengths, each⟩ := List.forall₂_iff_zip.mp held
  constructor
  · calc ((os.zip coins).zipIdx.map fun input => input.1.1)
        = ((os.zip coins).zipIdx.map Prod.fst).map Prod.fst := List.map_map.symm
      _ = os := by rw [List.zipIdx_map_fst, List.map_fst_zip lengths.le]
  · intro input mem
    have mem : input.1 ∈ os.zip coins := List.fst_mem_of_mem_zipIdx mem
    exact ⟨each mem, (List.of_mem_zip mem).2⟩

theorem CCoinsViewCache.Over.disconnectTx {before after : COutPoint → Option Coin}
    (inv : Over hidden s.view) (shape : TxShape tx)
    (connects : Connects nHeight tx coins before after)
    (restorable : ∀ coin ∈ coins, coin.Restorable) (seen : s.view.lookup = after) :
    ∃ W, ButCore.disconnectTx cfg nHeight tx txindex (undoRecord tx coins) s = .ok ⟨s.fClean,
        s.batch ++ disconnectBatch cfg nHeight tx txindex coins, W⟩ ∧
      Over hidden W ∧ W.lookup = before := by
  obtain ⟨V₁, run, after₁, seen₁⟩ : ∃ V₁,
      (tx.coins nHeight).foldl spendOutput (s.fClean, s.view) = (s.fClean, V₁) ∧
        Over hidden V₁ ∧ V₁.lookup = Table.eraseAll id tx.spends before :=
    inv.spendOutputs shape.coins_nodup connects.vacant (seen.trans connects.after_eq)
  rw [ButCore.disconnectTx, run]
  cases hcb : tx.isCoinBase with
  | true =>
    have none_ : tx.spends = [] := by rw [CTransaction.spends, if_pos hcb]
    refine ⟨V₁, ?_, after₁, by rw [seen₁, none_]; rfl⟩
    rw [undoRecord, if_pos hcb, disconnectBatch, inputBatches, none_]
    change pure _ = Except.ok (Undoing.mk _ (_ ++ (_ ++ IndexBatch.empty)) _)
    rw [IndexBatch.append_empty]
    rfl
  | false =>
    have all : tx.spends = tx.vin.map CTxIn.prevout := by
      rw [CTransaction.spends, if_neg (by simp [hcb])]
    have held := connects.held
    rw [all] at seen₁ held
    obtain ⟨keys, entries⟩ := held.inputs
    have erased : V₁.lookup = Table.eraseAll (fun input => input.1.1)
        ((tx.vin.map CTxIn.prevout).zip coins).zipIdx before := by
      rw [seen₁, ← Table.eraseAll_map fun input : (COutPoint × Coin) × ℕ => input.1.1, keys]
    obtain ⟨W, restored, last, back⟩ := Over.restoreInputs (s := ⟨s.fClean, _, V₁⟩) after₁
      (keys.symm ▸ shape.inputs) (fun input mem => (entries input mem).1)
      (fun input mem => ⟨connects.unspent _ (entries input mem).2,
        restorable _ (entries input mem).2⟩) erased
    refine ⟨W, ?_, last, back⟩
    have counts : coins.length = tx.vin.length := by
      rw [← List.Forall₂.length_eq held, List.length_map]
    simp only [undoRecord, hcb, Bool.false_eq_true, if_false, require, failIf, counts, not_true]
    rw [disconnectBatch, inputBatches, all, ← IndexBatch.append_assoc]
    exact restored

end

/-! ### A block -/

abbrev LedgerEntry := (CTransaction × ℕ) × List Coin

inductive Ledger (nHeight : ℕ) :
    (COutPoint → Option Coin) → List LedgerEntry → (COutPoint → Option Coin) → Prop
  | nil (table : COutPoint → Option Coin) : Ledger nHeight table [] table
  | cons {before middle after : COutPoint → Option Coin} {tx : CTransaction} {txindex : ℕ}
      {coins : List Coin} {rest : List LedgerEntry}
      (connects : Connects nHeight tx coins before middle)
      (ledger : Ledger nHeight middle rest after) :
      Ledger nHeight before (((tx, txindex), coins) :: rest) after

section

variable {cfg : IndexConfig} {nHeight : ℕ} {hidden : COutPoint → Prop} {V V' : CCoinsViewCache}
  {txs : List (CTransaction × ℕ)} {undos : List CTxUndo} {batch : IndexBatch}
  {before after : COutPoint → Option Coin} {entries : List LedgerEntry}

theorem CCoinsViewCache.Over.connectTxs (inv : Over hidden V)
    (shape : ∀ entry ∈ txs, TxShape entry.1) (plain : ∀ entry ∈ txs, entry.1.isCoinBase = false)
    (unseen : ∀ entry ∈ txs, ∀ created ∈ spendableCoins (entry.1.coins nHeight), hidden created.1)
    (connected : ButCore.connectTxs cfg nHeight txs V = .ok (undos, batch, V')) :
    undos.length = txs.length ∧ Over hidden V' ∧
      Ledger nHeight V.lookup (txs.zip (undos.map CTxUndo.vprevout)) V'.lookup ∧
      batch = IndexBatch.concat ((txs.zip (undos.map CTxUndo.vprevout)).map fun entry =>
        connectBatch cfg nHeight entry.1.1 entry.1.2 entry.2) := by
  induction txs generalizing V undos batch with
  | nil =>
    cases connected
    exact ⟨rfl, inv, .nil _, rfl⟩
  | cons entry txs ih =>
    obtain ⟨tx, txindex⟩ := entry
    simp only [ButCore.connectTxs, bind_eq_ok, pure_eq_ok, Prod.exists,
      Prod.mk.injEq] at connected
    obtain ⟨undo, batch₁, W, first, undos', batches, W', rest, rfl, rfl, rfl⟩ := connected
    rw [List.forall_mem_cons] at shape plain unseen
    obtain ⟨next, connects, rfl⟩ := inv.connectTx shape.1 unseen.1
      (fun hcb => absurd hcb (by simp [plain.1])) first
    obtain ⟨lengths, last, ledger, rfl⟩ := ih next shape.2 plain.2 unseen.2 rest
    exact ⟨congrArg (· + 1) lengths, last, .cons connects ledger, rfl⟩

theorem Ledger.undo (ledger : Ledger nHeight before entries after)
    (shape : ∀ entry ∈ entries, TxShape entry.1.1)
    (restorable : ∀ entry ∈ entries, ∀ coin ∈ entry.2, coin.Restorable) (inv : Over hidden s.view)
    (seen : s.view.lookup = after) :
    ∃ W, disconnectTxs cfg nHeight
        (entries.map fun entry => (entry.1, undoRecord entry.1.1 entry.2)) s = .ok ⟨s.fClean,
          s.batch ++ IndexBatch.concat (entries.map fun entry =>
            disconnectBatch cfg nHeight entry.1.1 entry.1.2 entry.2).reverse, W⟩ ∧
      Over hidden W ∧ W.lookup = before := by
  induction ledger with
  | nil table =>
    refine ⟨s.view, ?_, inv, seen⟩
    rw [List.map_nil, List.map_nil, List.reverse_nil, IndexBatch.concat, List.foldr_nil,
      IndexBatch.append_empty]
    rfl
  | @cons before middle after tx txindex coins rest connects ledger ih =>
    rw [List.forall_mem_cons] at shape restorable
    obtain ⟨W₁, runRest, next, seenRest⟩ := ih shape.2 restorable.2 seen
    obtain ⟨W, run, last, back⟩ := Over.disconnectTx (s := ⟨s.fClean, _, W₁⟩) next shape.1
      connects restorable.1 seenRest
    refine ⟨W, ?_, last, back⟩
    rw [disconnectTxs] at runRest ⊢
    rw [List.map_cons, List.foldrM_cons, runRest, ok_bind, run, List.map_cons, List.reverse_cons,
      IndexBatch.concat_append, IndexBatch.concat_singleton, IndexBatch.append_assoc]

variable {tx : CTransaction}

theorem Connects.origin {coins : List Coin} {o : COutPoint} {coin : Coin}
    (connects : Connects nHeight tx coins before after) (shape : TxShape tx)
    (present : after o = some coin) :
    before o = some coin ∧ o ∉ tx.spends ∨ (o, coin) ∈ spendableCoins (tx.coins nHeight) := by
  have distinct : ((spendableCoins (tx.coins nHeight)).map Prod.fst).Nodup :=
    (shape.coins_nodup).sublist (List.filter_sublist.map _)
  rw [connects.after_eq, Table.putAll_eq_some connects.vacant distinct] at present
  rcases present with ⟨entry, mem, rfl, rfl⟩ | present
  · exact Or.inr mem
  · have kept := Table.eraseAll_eq_some.mp present
    exact Or.inl ⟨kept.1, fun mem => kept.2 o mem rfl⟩

variable {entry : COutPoint × Coin}

theorem created_hash (mem : entry ∈ spendableCoins (tx.coins nHeight)) : entry.1.hash = tx.hash := by
  obtain ⟨⟨out, i⟩, -, rfl⟩ := List.mem_map.mp (List.mem_of_mem_filter mem)
  rfl

theorem restorable_of_created (above : nHeight ≠ 0)
    (mem : entry ∈ spendableCoins (tx.coins nHeight)) : entry.2.Restorable := by
  obtain ⟨mem, spendable⟩ := List.mem_filter.mp mem
  refine ⟨?_, by simpa using spendable⟩
  obtain ⟨⟨out, i⟩, -, rfl⟩ := List.mem_map.mp mem
  exact above

theorem Ledger.restorable (ledger : Ledger nHeight before entries after)
    (needed : COutPoint → Prop) (above : nHeight ≠ 0)
    (shape : ∀ entry ∈ entries, TxShape entry.1.1)
    (needs : ∀ entry ∈ entries, ∀ o ∈ entry.1.1.spends, needed o)
    (init : ∀ o coin, needed o → before o = some coin → coin.Restorable) :
    ∀ entry ∈ entries, ∀ coin ∈ entry.2, coin.Restorable := by
  induction ledger with
  | nil table => simp
  | @cons before middle after tx txindex coins rest connects ledger ih =>
    rw [List.forall_mem_cons] at shape needs ⊢
    constructor
    · intro coin mem
      obtain ⟨o, spent, present, -⟩ := connects.held.exists_of_mem mem
      exact init o coin (needs.1 o spent) present
    · refine ih shape.2 needs.2 ?_
      intro o coin need present
      rcases connects.origin shape.1 present with ⟨earlier, -⟩ | created
      · exact init o coin need earlier
      · exact restorable_of_created above created

theorem Ledger.all_restorable (ledger : Ledger nHeight before entries after) (above : nHeight ≠ 0)
    (shape : ∀ entry ∈ entries, TxShape entry.1.1)
    (init : ∀ o coin, before o = some coin → coin.Restorable) :
    ∀ o coin, after o = some coin → coin.Restorable := by
  induction ledger with
  | nil table => exact init
  | @cons before middle after tx txindex coins rest connects ledger ih =>
    rw [List.forall_mem_cons] at shape
    refine ih shape.2 ?_
    intro o coin present
    rcases connects.origin shape.1 present with ⟨earlier, -⟩ | created
    · exact init o coin earlier
    · exact restorable_of_created above created

end

/-- What `CheckBlock` guarantees about the transactions, with the bound that the size of a block
puts on the number of outputs. -/
structure BlockShape (vtx : List CTransaction) : Prop where
  coinbase : ∃ first rest, vtx = first :: rest ∧ first.isCoinBase = true ∧
    ∀ tx ∈ rest, tx.isCoinBase = false
  txs : ∀ tx ∈ vtx, TxShape tx

theorem BlockShape.of_tipFree {env : Validation.Env} {block : Validation.CBlock}
    (checked : Validation.TipFree env block) (outputs : ∀ tx ∈ block.vtx, tx.vout.length < 2 ^ 32) :
    BlockShape block.vtx := by
  refine ⟨?_, fun tx mem => ⟨(checked.txs tx mem).inputs, outputs tx mem⟩⟩
  have layout := checked.layout
  simp only [Validation.checkLayout, bind_eq_ok, failIf_eq_ok, exists_const, not_not] at layout
  obtain ⟨-, first, rest⟩ := layout
  cases hvtx : block.vtx with
  | nil => simp [hvtx] at first
  | cons tx vtx =>
    rw [hvtx] at first rest
    refine ⟨tx, vtx, rfl, by simpa using first, ?_⟩
    simpa using rest

section

variable {cfg : IndexConfig} {nHeight : ℕ} {V V' : CCoinsViewCache} {vtx : List CTransaction}
  {undos : List CTxUndo} {batch : IndexBatch}

def Unused (nHeight : ℕ) (vtx : List CTransaction) (table : COutPoint → Option Coin) : Prop :=
  ∀ tx ∈ vtx, ∀ created ∈ spendableCoins (tx.coins nHeight), table created.1 = none

structure BlockLedger (cfg : IndexConfig) (nHeight : ℕ) (vtx : List CTransaction)
    (undos : List CTxUndo) (batch : IndexBatch) (before after : COutPoint → Option Coin)
    (entries : List LedgerEntry) : Prop where
  ledger : Ledger nHeight before entries after
  txs : entries.map Prod.fst = vtx.zipIdx
  undos : entries.map (fun entry => (entry.1, undoRecord entry.1.1 entry.2)) =
    vtx.zipIdx.zip (none :: undos.map some)
  batch : batch = IndexBatch.concat (entries.map fun entry =>
    connectBatch cfg nHeight entry.1.1 entry.1.2 entry.2)

theorem zip_undoRecord {txs : List (CTransaction × ℕ)}
    (plain : ∀ entry ∈ txs, entry.1.isCoinBase = false) :
    ((txs.zip (undos.map CTxUndo.vprevout)).map fun entry =>
      (entry.1, undoRecord entry.1.1 entry.2)) = txs.zip (undos.map some) := by
  induction txs generalizing undos with
  | nil => rfl
  | cons entry txs ih =>
    cases undos with
    | nil => rfl
    | cons undo undos =>
      rw [List.forall_mem_cons] at plain
      rw [List.map_cons, List.map_cons, List.zip_cons_cons, List.zip_cons_cons, List.map_cons,
        ih plain.2, undoRecord, if_neg (by simp [plain.1])]

theorem connectBlock_ledger (sound : V.Sound) (shape : BlockShape vtx)
    (unused : Unused nHeight vtx V.lookup)
    (connected : connectBlock cfg nHeight vtx V = .ok (undos, batch, V')) :
    undos.length + 1 = vtx.length ∧ V'.Sound ∧
      ∃ entries, BlockLedger cfg nHeight vtx undos batch V.lookup V'.lookup entries := by
  obtain ⟨first, rest, rfl, hcb, plain⟩ := shape.coinbase
  simp only [connectBlock, List.zipIdx_cons, Nat.zero_add, connectTxs, bind_eq_ok, pure_eq_ok,
    Prod.exists, Prod.mk.injEq] at connected
  obtain ⟨_, _, _, ⟨undo, batch₁, W, head, undos', batches, _, tail, rfl, rfl, rfl⟩, rfl, rfl,
    rfl⟩ := connected
  have restMem : ∀ {entry : CTransaction × ℕ}, entry ∈ rest.zipIdx 1 → entry.1 ∈ rest :=
    fun mem => List.fst_mem_of_mem_zipIdx mem
  obtain ⟨next, connects, rfl⟩ := sound.over.connectTx (shape.txs first List.mem_cons_self)
    (unused first List.mem_cons_self) (fun _ => unused first List.mem_cons_self) head
  obtain ⟨lengths, last, ledger, rfl⟩ := next.connectTxs
    (fun entry mem => shape.txs _ (List.mem_cons_of_mem _ (restMem mem)))
    (fun entry mem => plain _ (restMem mem))
    (fun entry mem => unused _ (List.mem_cons_of_mem _ (restMem mem))) tail
  have counts : undos'.length = rest.length := by rw [lengths, List.length_zipIdx]
  refine ⟨by simp [counts], last.toSound,
    ((first, 0), undo.vprevout) :: (rest.zipIdx 1).zip (undos'.map CTxUndo.vprevout),
    .cons connects ledger, ?_, ?_, rfl⟩
  · rw [List.map_cons, List.zipIdx_cons, List.map_fst_zip (by simp [lengths])]
  · rw [List.map_cons, List.zipIdx_cons, zip_undoRecord fun entry mem => plain _ (restMem mem),
      undoRecord, if_pos hcb]
    rfl

theorem BlockLedger.mem {before after : COutPoint → Option Coin} {entries : List LedgerEntry}
    (block : BlockLedger cfg nHeight vtx undos batch before after entries) {entry : LedgerEntry}
    (mem : entry ∈ entries) : entry.1.1 ∈ vtx := by
  have indexed : entry.1 ∈ vtx.zipIdx := block.txs ▸ List.mem_map_of_mem mem
  exact List.fst_mem_of_mem_zipIdx indexed

theorem connectBlock_restorable (sound : V.Sound) (shape : BlockShape vtx) (above : nHeight ≠ 0)
    (unused : Unused nHeight vtx V.lookup)
    (init : ∀ o coin, V.lookup o = some coin → coin.Restorable)
    (connected : connectBlock cfg nHeight vtx V = .ok (undos, batch, V')) :
    ∀ o coin, V'.lookup o = some coin → coin.Restorable := by
  obtain ⟨-, -, entries, block⟩ := connectBlock_ledger sound shape unused connected
  exact block.ledger.all_restorable above (fun entry h => shape.txs _ (block.mem h)) init

def CanRestore (vtx : List CTransaction) (table : COutPoint → Option Coin) : Prop :=
  ∀ tx ∈ vtx, ∀ o ∈ tx.spends, ∀ coin, table o = some coin → coin.Restorable

theorem disconnectBlock_ledger (sound : V.Sound) (shape : BlockShape vtx) (above : nHeight ≠ 0)
    (unused : Unused nHeight vtx V.lookup) (restorable : CanRestore vtx V.lookup)
    (connected : connectBlock cfg nHeight vtx V = .ok (undos, batch, V')) :
    ∃ entries W, BlockLedger cfg nHeight vtx undos batch V.lookup V'.lookup entries ∧
      disconnectBlock cfg nHeight vtx undos V' = .ok (.ok,
        IndexBatch.concat (entries.map fun entry =>
          disconnectBatch cfg nHeight entry.1.1 entry.1.2 entry.2).reverse, W) ∧
      W.lookup = V.lookup := by
  obtain ⟨counts, sound', entries, block⟩ := connectBlock_ledger sound shape unused connected
  have shapes : ∀ entry ∈ entries, TxShape entry.1.1 := fun entry h => shape.txs _ (block.mem h)
  have coins : ∀ entry ∈ entries, ∀ coin ∈ entry.2, coin.Restorable :=
    block.ledger.restorable (fun o => ∃ tx ∈ vtx, o ∈ tx.spends) above shapes
      (fun entry h o spent => ⟨_, block.mem h, spent⟩)
      (fun o coin ⟨tx, htx, spent⟩ present => restorable tx htx o spent coin present)
  obtain ⟨W, run, -, back⟩ := block.ledger.undo shapes coins (s := ⟨true, .empty, V'⟩)
    sound'.over rfl
  rw [block.undos] at run
  refine ⟨entries, W, block, ?_, back⟩
  rw [disconnectBlock, require, failIf, if_neg (not_not.mpr counts)]
  change (disconnectTxs cfg nHeight _ _ >>= fun s => pure _) = _
  rw [run]
  rfl

def noIndexes : IndexConfig := ⟨false, false, fun _ => 0⟩

def heightlessView : CCoinsViewCache where
  base o := if o = ⟨7, 0⟩ then some ⟨⟨5, []⟩, false, 5⟩
    else if o = ⟨7, 1⟩ then some ⟨⟨6, []⟩, false, 0⟩ else none
  cacheCoins := ∅

def spendingBlock (prevout : COutPoint) : List CTransaction :=
  [⟨1, 1, .normal, [⟨COutPoint.null, [0, 0], 0⟩], [⟨1, []⟩], 0, .undecodable, 0⟩,
    ⟨2, 1, .normal, [⟨prevout, [], 0⟩], [⟨6, []⟩], 0, .undecodable, 0⟩]

variable {prevout : COutPoint}

theorem spendingBlock_shape (real : prevout ≠ COutPoint.null) :
    BlockShape (spendingBlock prevout) := by
  refine ⟨⟨_, _, rfl, rfl, ?_⟩, ?_⟩
  · simp [CTransaction.isCoinBase, real]
  · intro tx mem
    simp only [spendingBlock, List.mem_cons, List.not_mem_nil, or_false] at mem
    rcases mem with rfl | rfl
    · exact ⟨by simp, by simp⟩
    · exact ⟨by simp, by simp⟩

theorem heightlessView_sound : heightlessView.Sound := by
  constructor
  · intro o entry h
    simp [heightlessView] at h
  · intro o entry h
    simp [heightlessView] at h

theorem spendingBlock_unused :
    Unused 10 (spendingBlock prevout) heightlessView.lookup := by
  intro tx mem created hcreated
  have other : created.1.hash ≠ 7 := by
    rw [created_hash hcreated]
    simp only [spendingBlock, List.mem_cons, List.not_mem_nil, or_false] at mem
    rcases mem with rfl | rfl
    · exact (by decide : (1 : Uint256) ≠ 7)
    · exact (by decide : (2 : Uint256) ≠ 7)
  have first : created.1 ≠ ⟨7, 0⟩ := fun heq => other (congrArg COutPoint.hash heq)
  have second : created.1 ≠ ⟨7, 1⟩ := fun heq => other (congrArg COutPoint.hash heq)
  have bare : heightlessView.base created.1 = none := (if_neg first).trans (if_neg second)
  rw [lookup_of_not_cached (by simp [heightlessView]), baseCoin, bare]
  rfl

/-- Disconnecting a block with the undo data recorded when it was connected is clean and gives
every outpoint the coin it had before. -/
theorem disconnectBlock_connectBlock (sound : V.Sound) (shape : BlockShape vtx)
    (above : nHeight ≠ 0) (unused : Unused nHeight vtx V.lookup)
    (restorable : CanRestore vtx V.lookup)
    (connected : connectBlock cfg nHeight vtx V = .ok (undos, batch, V')) :
    ∃ batch' W, disconnectBlock cfg nHeight vtx undos V' = .ok (.ok, batch', W) ∧
      W.lookup = V.lookup := by
  obtain ⟨entries, W, -, run, back⟩ :=
    disconnectBlock_ledger sound shape above unused restorable connected
  exact ⟨_, W, run, back⟩

theorem disconnectBlock_connectBlock_sibling :
    ∃ undos batch V' batch' W,
      connectBlock noIndexes 10 (spendingBlock ⟨7, 0⟩) heightlessView = .ok (undos, batch, V') ∧
      disconnectBlock noIndexes 10 (spendingBlock ⟨7, 0⟩) undos V' = .ok (.ok, batch', W) ∧
      W.lookup = heightlessView.lookup := by
  have run : (connectBlock noIndexes 10 (spendingBlock ⟨7, 0⟩) heightlessView).toOption.isSome := by
    decide +kernel
  obtain ⟨⟨undos, batch, V'⟩, connected⟩ := Option.isSome_iff_exists.mp run
  rw [toOption_eq_some] at connected
  have restorable : CanRestore (spendingBlock ⟨7, 0⟩) heightlessView.lookup := by
    intro tx mem o spent coin present
    have only : ∀ tx ∈ spendingBlock ⟨7, 0⟩, ∀ o ∈ tx.spends, o = ⟨7, 0⟩ := by decide +kernel
    have found : heightlessView.lookup ⟨7, 0⟩ = some ⟨⟨5, []⟩, false, 5⟩ := by decide +kernel
    rw [only tx mem o spent, found] at present
    cases present
    exact ⟨by decide, by decide⟩
  obtain ⟨batch', W, disconnected, same⟩ := disconnectBlock_connectBlock heightlessView_sound
    (spendingBlock_shape (by decide)) (by decide) spendingBlock_unused restorable connected
  exact ⟨undos, batch, V', batch', W, connected, disconnected, same⟩

/-- The run ends clean, but the coin comes back with the height of its sibling. -/
theorem disconnectBlock_replaces_height_zero :
    heightlessView.Sound ∧ BlockShape (spendingBlock ⟨7, 1⟩) ∧
      Unused 10 (spendingBlock ⟨7, 1⟩) heightlessView.lookup ∧
      ∃ undos batch V' batch' W,
        connectBlock noIndexes 10 (spendingBlock ⟨7, 1⟩) heightlessView = .ok (undos, batch, V') ∧
        disconnectBlock noIndexes 10 (spendingBlock ⟨7, 1⟩) undos V' = .ok (.ok, batch', W) ∧
        W.lookup ≠ heightlessView.lookup := by
  refine ⟨heightlessView_sound, spendingBlock_shape (by decide), spendingBlock_unused, ?_⟩
  have run : ((connectBlock noIndexes 10 (spendingBlock ⟨7, 1⟩) heightlessView).toOption.bind
      fun done => (disconnectBlock noIndexes 10 (spendingBlock ⟨7, 1⟩) done.1 done.2.2).toOption.map
        fun undone => (undone.1, undone.2.2.lookup ⟨7, 1⟩)) =
        some (.ok, some ⟨⟨6, []⟩, false, 5⟩) := by
    decide +kernel
  simp only [Option.bind_eq_some_iff, Option.map_eq_some_iff, toOption_eq_some, Prod.exists,
    Prod.mk.injEq] at run
  obtain ⟨undos, batch, V', connected, result, batch', W, disconnected, rfl, changed⟩ := run
  refine ⟨undos, batch, V', batch', W, connected, disconnected, fun same => ?_⟩
  rw [same] at changed
  exact absurd changed (by decide +kernel)

end

end ButCore
