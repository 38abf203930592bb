import ButCore.Coins.Undo

/-!
# The indexes after a block is disconnected

Connecting a block and disconnecting it again leaves the three indexes as they were exactly when no
coin that the block spends pays to a public key.
-/
namespace ButCore

open AddressIndex Checked CCoinsViewCache

/-- An input with the coin it spends, or an output with the coin it makes. -/
structure IndexItem where
  spending : Bool
  place : Place
  outpoint : COutPoint
  coin : Coin
  deriving DecidableEq

namespace IndexItem

variable (cfg : IndexConfig) (item : IndexItem)

def address : ScriptAddress := scriptAddress cfg item.coin.out.scriptPubKey

def indexed : Bool := decide (item.address cfg ≠ .other)

def key : CAddressIndexKey := activityKey item.place (item.address cfg) item.spending

def unspentKey : CAddressUnspentKey := AddressIndex.unspentKey (item.address cfg) item.outpoint

def connect : IndexBatch :=
  if item.spending then connectInput cfg item.place item.outpoint item.coin
  else connectOutput cfg item.place item.outpoint item.coin.out

def disconnect : IndexBatch :=
  if item.spending then
    disconnectInput cfg item.place item.outpoint item.coin item.coin.nHeight
  else disconnectOutput cfg item.place item.outpoint item.coin.out

def SpendsPubKey : Prop := item.spending = true ∧ isPayToPublicKey item.coin.out.scriptPubKey = true

end IndexItem

section

variable {cfg : IndexConfig} {script : CScript}

theorem ScriptAddress.addressType_pos {address : ScriptAddress} :
    0 < address.addressType ↔ address ≠ .other := by
  cases address <;> simp [ScriptAddress.addressType]

theorem scriptAddress_pubKey (payTo : isPayToPublicKey script = true) :
    scriptAddress cfg script = .pubKey (cfg.hash160 ((script.drop 1).dropLast)) := by
  have length : script.length = 35 ∨ script.length = 67 := by
    unfold isPayToPublicKey at payTo
    split_ifs at payTo with h35 h67
    · exact Or.inl h35
    · exact Or.inr h67
  have notScriptHash : isPayToScriptHash script = false := by
    rcases length with h | h <;> simp [isPayToScriptHash, h]
  have notPubKeyHash : isPayToPublicKeyHash script = false := by
    rcases length with h | h <;> simp [isPayToPublicKeyHash, h]
  rw [scriptAddress, notScriptHash, notPubKeyHash, payTo]
  rfl

theorem isPayToPublicKey_of_scriptAddress {hashBytes : BitVec 160}
    (address : scriptAddress cfg script = .pubKey hashBytes) : isPayToPublicKey script = true := by
  unfold scriptAddress at address
  split_ifs at address with h₁ h₂ h₃
  exact h₃

end

section

variable (nHeight : ℕ)

def inputItems (entry : LedgerEntry) : List IndexItem :=
  (entry.1.1.spends.zip entry.2).zipIdx.map fun input =>
    ⟨true, ⟨nHeight, entry.1.2, entry.1.1.hash, input.2⟩, input.1.1, input.1.2⟩

def outputItems (entry : LedgerEntry) : List IndexItem :=
  (entry.1.1.coins nHeight).zipIdx.map fun output =>
    ⟨false, ⟨nHeight, entry.1.2, entry.1.1.hash, output.2⟩, output.1.1, output.1.2⟩

def blockItems (entries : List LedgerEntry) : List IndexItem :=
  entries.flatMap fun entry => inputItems nHeight entry ++ outputItems nHeight entry

variable {nHeight} {cfg : IndexConfig} {entry : LedgerEntry} {entries : List LedgerEntry}

theorem connectBatch_items : connectBatch cfg nHeight entry.1.1 entry.1.2 entry.2 =
    IndexBatch.concat ((inputItems nHeight entry ++ outputItems nHeight entry).map
      (IndexItem.connect cfg)) := by
  rw [List.map_append, IndexBatch.concat_append, inputItems, outputItems, List.map_map,
    List.map_map]
  rfl

theorem disconnectBatch_items : disconnectBatch cfg nHeight entry.1.1 entry.1.2 entry.2 =
    IndexBatch.concat ((inputItems nHeight entry ++ outputItems nHeight entry).map
      (IndexItem.disconnect cfg)).reverse := by
  rw [List.map_append, List.reverse_append, IndexBatch.concat_append, inputItems, outputItems,
    List.map_map, List.map_map]
  rfl

theorem concat_connectBatch : IndexBatch.concat (entries.map fun entry =>
    connectBatch cfg nHeight entry.1.1 entry.1.2 entry.2) =
      IndexBatch.concat ((blockItems nHeight entries).map (IndexItem.connect cfg)) := by
  induction entries with
  | nil => rfl
  | cons entry entries ih =>
    rw [blockItems, List.flatMap_cons, List.map_append, IndexBatch.concat_append,
      ← connectBatch_items, ← blockItems, ← ih]
    rfl

theorem concat_disconnectBatch : IndexBatch.concat (entries.map fun entry =>
    disconnectBatch cfg nHeight entry.1.1 entry.1.2 entry.2).reverse =
      IndexBatch.concat ((blockItems nHeight entries).map (IndexItem.disconnect cfg)).reverse := by
  induction entries with
  | nil => rfl
  | cons entry entries ih =>
    rw [blockItems, List.flatMap_cons, List.map_append, List.reverse_append,
      IndexBatch.concat_append, ← disconnectBatch_items, ← blockItems, ← ih, List.map_cons,
      List.reverse_cons, IndexBatch.concat_append, IndexBatch.concat_singleton]

end

/-! ### What the items write -/

theorem concat_map_ite {f : IndexItem → IndexBatch} {p q : IndexItem → Bool}
    {a : IndexItem → CAddressIndexKey × CAmount}
    {b : IndexItem → CAddressUnspentKey × CAddressUnspentValue}
    {c : IndexItem → COutPoint × CSpentIndexValue} {items : List IndexItem}
    (each : ∀ item ∈ items, f item = ⟨if p item then [a item] else [],
      if p item then [b item] else [], if q item then [c item] else []⟩) :
    IndexBatch.concat (items.map f) =
      ⟨(items.filter p).map a, (items.filter p).map b, (items.filter q).map c⟩ := by
  induction items with
  | nil => rfl
  | cons item items ih =>
    rw [List.forall_mem_cons] at each
    change f item ++ IndexBatch.concat (items.map f) = _
    rw [ih each.2, each.1, List.filter_cons, List.filter_cons]
    cases p item <;> cases q item <;> rfl

namespace IndexItem

variable {cfg : IndexConfig} (item : IndexItem)

def activity : CAmount :=
  if item.spending then item.coin.out.nValue * -1 else item.coin.out.nValue

def unspentValue (spending : Bool) (nHeight : ℕ) : CAddressUnspentValue :=
  if spending then CAddressUnspentValue.null
  else ⟨item.coin.out.nValue, item.coin.out.scriptPubKey, nHeight⟩

def spentValue (cfg : IndexConfig) : CSpentIndexValue :=
  ⟨item.place.txhash, item.place.index, item.place.nHeight, item.coin.out.nValue,
    (item.address cfg).addressType, (item.address cfg).hashBytes⟩

variable {item}

theorem connect_eq (addressOn : cfg.fAddressIndex = true) (spentOn : cfg.fSpentIndex = true) :
    item.connect cfg =
      ⟨if item.indexed cfg then [(item.key cfg, item.activity)] else [],
        if item.indexed cfg then
          [(item.unspentKey cfg, item.unspentValue item.spending item.place.nHeight)] else [],
        if item.spending then [(item.outpoint, item.spentValue cfg)] else []⟩ := by
  obtain ⟨spending, place, outpoint, coin⟩ := item
  cases spending with
  | true =>
    simp only [connect, connectInput, addressOn, spentOn, ScriptAddress.addressType_pos,
      Bool.true_and, if_true]
    rfl
  | false =>
    by_cases other : scriptAddress cfg coin.out.scriptPubKey = .other
    · simp [connect, connectOutput, indexed, IndexItem.address, other, IndexBatch.empty]
    · simp [connect, connectOutput, indexed, IndexItem.address, other, addressOn, key, unspentKey,
        activity, unspentValue]

theorem disconnect_eq (addressOn : cfg.fAddressIndex = true) (spentOn : cfg.fSpentIndex = true)
    (other : ¬ item.SpendsPubKey) : item.disconnect cfg =
      ⟨if item.indexed cfg then [(item.key cfg, item.activity)] else [],
        if item.indexed cfg then
          [(item.unspentKey cfg, item.unspentValue (!item.spending) item.coin.nHeight)] else [],
        if item.spending then [(item.outpoint, CSpentIndexValue.null)] else []⟩ := by
  obtain ⟨spending, place, outpoint, coin⟩ := item
  cases spending with
  | true =>
    cases address : scriptAddress cfg coin.out.scriptPubKey with
    | pubKey h => exact absurd ⟨rfl, isPayToPublicKey_of_scriptAddress address⟩ other
    | scriptHash h | pubKeyHash h | other =>
      simp [disconnect, disconnectInput, indexed, key, unspentKey, IndexItem.address, activity,
        unspentValue, addressOn, spentOn, address]
  | false =>
    by_cases other : scriptAddress cfg coin.out.scriptPubKey = .other
    · simp [disconnect, disconnectOutput, indexed, IndexItem.address, other, IndexBatch.empty]
    · simp [disconnect, disconnectOutput, indexed, IndexItem.address, other, addressOn, key,
        unspentKey, activity, unspentValue]

theorem SpendsPubKey.disconnect_addressIndex (spends : item.SpendsPubKey)
    (addressOn : cfg.fAddressIndex = true) : (item.disconnect cfg).addressIndex =
      [(activityKey item.place (item.address cfg) false, item.coin.out.nValue)] := by
  rw [disconnect, if_pos spends.1, disconnectInput, IndexItem.address,
    scriptAddress_pubKey spends.2, addressOn]
  rfl

end IndexItem

section

variable {cfg : IndexConfig} {items : List IndexItem} {indexes : Indexes}

def connectItems (cfg : IndexConfig) (items : List IndexItem) : IndexBatch :=
  IndexBatch.concat (items.map (IndexItem.connect cfg))

def disconnectItems (cfg : IndexConfig) (items : List IndexItem) : IndexBatch :=
  IndexBatch.concat (items.map (IndexItem.disconnect cfg)).reverse

theorem connectItems_eq (addressOn : cfg.fAddressIndex = true) (spentOn : cfg.fSpentIndex = true) :
    connectItems cfg items =
      ⟨(items.filter (IndexItem.indexed cfg)).map fun item => (item.key cfg, item.activity),
        (items.filter (IndexItem.indexed cfg)).map fun item =>
          (item.unspentKey cfg, item.unspentValue item.spending item.place.nHeight),
        (items.filter IndexItem.spending).map fun item =>
          (item.outpoint, item.spentValue cfg)⟩ := by
  exact concat_map_ite fun item _ => item.connect_eq addressOn spentOn

theorem disconnectItems_eq (addressOn : cfg.fAddressIndex = true)
    (spentOn : cfg.fSpentIndex = true) (other : ∀ item ∈ items, ¬ item.SpendsPubKey) :
    disconnectItems cfg items =
      ⟨(items.filter (IndexItem.indexed cfg)).reverse.map fun item => (item.key cfg, item.activity),
        (items.filter (IndexItem.indexed cfg)).reverse.map fun item =>
          (item.unspentKey cfg, item.unspentValue (!item.spending) item.coin.nHeight),
        (items.filter IndexItem.spending).reverse.map fun item =>
          (item.outpoint, CSpentIndexValue.null)⟩ := by
  rw [disconnectItems, ← List.map_reverse, ← List.filter_reverse, ← List.filter_reverse]
  exact concat_map_ite fun item mem =>
    item.disconnect_eq addressOn spentOn (other item (List.mem_reverse.mp mem))

/-- What the indexes have to hold before for the items to be taken back. At each key only the first
item counts. -/
structure Prior (cfg : IndexConfig) (items : List IndexItem) (indexes : Indexes) : Prop where
  address : ∀ item ∈ items, indexes.address (item.key cfg) = none
  unspent : ∀ pre item post, items = pre ++ item :: post → item.indexed cfg = true →
    (∀ earlier ∈ pre, earlier.indexed cfg = true → earlier.unspentKey cfg ≠ item.unspentKey cfg) →
    unspentWrite (item.unspentValue (!item.spending) item.coin.nHeight) =
      indexes.addressUnspent (item.unspentKey cfg)
  spent : ∀ item ∈ items, item.spending = true → indexes.spent item.outpoint = none

theorem split_of_filter {α : Type*} {p : α → Bool} {l pre post : List α} {x : α}
    (split : l.filter p = pre ++ x :: post) :
    p x = true ∧ ∃ pre' post', l = pre' ++ x :: post' ∧ pre'.filter p = pre := by
  obtain ⟨l₁, l₂, rfl, hl₁, hl₂⟩ := List.filter_eq_append_iff.mp split
  obtain ⟨l₃, l₄, rfl, skipped, hx, -⟩ := List.filter_eq_cons_iff.mp hl₂
  refine ⟨hx, l₁ ++ l₃, l₄, by simp, ?_⟩
  rw [List.filter_append, hl₁, List.filter_eq_nil_iff.mpr skipped, List.append_nil]

theorem Prior.restored (prior : Prior cfg items indexes) (addressOn : cfg.fAddressIndex = true)
    (spentOn : cfg.fSpentIndex = true) (other : ∀ item ∈ items, ¬ item.SpendsPubKey) :
    (indexes.connect cfg (connectItems cfg items)).disconnect cfg (disconnectItems cfg items) =
      indexes := by
  rw [connectItems_eq addressOn spentOn, disconnectItems_eq addressOn spentOn other]
  simp only [Indexes.connect, Indexes.disconnect, addressOn, spentOn, if_true,
    Indexes.updateAddressUnspentIndex, Indexes.eraseAddressIndex, Indexes.writeAddressIndex,
    Indexes.updateSpentIndex, Table.writeAll_map]
  refine Indexes.ext ?_ ?_ ?_
  · refine Table.writeAll_undo fun pre item post split _ => ?_
    have mem : item ∈ items.filter (IndexItem.indexed cfg) := split ▸ by simp
    exact (prior.address item (List.mem_of_mem_filter mem)).symm
  · refine Table.writeAll_undo fun pre item post split absent => ?_
    obtain ⟨indexed, pre', post', split', rfl⟩ := split_of_filter split
    refine prior.unspent pre' item post' split' indexed fun earlier mem indexed' same => absent ?_
    exact List.mem_map.mpr ⟨earlier, List.mem_filter.mpr ⟨mem, indexed'⟩, same⟩
  · refine Table.writeAll_undo fun pre item post split _ => ?_
    have mem : item ∈ items.filter IndexItem.spending := split ▸ by simp
    obtain ⟨mem, spending⟩ := List.mem_filter.mp mem
    exact (prior.spent item mem spending).symm

end

/-! ### Where a spent coin comes from -/

section

variable {nHeight : ℕ} {cfg : IndexConfig} {entry : LedgerEntry} {entries : List LedgerEntry}
  {item : IndexItem} {before after : COutPoint → Option Coin}

theorem mem_inputItems (mem : item ∈ inputItems nHeight entry) : item.spending = true ∧
    item.place = ⟨nHeight, entry.1.2, entry.1.1.hash, item.place.index⟩ ∧
    ((item.outpoint, item.coin), item.place.index) ∈ (entry.1.1.spends.zip entry.2).zipIdx := by
  obtain ⟨input, hinput, rfl⟩ := List.mem_map.mp mem
  exact ⟨rfl, rfl, hinput⟩

theorem mem_outputItems (mem : item ∈ outputItems nHeight entry) : item.spending = false ∧
    item.place = ⟨nHeight, entry.1.2, entry.1.1.hash, item.place.index⟩ ∧
    (item.outpoint, item.coin) ∈ entry.1.1.coins nHeight := by
  obtain ⟨output, houtput, rfl⟩ := List.mem_map.mp mem
  exact ⟨rfl, rfl, List.fst_mem_of_mem_zipIdx houtput⟩

variable (entry) in
theorem exists_outputItem {o : COutPoint} {coin : Coin}
    (mem : (o, coin) ∈ entry.1.1.coins nHeight) :
    ∃ item ∈ outputItems nHeight entry, item.spending = false ∧ item.outpoint = o ∧
      item.coin = coin := by
  obtain ⟨k, hk⟩ := List.mem_iff_getElem?.mp mem
  exact ⟨_, List.mem_map_of_mem (List.mk_mem_zipIdx_iff_getElem?.mpr hk), rfl, rfl, rfl⟩

theorem mem_blockItems (mem : item ∈ blockItems nHeight entries) : ∃ entry ∈ entries,
    item ∈ inputItems nHeight entry ∨ item ∈ outputItems nHeight entry := by
  obtain ⟨entry, hentry, mem⟩ := List.mem_flatMap.mp mem
  exact ⟨entry, hentry, List.mem_append.mp mem⟩

theorem blockItems_place (mem : item ∈ blockItems nHeight entries) :
    item.place.nHeight = nHeight := by
  obtain ⟨entry, -, mem | mem⟩ := mem_blockItems mem
  · rw [(mem_inputItems mem).2.1]
  · rw [(mem_outputItems mem).2.1]

theorem Ledger.origin (ledger : Ledger nHeight before entries after)
    (shape : ∀ entry ∈ entries, TxShape entry.1.1) {pre post : List IndexItem}
    (split : blockItems nHeight entries = pre ++ item :: post) (spending : item.spending = true) :
    before item.outpoint = some item.coin ∨ ∃ earlier ∈ pre, earlier.spending = false ∧
      earlier.outpoint = item.outpoint ∧ earlier.coin = item.coin := by
  induction ledger generalizing pre with
  | nil table => simp [blockItems] at split
  | @cons before middle after tx txindex coins rest connects ledger ih =>
    rw [List.forall_mem_cons] at shape
    rw [blockItems, List.flatMap_cons, ← blockItems] at split
    -- The item stands among those of a later transaction.
    have later : ∀ pre', pre = inputItems nHeight ((tx, txindex), coins) ++
        outputItems nHeight ((tx, txindex), coins) ++ pre' →
        blockItems nHeight rest = pre' ++ item :: post →
        before item.outpoint = some item.coin ∨ ∃ earlier ∈ pre, earlier.spending = false ∧
          earlier.outpoint = item.outpoint ∧ earlier.coin = item.coin := by
      rintro pre' rfl tail
      rcases ih shape.2 tail with there | ⟨earlier, mem, made⟩
      · rcases connects.origin shape.1 there with ⟨there, -⟩ | created
        · exact Or.inl there
        · obtain ⟨earlier, mem, made⟩ := exists_outputItem ((tx, txindex), coins)
            (List.mem_of_mem_filter created)
          exact Or.inr ⟨earlier,
            List.mem_append_left _ (List.mem_append_right _ mem), made⟩
      · exact Or.inr ⟨earlier, List.mem_append_right _ mem, made⟩
    rcases List.append_eq_append_iff.mp split with ⟨pre', hpre, tail⟩ | ⟨own, hown, tail⟩
    · exact later pre' hpre tail
    · cases own with
      | nil => exact later [] (by simpa using hown.symm) tail.symm
      | cons first own =>
        obtain ⟨rfl, -⟩ := List.cons_eq_cons.mp tail
        have mem : item ∈ inputItems nHeight ((tx, txindex), coins) ++
            outputItems nHeight ((tx, txindex), coins) := by
          rw [hown]
          simp
        rcases List.mem_append.mp mem with mem | mem
        · exact Or.inl (connects.held.inputs.2 _ (mem_inputItems mem).2.2).1
        · exact absurd spending (by simp [(mem_outputItems mem).1])

end

/-! ### The indexes before and after -/

def spentCoins (nHeight : ℕ) : List CTransaction → (COutPoint → Option Coin) → List Coin
  | [], _ => []
  | tx :: vtx, table => tx.spends.filterMap table ++ spentCoins nHeight vtx
      (Table.putAll Prod.fst Prod.snd (spendableCoins (tx.coins nHeight))
        (Table.eraseAll id tx.spends table))

/-- The indexes belong to the chain below the block: nothing is recorded at its height, every coin
with an address has its entry and no spender, and the outputs of the block are not known. -/
structure IndexesMatch (cfg : IndexConfig) (nHeight : ℕ) (vtx : List CTransaction)
    (table : COutPoint → Option Coin) (indexes : Indexes) : Prop where
  address : ∀ key, key.blockHeight = nHeight → indexes.address key = none
  unspent : ∀ o coin, table o = some coin → scriptAddress cfg coin.out.scriptPubKey ≠ .other →
    indexes.addressUnspent (unspentKey (scriptAddress cfg coin.out.scriptPubKey) o) =
      some ⟨coin.out.nValue, coin.out.scriptPubKey, coin.nHeight⟩
  unspent_new : ∀ tx ∈ vtx, ∀ created ∈ tx.coins nHeight, indexes.addressUnspent
    (unspentKey (scriptAddress cfg created.2.out.scriptPubKey) created.1) = none
  spent : ∀ o coin, table o = some coin → indexes.spent o = none
  spent_new : ∀ tx ∈ vtx, ∀ created ∈ tx.coins nHeight, indexes.spent created.1 = none

section

variable {cfg : IndexConfig} {nHeight : ℕ} {vtx : List CTransaction} {undos : List CTxUndo}
  {batch : IndexBatch} {before after : COutPoint → Option Coin} {entries : List LedgerEntry}
  {indexes : Indexes} {item : IndexItem}

theorem Holds.filterMap {table : COutPoint → Option Coin} {os : List COutPoint} {coins : List Coin}
    (held : Holds table os coins) : os.filterMap table = coins := by
  induction held with
  | nil => rfl
  | cons present held ih => rw [List.filterMap_cons_some present, ih]

theorem Ledger.spentCoins_eq (ledger : Ledger nHeight before entries after) :
    spentCoins nHeight (entries.map fun entry => entry.1.1) before =
      entries.flatMap Prod.snd := by
  induction ledger with
  | nil table => rfl
  | cons connects ledger ih =>
    rw [List.map_cons, spentCoins, connects.held.filterMap, ← connects.after_eq, ih,
      List.flatMap_cons]

theorem Ledger.exists_inputItem {entry : LedgerEntry} {coin : Coin}
    (ledger : Ledger nHeight before entries after) (hentry : entry ∈ entries)
    (mem : coin ∈ entry.2) :
    ∃ item ∈ inputItems nHeight entry, item.spending = true ∧ item.coin = coin := by
  induction ledger with
  | nil table => cases hentry
  | cons connects ledger ih =>
    rcases List.mem_cons.mp hentry with rfl | hentry
    · obtain ⟨o, -, -, pair⟩ := connects.held.exists_of_mem mem
      obtain ⟨j, hj⟩ := List.mem_iff_getElem?.mp pair
      exact ⟨_, List.mem_map_of_mem (List.mk_mem_zipIdx_iff_getElem?.mpr hj), rfl, rfl⟩
    · exact ih hentry

theorem Ledger.spends_iff (ledger : Ledger nHeight before entries after) {P : Coin → Prop} :
    (∀ item ∈ blockItems nHeight entries, item.spending = true → P item.coin) ↔
      ∀ coin ∈ spentCoins nHeight (entries.map fun entry => entry.1.1) before, P coin := by
  rw [ledger.spentCoins_eq]
  constructor
  · intro each coin mem
    obtain ⟨entry, hentry, mem⟩ := List.mem_flatMap.mp mem
    obtain ⟨item, hitem, spending, same⟩ := ledger.exists_inputItem hentry mem
    rw [← same]
    exact each item (List.mem_flatMap.mpr ⟨entry, hentry, List.mem_append_left _ hitem⟩) spending
  · intro each item mem spending
    obtain ⟨entry, hentry, mem | mem⟩ := mem_blockItems mem
    · have input := List.fst_mem_of_mem_zipIdx (mem_inputItems mem).2.2
      exact each _ (List.mem_flatMap.mpr ⟨entry, hentry, (List.of_mem_zip input).2⟩)
    · exact absurd spending (by simp [(mem_outputItems mem).1])

theorem BlockLedger.created (block : BlockLedger cfg nHeight vtx undos batch before after entries)
    (mem : item ∈ blockItems nHeight entries) (output : item.spending = false) :
    ∃ tx ∈ vtx, (item.outpoint, item.coin) ∈ tx.coins nHeight := by
  obtain ⟨entry, hentry, mem | mem⟩ := mem_blockItems mem
  · exact absurd output (by simp [(mem_inputItems mem).1])
  · exact ⟨_, block.mem hentry, (mem_outputItems mem).2.2⟩

theorem BlockLedger.prior (block : BlockLedger cfg nHeight vtx undos batch before after entries)
    (shape : ∀ entry ∈ entries, TxShape entry.1.1)
    (unspent_ : ∀ o coin, before o = some coin → coin.isSpent = false)
    (matched : IndexesMatch cfg nHeight vtx before indexes) :
    Prior cfg (blockItems nHeight entries) indexes := by
  refine ⟨fun item mem => matched.address _ (blockItems_place mem), ?_, ?_⟩
  · intro pre item post split indexed first
    cases spending : item.spending with
    | false =>
      obtain ⟨tx, htx, created⟩ := block.created (split ▸ by simp) spending
      exact (matched.unspent_new tx htx _ created).symm
    | true =>
      rcases block.ledger.origin shape split spending with there | ⟨earlier, mem, made⟩
      · have value : item.unspentValue (!true) item.coin.nHeight =
            ⟨item.coin.out.nValue, item.coin.out.scriptPubKey, item.coin.nHeight⟩ := rfl
        have notNull : item.coin.out.nValue ≠ -1 := of_decide_eq_false (unspent_ _ _ there)
        rw [value, unspentWrite, if_neg (by simpa [CAddressUnspentValue.isNull] using notNull)]
        exact (matched.unspent _ _ there (of_decide_eq_true indexed)).symm
      · obtain ⟨-, sameOutpoint, sameCoin⟩ := made
        have sameAddress : earlier.address cfg = item.address cfg := by
          rw [IndexItem.address, IndexItem.address, sameCoin]
        refine absurd ?_ (first earlier mem ?_)
        · rw [IndexItem.unspentKey, IndexItem.unspentKey, sameAddress, sameOutpoint]
        · rw [IndexItem.indexed, sameAddress]
          exact indexed
  · intro item mem spending
    obtain ⟨pre, post, split⟩ := List.append_of_mem mem
    rcases block.ledger.origin shape split spending with
      there | ⟨earlier, hearlier, output, same, -⟩
    · exact matched.spent _ _ there
    · obtain ⟨tx, htx, created⟩ := block.created (split ▸ List.mem_append_left _ hearlier) output
      exact same ▸ matched.spent_new tx htx _ created

/-! ### An input that spends a pay-to-public-key coin -/

theorem mem_concat_addressIndex {batches : List IndexBatch} {write : CAddressIndexKey × CAmount}
    (mem : write ∈ (IndexBatch.concat batches).addressIndex) :
    ∃ batch ∈ batches, write ∈ batch.addressIndex := by
  induction batches with
  | nil => cases mem
  | cons batch batches ih =>
    rcases List.mem_append.mp mem with mem | mem
    · exact ⟨batch, List.mem_cons_self, mem⟩
    · obtain ⟨batch', hbatch, mem⟩ := ih mem
      exact ⟨batch', List.mem_cons_of_mem _ hbatch, mem⟩

theorem BlockLedger.input_unique
    (block : BlockLedger cfg nHeight vtx undos batch before after entries)
    {other : IndexItem} (mem : item ∈ blockItems nHeight entries)
    (mem' : other ∈ blockItems nHeight entries) (spending : item.spending = true)
    (spending' : other.spending = true) (same : item.place = other.place) : item = other := by
  obtain ⟨entry, hentry, hitem | hitem⟩ := mem_blockItems mem
  swap
  · exact absurd spending (by simp [(mem_outputItems hitem).1])
  obtain ⟨entry', hentry', hother | hother⟩ := mem_blockItems mem'
  swap
  · exact absurd spending' (by simp [(mem_outputItems hother).1])
  obtain ⟨-, place, input⟩ := mem_inputItems hitem
  obtain ⟨-, place', input'⟩ := mem_inputItems hother
  have index : entry.1.2 = entry'.1.2 := by
    have txindex := congrArg Place.txindex same
    rwa [place, place'] at txindex
  have here : entry.1 ∈ vtx.zipIdx := block.txs ▸ List.mem_map_of_mem hentry
  have here' : entry'.1 ∈ vtx.zipIdx := block.txs ▸ List.mem_map_of_mem hentry'
  rw [List.mem_zipIdx_iff_getElem?] at here here'
  rw [← index, here, Option.some.injEq] at here'
  have distinct : (entries.map Prod.fst).Nodup := by
    rw [block.txs]
    refine List.Nodup.of_map Prod.snd ?_
    rw [List.zipIdx_map_snd]
    exact List.nodup_range'
  obtain rfl := List.inj_on_of_nodup_map distinct hentry hentry' (Prod.ext here' index)
  rw [← same, List.mk_mem_zipIdx_iff_getElem?] at input'
  rw [List.mk_mem_zipIdx_iff_getElem?, input', Option.some.injEq, Prod.mk.injEq] at input
  rw [IndexItem.mk.injEq]
  exact ⟨spending.trans spending'.symm, same, input.1.symm, input.2.symm⟩

theorem BlockLedger.not_restored
    (block : BlockLedger cfg nHeight vtx undos batch before after entries)
    (addressOn : cfg.fAddressIndex = true) (spentOn : cfg.fSpentIndex = true)
    (matched : IndexesMatch cfg nHeight vtx before indexes)
    (mem : item ∈ blockItems nHeight entries) (spends : item.SpendsPubKey) :
    (indexes.connect cfg (connectItems cfg (blockItems nHeight entries))).disconnect cfg
      (disconnectItems cfg (blockItems nHeight entries)) ≠ indexes := by
  intro restored
  have kept : item.key cfg ∉
      (disconnectItems cfg (blockItems nHeight entries)).addressIndex.map Prod.fst := by
    intro mem'
    obtain ⟨write, hwrite, hkey⟩ := List.mem_map.mp mem'
    obtain ⟨batch', hbatch, hwrite⟩ := mem_concat_addressIndex hwrite
    obtain ⟨other, hother, rfl⟩ := List.mem_map.mp (List.mem_reverse.mp hbatch)
    by_cases spends' : other.SpendsPubKey
    · rw [spends'.disconnect_addressIndex addressOn, List.mem_singleton] at hwrite
      rw [hwrite] at hkey
      have receiving : false = item.spending := congrArg CAddressIndexKey.spending hkey
      rw [spends.1] at receiving
      exact absurd receiving (by decide)
    · rw [IndexItem.disconnect_eq addressOn spentOn spends'] at hwrite
      have hwrite : write = (other.key cfg, other.activity) := by
        simp only at hwrite
        split_ifs at hwrite
        · exact List.mem_singleton.mp hwrite
        · cases hwrite
      rw [hwrite] at hkey
      have place : other.place = item.place := by
        rw [Place.mk.injEq]
        exact ⟨congrArg CAddressIndexKey.blockHeight hkey, congrArg CAddressIndexKey.txindex hkey,
          congrArg CAddressIndexKey.txhash hkey, congrArg CAddressIndexKey.index hkey⟩
      have spending' : other.spending = true :=
        (congrArg CAddressIndexKey.spending hkey).trans spends.1
      exact spends' (block.input_unique hother mem spending' spends.1 place ▸ spends)
  have cleared := congrFun (congrArg Indexes.address restored) (item.key cfg)
  rw [matched.address _ (blockItems_place mem)] at cleared
  rw [connectItems_eq addressOn spentOn] at cleared
  simp only [Indexes.connect, Indexes.disconnect, addressOn, spentOn, if_true,
    Indexes.updateAddressUnspentIndex, Indexes.eraseAddressIndex, Indexes.writeAddressIndex,
    Indexes.updateSpentIndex, Table.writeAll_map] at cleared
  rw [Table.writeAll_of_notMem kept] at cleared
  refine Table.writeAll_some_ne_none (List.mem_map_of_mem (List.mem_filter.mpr ⟨mem, ?_⟩)) cleared
  rw [IndexItem.indexed, IndexItem.address, scriptAddress_pubKey spends.2]
  rfl

end

/-! ### A pay-to-public-key coin -/

def allIndexes : IndexConfig := ⟨true, true, fun _ => 9⟩

def pubKeyScript : CScript := 0x21 :: 0x02 :: List.replicate 32 0 ++ [OP_CHECKSIG]

def pubKeyCoin : Coin := ⟨⟨5, pubKeyScript⟩, false, 5⟩

def pubKeyView : CCoinsViewCache where
  base o := if o = ⟨7, 0⟩ then some pubKeyCoin else none
  cacheCoins := ∅

def pubKeyIndexes : Indexes where
  address _ := none
  addressUnspent key := if key = ⟨1, 9, ⟨7, 0⟩⟩ then some ⟨5, pubKeyScript, 5⟩ else none
  spent _ := none

theorem pubKeyView_lookup {o : COutPoint} {coin : Coin}
    (present : pubKeyView.lookup o = some coin) : o = ⟨7, 0⟩ ∧ coin = pubKeyCoin := by
  rw [lookup_of_not_cached (by simp [pubKeyView]), baseCoin, unspent_eq_some] at present
  obtain ⟨found, -⟩ := present
  change (if o = ⟨7, 0⟩ then some pubKeyCoin else none) = some coin at found
  split_ifs at found with here
  exact ⟨here, (Option.some.inj found).symm⟩

theorem pubKeyView_sound : pubKeyView.Sound := by
  constructor
  · intro o entry h
    simp [pubKeyView] at h
  · intro o entry h
    simp [pubKeyView] at h

theorem pubKeyView_unused : Unused 10 (spendingBlock ⟨7, 0⟩) pubKeyView.lookup := by
  unfold Unused
  decide +kernel

theorem pubKeyView_canRestore : CanRestore (spendingBlock ⟨7, 0⟩) pubKeyView.lookup := by
  intro tx mem o spent coin present
  rw [(pubKeyView_lookup present).2]
  exact ⟨by decide, by decide⟩

theorem pubKeyIndexes_match :
    IndexesMatch allIndexes 10 (spendingBlock ⟨7, 0⟩) pubKeyView.lookup pubKeyIndexes where
  address _ _ := rfl
  unspent o coin present _ := by
    obtain ⟨rfl, rfl⟩ := pubKeyView_lookup present
    decide +kernel
  unspent_new := by decide +kernel
  spent _ _ _ := rfl
  spent_new _ _ _ _ := rfl

section

variable {cfg : IndexConfig} {nHeight : ℕ} {vtx : List CTransaction} {undos : List CTxUndo}
  {batch : IndexBatch} {indexes : Indexes} {V V' : CCoinsViewCache}

/-- Connecting and disconnecting a block leaves the indexes as they were exactly when no coin that
it spends pays to a public key. -/
theorem indexes_restored_iff (addressOn : cfg.fAddressIndex = true)
    (spentOn : cfg.fSpentIndex = true) (sound : V.Sound) (shape : BlockShape vtx)
    (above : nHeight ≠ 0) (unused : Unused nHeight vtx V.lookup)
    (restorable : CanRestore vtx V.lookup)
    (matched : IndexesMatch cfg nHeight vtx V.lookup indexes)
    (connected : connectBlock cfg nHeight vtx V = .ok (undos, batch, V')) :
    ∃ batch' W, disconnectBlock cfg nHeight vtx undos V' = .ok (.ok, batch', W) ∧
      ((indexes.connect cfg batch).disconnect cfg batch' = indexes ↔
        ∀ coin ∈ spentCoins nHeight vtx V.lookup,
          isPayToPublicKey coin.out.scriptPubKey = false) := by
  obtain ⟨entries, W, block, run, -⟩ :=
    disconnectBlock_ledger sound shape above unused restorable connected
  refine ⟨_, W, run, ?_⟩
  have txs : (entries.map fun entry => entry.1.1) = vtx := by
    calc (entries.map fun entry => entry.1.1)
        = (entries.map Prod.fst).map Prod.fst := List.map_map.symm
      _ = vtx := by rw [block.txs, List.zipIdx_map_fst]
  have spends := block.ledger.spends_iff
    (P := fun coin => isPayToPublicKey coin.out.scriptPubKey = false)
  rw [txs] at spends
  rw [block.batch, concat_connectBatch, concat_disconnectBatch, ← spends]
  constructor
  · intro restored item mem spending
    by_contra payTo
    exact block.not_restored addressOn spentOn matched mem
      ⟨spending, (Bool.not_eq_false _).mp payTo⟩ restored
  · intro other
    have prior := block.prior (fun entry h => shape.txs _ (block.mem h))
      (fun o coin present => lookup_isSpent present) matched
    refine prior.restored addressOn spentOn ?_
    rintro item mem ⟨spending, payTo⟩
    exact absurd (payTo.symm.trans (other item mem spending)) (by decide)

end

theorem indexes_restored_iff_pubKey : ∃ undos batch V' batch' W,
    connectBlock allIndexes 10 (spendingBlock ⟨7, 0⟩) pubKeyView = .ok (undos, batch, V') ∧
    disconnectBlock allIndexes 10 (spendingBlock ⟨7, 0⟩) undos V' = .ok (.ok, batch', W) ∧
    ((pubKeyIndexes.connect allIndexes batch).disconnect allIndexes batch' = pubKeyIndexes ↔
      ∀ coin ∈ spentCoins 10 (spendingBlock ⟨7, 0⟩) pubKeyView.lookup,
        isPayToPublicKey coin.out.scriptPubKey = false) := by
  have run : (connectBlock allIndexes 10 (spendingBlock ⟨7, 0⟩) pubKeyView).toOption.isSome := by
    decide +kernel
  obtain ⟨⟨undos, batch, V'⟩, connected⟩ := Option.isSome_iff_exists.mp run
  rw [toOption_eq_some] at connected
  obtain ⟨batch', W, disconnected, verdict⟩ := indexes_restored_iff rfl rfl pubKeyView_sound
    (spendingBlock_shape (by decide)) (by decide) pubKeyView_unused pubKeyView_canRestore
    pubKeyIndexes_match connected
  exact ⟨undos, batch, V', batch', W, connected, disconnected, verdict⟩

/-- The spending of the coin stays in the address index, and its entry in the address-unspent index
is not restored. -/
theorem indexes_keep_pubKey_spend :
    pubKeyView.Sound ∧ BlockShape (spendingBlock ⟨7, 0⟩) ∧
    IndexesMatch allIndexes 10 (spendingBlock ⟨7, 0⟩) pubKeyView.lookup pubKeyIndexes ∧
    ∃ undos batch V' batch' W,
      connectBlock allIndexes 10 (spendingBlock ⟨7, 0⟩) pubKeyView = .ok (undos, batch, V') ∧
      disconnectBlock allIndexes 10 (spendingBlock ⟨7, 0⟩) undos V' = .ok (.ok, batch', W) ∧
      ((pubKeyIndexes.connect allIndexes batch).disconnect allIndexes batch').address
        ⟨1, 9, 10, 1, 2, 0, true⟩ = some (-5) ∧
      ((pubKeyIndexes.connect allIndexes batch).disconnect allIndexes batch').addressUnspent
        ⟨1, 9, ⟨7, 0⟩⟩ = none ∧
      (pubKeyIndexes.connect allIndexes batch).disconnect allIndexes batch' ≠ pubKeyIndexes := by
  refine ⟨pubKeyView_sound, spendingBlock_shape (by decide), pubKeyIndexes_match, ?_⟩
  have run : ((connectBlock allIndexes 10 (spendingBlock ⟨7, 0⟩) pubKeyView).toOption.bind
      fun done => (disconnectBlock allIndexes 10 (spendingBlock ⟨7, 0⟩) done.1
        done.2.2).toOption.map fun undone =>
          let indexes := pubKeyIndexes.connect allIndexes done.2.1
          let indexes := indexes.disconnect allIndexes undone.2.1
          (undone.1, indexes.address ⟨1, 9, 10, 1, 2, 0, true⟩,
            indexes.addressUnspent ⟨1, 9, ⟨7, 0⟩⟩)) = some (.ok, some (-5), none) := by
    decide +kernel
  simp only [Option.bind_eq_some_iff, Option.map_eq_some_iff, toOption_eq_some, Prod.exists,
    Prod.mk.injEq] at run
  obtain ⟨undos, batch, V', connected, result, batch', W, disconnected, rfl, spend, unspent⟩ := run
  refine ⟨undos, batch, V', batch', W, connected, disconnected, spend, unspent, fun same => ?_⟩
  rw [same] at spend
  exact absurd spend (by decide)

end ButCore
