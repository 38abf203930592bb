import ButCore.Evo.BlockDiff
import ButCore.Lib.Steps

/-!
# PoSe scores over a chain

A block changes the state of a listed smartnode in one of eight ways, and what all of them keep
holds along every chain.
-/
namespace ButCore.Evo

open Checked CDeterministicMNList

structure Listed (P : CDeterministicMNState → Prop) (height : ℤ) (list : CDeterministicMNList) :
    Prop where
  height : list.nHeight = height
  hash : ∀ {h dmn}, list.getMN h = some dmn → dmn.proTxHash = h
  state : ∀ {h dmn}, list.getMN h = some dmn → P dmn.pdmnState

/-- While the block is processed, `PoSePunish` is called on `list` for `h`. -/
inductive Punishes (env : Env) (oldList : CDeterministicMNList) (vtx : List CTransaction) :
    CDeterministicMNList → Uint256 → Prop where
  | member {newList reached list : CDeterministicMNList} {done rest : List CTransaction}
      {tx : CTransaction} {qc : CFinalCommitmentTxPayload} {members others : List (Uint256 × ℕ)}
      {h : Uint256} {i : ℕ}
      (prepared : prepareList env oldList = .ok newList)
      (block : vtx.drop 1 = done ++ tx :: rest)
      (applied : done.foldlM (applyTx env) newList = .ok reached)
      (special : tx.nVersion = 3 ∧ tx.nType = .quorumCommitment)
      (payload : tx.finalCommitmentPayload = some qc)
      (nonNull : isNullCommitment qc.commitment = false)
      (quorum : (env.getAllQuorumMembers qc.commitment.llmqType qc.commitment.quorumHash).zipIdx =
        members ++ (h, i) :: others)
      (punished : members.foldlM (punishMember env qc.commitment) reached = .ok list)
      (listed : list.hasMN h = true)
      (failed : readBit env qc.commitment.validMembers i = false) :
      Punishes env oldList vtx list h

variable {P : CDeterministicMNState → Prop} {height : ℤ} {env : Env}
variable {oldList newList list list' : CDeterministicMNList} {vtx : List CTransaction}
variable {h : Uint256} {dmn : CDeterministicMN} {st : CDeterministicMNState}

namespace Listed

variable (inv : Listed P height list)

include inv

theorem set {o : Option CDeterministicMN} {ids : Std.ExtTreeMap ℕ Uint256}
    (own : ∀ dmn, o = some dmn → dmn.proTxHash = h ∧ P dmn.pdmnState)
    (set : EntrySet list h o ids list') : Listed P height list' := by
  have entry : ∀ {k dmn}, list'.getMN k = some dmn → dmn.proTxHash = k ∧ P dmn.pdmnState := by
    intro k dmn get
    rw [set.getMN] at get
    split at get
    · next same => exact same ▸ own dmn get
    · exact ⟨inv.hash get, inv.state get⟩
  exact ⟨set.height.trans inv.height, fun get => (entry get).1, fun get => (entry get).2⟩

theorem updateMN (ok : list.updateMN h st = .ok list') (keeps : P st) : Listed P height list' := by
  obtain ⟨dmn, -, ok⟩ := bind_eq_ok.mp ok
  exact inv.set (by rintro _ ⟨⟩; exact ⟨rfl, keeps⟩) (updateMNEntry_entrySet ok)

theorem removeMN (ok : list.removeMN h = .ok list') : Listed P height list' := by
  obtain ⟨_, -, set⟩ := removeMN_entrySet ok
  exact inv.set (by rintro _ ⟨⟩) set

theorem addMN (ok : list.addMN dmn = .ok list') (keeps : P dmn.pdmnState) :
    Listed P height list' :=
  inv.set (by rintro _ ⟨⟩; exact ⟨rfl, keeps⟩) (addMN_entrySet ok).2

theorem mono {Q : CDeterministicMNState → Prop} (weaker : ∀ {st}, P st → Q st) :
    Listed Q height list :=
  ⟨inv.height, inv.hash, fun get => weaker (inv.state get)⟩

theorem replaceByCollateral {outpoint : COutPoint}
    (ok : replaceByCollateral list outpoint = .ok list') : Listed P height list' := by
  unfold Evo.replaceByCollateral at ok
  split at ok
  · exact pure_eq_ok.mp ok ▸ inv
  · exact inv.removeMN ok

theorem removeSpentBy {prevout : COutPoint} (ok : removeSpentBy list prevout = .ok list') :
    Listed P height list' := by
  unfold Evo.removeSpentBy at ok
  split at ok
  · exact pure_eq_ok.mp ok ▸ inv
  · split at ok
    · exact inv.removeMN ok
    · exact pure_eq_ok.mp ok ▸ inv

end Listed

structure Kept (P : CDeterministicMNState → Prop) (env : Env) (oldList : CDeterministicMNList)
    (vtx : List CTransaction) : Prop where
  confirm : ∀ {st h}, P st → P (st.updateConfirmedHash env h env.prevBlockHash)
  decrease : ∀ {st}, P st → 0 < st.nPoSePenalty → P { st with nPoSePenalty := st.nPoSePenalty - 1 }
  register : ∀ list tx proTx, P (registeredMN env list tx proTx).pdmnState
  service : ∀ {st} proTx, P st → P (servicedState env st proTx)
  registrar : ∀ {st} proTx, P st → P (registrarState env st proTx)
  revoke : ∀ {st} proTx, P st → P (revokedState env st proTx)
  punish : ∀ {list h st penalty}, Punishes env oldList vtx list h → 0 < penalty → P st →
    P (list.punishedState st penalty)
  pay : ∀ {st}, P st → P { st with nLastPaidHeight := nextHeight env }

namespace Kept

variable (kept : Kept P env oldList vtx)

include kept

theorem prepareList (old : Listed P height oldList) (ok : prepareList env oldList = .ok list) :
    Listed P (nextHeight env) list := by
  obtain ⟨confirmed, confirm, ok⟩ := bind_eq_ok.mp ok
  have start : Listed P (nextHeight env) (startList env oldList) := ⟨rfl, old.hash, old.state⟩
  have inv : Listed P (nextHeight env) confirmed := by
    refine foldlM_inv _ (fun _ t => Listed P (nextHeight env) t) start ?_ confirm
    intro done dmn rest t t' split inv step
    have mem : dmn ∈ oldList.allMNs := by rw [split]; simp
    obtain ⟨⟨h, _⟩, entry, rfl⟩ := List.mem_map.mp mem
    have get : oldList.getMN h = some _ := Std.ExtTreeMap.mem_toList_iff_getElem?_eq_some.mp entry
    unfold confirmMN at step
    split_ifs at step
    · exact pure_eq_ok.mp step ▸ inv
    · exact inv.updateMN step (kept.confirm (old.state get))
    · exact pure_eq_ok.mp step ▸ inv
  split_ifs at ok
  · refine foldlM_inv _ (fun _ t => Listed P (nextHeight env) t) inv ?_ ok
    intro done h rest t t' _ inv step
    obtain ⟨dmn, get, step⟩ := bind_eq_ok.mp step
    obtain ⟨_, scored, step⟩ := bind_eq_ok.mp step
    exact inv.updateMN step
      (kept.decrease (inv.state (deref_eq_ok.mp get)) (assertThat_eq_ok.mp scored).1)
  · exact pure_eq_ok.mp ok ▸ inv

theorem punishMembers {qc : CFinalCommitment} {members : List (Uint256 × ℕ)}
    (calls : ∀ done h i rest t, members = done ++ (h, i) :: rest →
      done.foldlM (punishMember env qc) list = .ok t → t.hasMN h = true →
      readBit env qc.validMembers i = false → Punishes env oldList vtx t h)
    (inv : Listed P height list) (ok : members.foldlM (punishMember env qc) list = .ok list') :
    Listed P height list' := by
  refine (foldlM_inv (punishMember env qc) (fun done t =>
    done.foldlM (punishMember env qc) list = .ok t ∧ Listed P height t) ⟨rfl, inv⟩ ?_ ok).2
  rintro done ⟨h, i⟩ rest t t' split ⟨reached, inv⟩ step
  refine ⟨by rw [List.foldlM_append, reached, ok_bind, List.foldlM_cons, step]; rfl, ?_⟩
  unfold punishMember at step
  split_ifs at step with unlisted failed
  · exact pure_eq_ok.mp step ▸ inv
  · obtain ⟨penalty, -, step⟩ := bind_eq_ok.mp step
    obtain ⟨_, positive, step⟩ := bind_eq_ok.mp step
    obtain ⟨dmn, get, step⟩ := bind_eq_ok.mp step
    have call := calls done h i rest t split reached (by simpa using unlisted) failed
    exact inv.updateMN step (kept.punish call (assertThat_eq_ok.mp positive)
      (inv.state (deref_eq_ok.mp get)))
  · exact pure_eq_ok.mp step ▸ inv

theorem applyTx {done rest : List CTransaction} {tx : CTransaction}
    (prepared : Evo.prepareList env oldList = .ok newList) (block : vtx.drop 1 = done ++ tx :: rest)
    (applied : done.foldlM (applyTx env) newList = .ok list) (inv : Listed P (nextHeight env) list)
    (ok : applyTx env list tx = .ok list') : Listed P (nextHeight env) list' := by
  unfold Evo.applyTx at ok
  split_ifs at ok with version
  · exact pure_eq_ok.mp ok ▸ inv
  · split at ok
    · obtain ⟨proTx, -, ok⟩ := bind_eq_ok.mp ok
      obtain ⟨_, -, ok⟩ := bind_eq_ok.mp ok
      obtain ⟨replaced, replace, ok⟩ := bind_eq_ok.mp ok
      obtain ⟨_, -, ok⟩ := bind_eq_ok.mp ok
      obtain ⟨_, -, ok⟩ := bind_eq_ok.mp ok
      have counted : Listed P (nextHeight env) (countRegistration list) :=
        ⟨inv.height, inv.hash, inv.state⟩
      exact (counted.replaceByCollateral replace).addMN ok (kept.register list tx proTx)
    · obtain ⟨proTx, -, ok⟩ := bind_eq_ok.mp ok
      obtain ⟨_, -, ok⟩ := bind_eq_ok.mp ok
      obtain ⟨dmn, get, ok⟩ := bind_eq_ok.mp ok
      exact inv.updateMN ok (kept.service proTx (inv.state (expect_eq_ok.mp get)))
    · obtain ⟨proTx, -, ok⟩ := bind_eq_ok.mp ok
      obtain ⟨dmn, get, ok⟩ := bind_eq_ok.mp ok
      exact inv.updateMN ok (kept.registrar proTx (inv.state (expect_eq_ok.mp get)))
    · obtain ⟨proTx, -, ok⟩ := bind_eq_ok.mp ok
      obtain ⟨dmn, get, ok⟩ := bind_eq_ok.mp ok
      exact inv.updateMN ok (kept.revoke proTx (inv.state (expect_eq_ok.mp get)))
    · next type =>
      obtain ⟨qc, payload, ok⟩ := bind_eq_ok.mp ok
      split_ifs at ok with null
      · exact pure_eq_ok.mp ok ▸ inv
      · obtain ⟨_, -, ok⟩ := bind_eq_ok.mp ok
        obtain ⟨_, -, ok⟩ := bind_eq_ok.mp ok
        refine kept.punishMembers ?_ inv ok
        intro before h i after t quorum punished listed failed
        exact .member prepared block applied ⟨not_not.mp version, type⟩ (deref_eq_ok.mp payload)
          (by simpa using null) quorum punished listed failed
    · exact pure_eq_ok.mp ok ▸ inv

theorem applyTxs {done rest : List CTransaction} (old : Listed P height oldList)
    (prepared : Evo.prepareList env oldList = .ok newList) (block : vtx.drop 1 = done ++ rest)
    (applied : done.foldlM (Evo.applyTx env) newList = .ok list) : Listed P (nextHeight env) list := by
  refine (foldlM_inv (Evo.applyTx env) (fun txs t =>
    txs.foldlM (Evo.applyTx env) newList = .ok t ∧ Listed P (nextHeight env) t)
    ⟨rfl, kept.prepareList old prepared⟩ ?_ applied).2
  rintro txs tx more t t' split ⟨reached, inv⟩ step
  refine ⟨by rw [List.foldlM_append, reached, ok_bind, List.foldlM_cons, step]; rfl, ?_⟩
  exact kept.applyTx prepared (block.trans (split ▸ List.append_assoc txs (tx :: more) rest)) reached
    inv step

theorem buildNewListFromBlock (old : Listed P height oldList)
    (ok : buildNewListFromBlock env oldList vtx = .ok list) : Listed P (nextHeight env) list := by
  obtain ⟨newList, prepared, ok⟩ := bind_eq_ok.mp ok
  obtain ⟨applied, txs, ok⟩ := bind_eq_ok.mp ok
  obtain ⟨unspent, spent, ok⟩ := bind_eq_ok.mp ok
  have inv : Listed P (nextHeight env) unspent := by
    refine foldlM_inv removeSpentBy (fun _ t => Listed P (nextHeight env) t)
      (kept.applyTxs old prepared (List.append_nil _).symm txs) ?_ spent
    intro done prevout rest t t' _ inv step
    exact inv.removeSpentBy step
  unfold markPayee at ok
  split at ok
  · exact pure_eq_ok.mp ok ▸ inv
  · next payee =>
    obtain ⟨_, -, get⟩ := Option.bind_eq_some_iff.mp payee
    exact inv.updateMN ok (kept.pay (inv.state get))

theorem punishes (old : Listed P height oldList) (call : Punishes env oldList vtx list h) :
    Listed P (nextHeight env) list := by
  obtain ⟨prepared, block, applied, special, payload, nonNull, quorum, punished, -, -⟩ := call
  refine kept.punishMembers ?_ (kept.applyTxs old prepared block applied) punished
  intro before k j after t split reached listed failed
  exact .member prepared block applied special payload nonNull
    (quorum.trans (by rw [split, List.append_assoc]; rfl)) reached listed failed

end Kept

/-! ### Chains -/

structure ChainBlock where
  env : Env
  vtx : List CTransaction
  prevHeight_nonneg : 0 ≤ env.prevHeight

abbrev ChainLists := List CDeterministicMNList

def ChainLists.tip (lists : ChainLists) : CDeterministicMNList := lists.headD (empty 0)

def connect (lists : ChainLists) (block : ChainBlock) : Except Fault ChainLists := do
  let newList ← buildNewListFromBlock block.env lists.tip block.vtx
  pure (newList :: lists)

def CallsOn (lists : ChainLists) (block : ChainBlock) (list : CDeterministicMNList) (h : Uint256) :
    Prop :=
  Punishes block.env lists.tip block.vtx list h

/-- No list is punished on that is larger than all lists of the chain, and no banned smartnode
whose score is not the maximum is punished. -/
def Careful (lists : ChainLists) (block : ChainBlock) : Prop :=
  ∀ list h, CallsOn lists block list h →
    (∃ onChain ∈ lists, list.calcMaxPoSePenalty ≤ onChain.calcMaxPoSePenalty) ∧
    ∀ dmn, list.getMN h = some dmn → isMNPoSeBanned dmn = true →
      dmn.pdmnState.nPoSePenalty = list.calcMaxPoSePenalty

def Scored (lists : ChainLists) (st : CDeterministicMNState) : Prop :=
  0 ≤ st.nPoSePenalty ∧ ∃ onChain ∈ lists, st.nPoSePenalty ≤ onChain.calcMaxPoSePenalty

structure Sanction (height : ℤ) (list : CDeterministicMNList) (before after : CDeterministicMN) :
    Prop where
  range : 0 ≤ after.pdmnState.nPoSePenalty ∧ after.pdmnState.nPoSePenalty ≤ list.calcMaxPoSePenalty
  bans : isMNPoSeBanned after = true ↔
    isMNPoSeBanned before = true ∨ after.pdmnState.nPoSePenalty = list.calcMaxPoSePenalty
  banHeight : isMNPoSeBanned before = false →
    after.pdmnState.nPoSePenalty = list.calcMaxPoSePenalty → after.pdmnState.nPoSeBanHeight = height
  unchanged : isMNPoSeBanned before = true →
    after.pdmnState.nPoSePenalty = before.pdmnState.nPoSePenalty

variable {lists : ChainLists} {block : ChainBlock}

theorem Scored.mono {onChain : CDeterministicMNList} (scored : Scored lists st) :
    Scored (onChain :: lists) st :=
  ⟨scored.1, scored.2.imp fun _ found => ⟨List.mem_cons_of_mem _ found.1, found.2⟩⟩

theorem calcMaxPoSePenalty_pos (list : CDeterministicMNList) : 100 ≤ list.calcMaxPoSePenalty :=
  le_max_left _ _

theorem kept_scored (hne : lists ≠ []) (careful : Careful lists block) :
    Kept (Scored lists) block.env lists.tip block.vtx := by
  have zero : ∀ {st : CDeterministicMNState}, st.nPoSePenalty = 0 → Scored lists st := by
    intro st hzero
    obtain ⟨onChain, mem⟩ := List.exists_mem_of_ne_nil lists hne
    have := calcMaxPoSePenalty_pos onChain
    exact ⟨by omega, onChain, mem, by omega⟩
  have ban : ∀ {st : CDeterministicMNState} {height : ℤ},
      (st.banIfNotBanned height).nPoSePenalty = st.nPoSePenalty := by
    intro st height
    unfold CDeterministicMNState.banIfNotBanned
    split <;> rfl
  refine ⟨id, ?_, fun _ _ _ => zero rfl, ?_, ?_, ?_, ?_, id⟩
  · rintro st ⟨nonneg, onChain, mem, le⟩ positive
    exact ⟨by simp only; omega, onChain, mem, by simp only; omega⟩
  · intro st proTx scored
    unfold servicedState
    simp only
    split
    · exact zero rfl
    · exact scored
  · intro st proTx scored
    unfold registrarState Scored
    simp only
    split
    · rw [ban]
      exact scored
    · exact scored
  · intro st proTx scored
    unfold revokedState Scored
    simp only [ban]
    exact scored
  · rintro list h st penalty call positive ⟨nonneg, -⟩
    obtain ⟨⟨onChain, mem, le⟩, -⟩ := careful list h call
    have := calcMaxPoSePenalty_pos list
    refine ⟨?_, onChain, mem, (min_le_left _ _).trans le⟩
    exact le_min (by omega) (by omega)

theorem sanction_punishedState {height penalty : ℤ} (hheight : list.nHeight = height)
    (nonneg : 0 ≤ height) (scored : 0 ≤ dmn.pdmnState.nPoSePenalty) (positive : 0 < penalty)
    (careful : isMNPoSeBanned dmn = true → dmn.pdmnState.nPoSePenalty = list.calcMaxPoSePenalty) :
    Sanction height list dmn { dmn with pdmnState := list.punishedState dmn.pdmnState penalty } := by
  have := calcMaxPoSePenalty_pos list
  simp only [isMNPoSeBanned, bne_iff_ne, ne_eq] at careful
  constructor <;> simp only [punishedState, isMNPoSeBanned, bne_iff_ne, ne_eq, hheight] <;> grind

theorem poSePunish_eq (get : list.getMN h = some dmn) {penalty : ℤ} (positive : 0 < penalty) :
    ∃ list', list.poSePunish h penalty = .ok list' ∧ EntrySet list dmn.proTxHash
      (some { dmn with pdmnState := list.punishedState dmn.pdmnState penalty })
      list.mnInternalIdMap list' := by
  have updated : ∃ list', list.updateMNEntry dmn (list.punishedState dmn.pdmnState penalty) =
      .ok list' := by
    refine ⟨_, bind_eq_ok.mpr ⟨list.mnUniquePropertyMap, ?_, rfl⟩⟩
    simp [updateUniqueProperties, updateUniqueProperty, punishedState]
  obtain ⟨list', ok⟩ := updated
  refine ⟨list', ?_, updateMNEntry_entrySet ok⟩
  refine bind_eq_ok.mpr ⟨(), assertThat_eq_ok.mpr positive, ?_⟩
  rw [deref_eq_ok.mpr get, ok_bind, updateMN, deref_eq_ok.mpr get, ok_bind, ok]

structure ScoredChain (lists : ChainLists) : Prop where
  nonempty : lists ≠ []
  listed : ∀ list ∈ lists, Listed (Scored lists) list.nHeight list

theorem ScoredChain.tip (inv : ScoredChain lists) :
    Listed (Scored lists) lists.tip.nHeight lists.tip := by
  refine inv.listed _ ?_
  cases lists with
  | nil => exact absurd rfl inv.nonempty
  | cons list rest => exact List.mem_cons_self

theorem ScoredChain.connect {lists' : ChainLists} (inv : ScoredChain lists)
    (careful : Careful lists block) (ok : connect lists block = .ok lists') : ScoredChain lists' := by
  obtain ⟨newList, build, ok⟩ := bind_eq_ok.mp ok
  obtain rfl := pure_eq_ok.mp ok
  have new := (kept_scored inv.nonempty careful).buildNewListFromBlock inv.tip build
  refine ⟨List.cons_ne_nil _ _, List.forall_mem_cons.mpr ⟨?_, ?_⟩⟩
  · exact new.height ▸ new.mono Scored.mono
  · exact fun list mem => (inv.listed list mem).mono Scored.mono

/-- A chain of blocks that meet the condition, and the next block. -/
theorem run_poSe (blocks : List ChainBlock) (lists : ChainLists) (block : ChainBlock)
    (careful : Steps.Permitted connect Careful [empty 0] blocks)
    (run : blocks.foldlM connect [empty 0] = .ok lists) (next : Careful lists block) :
    (∀ list ∈ lists, ∀ h dmn, list.getMN h = some dmn → Scored lists dmn.pdmnState) ∧
    ∀ list h dmn, CallsOn lists block list h → list.getMN h = some dmn →
      ∃ penalty list' dmn', list.calcPenalty 66 = .ok penalty ∧
        list.poSePunish h penalty = .ok list' ∧ list'.getMN h = some dmn' ∧
        Sanction (nextHeight block.env) list dmn dmn' := by
  have start : ScoredChain [empty 0] := by
    refine ⟨List.cons_ne_nil _ _, List.forall_mem_singleton.mpr ⟨rfl, ?_, ?_⟩⟩ <;>
    · intro h dmn get
      rw [getMN_empty] at get
      cases get
  have inv := (careful.outcome (I := ScoredChain) (E := fun _ => True)
    (fun inv careful ok => inv.connect careful ok) (fun _ _ _ => trivial) start).1 lists run
  refine ⟨fun list mem h dmn get => (inv.listed list mem).state get, ?_⟩
  intro list h dmn call get
  have found := (kept_scored inv.nonempty next).punishes inv.tip call
  obtain ⟨penalty, hpenalty, positive⟩ := calcPenalty_pos list
  obtain ⟨list', ok, set⟩ := poSePunish_eq get positive
  refine ⟨penalty, list', _, hpenalty, ok, by rw [set.getMN, if_pos (found.hash get).symm], ?_⟩
  exact sanction_punishedState found.height
    (by have := block.prevHeight_nonneg; unfold nextHeight; omega) (found.state get).1 positive
    ((next list h call).2 dmn get)

def toyBlock (height : ℕ) (txs : List CTransaction) : ChainBlock where
  env := { toyEnv with
    prevHeight := height
    llmqs := fun _ => some ⟨2, 1, 24⟩
    getAncestor := fun _ => some 7
    getAllQuorumMembers := fun _ _ => [30, 31] }
  vtx := toyCoinbase :: txs
  prevHeight_nonneg := Int.natCast_nonneg height

def toyFailed : CTransaction :=
  toyTx 41 .quorumCommitment
    (.finalCommitment ⟨1, 96, ⟨1, 1, 7, [false, true], [false, true], some 1, 1, none, none⟩⟩)

theorem run_poSe_firstFailure : ∃ lists : ChainLists,
    [toyBlock 100 [toyReg]].foldlM connect [empty 0] = .ok lists ∧
    ∀ list h dmn, CallsOn lists (toyBlock 101 [toyFailed]) list h → list.getMN h = some dmn →
      ∃ penalty list' dmn', list.calcPenalty 66 = .ok penalty ∧
        list.poSePunish h penalty = .ok list' ∧ list'.getMN h = some dmn' ∧
        Sanction 102 list dmn dmn' := by
  have found : ([toyBlock 100 [toyReg]].foldlM connect [empty 0] >>= fun lists =>
      (prepareList (toyBlock 101 []).env lists.tip).map fun list =>
        (list.getAllMNsCount, (list.getMN 30).map isMNPoSeBanned, lists.length)) =
      .ok (1, some false, 2) := by decide +kernel
  obtain ⟨lists, run, found⟩ := bind_eq_ok.mp found
  have alone : ∀ {a b : CTransaction} {done rest : List CTransaction}, [a] = done ++ b :: rest →
      done = [] ∧ a = b := by
    intro a b done rest split
    cases done <;> simp_all
  have careful : Steps.Permitted connect Careful [empty 0] [toyBlock 100 [toyReg]] := by
    refine ⟨?_, fun _ _ => trivial⟩
    rintro list h ⟨-, block, -, special, -⟩
    obtain ⟨-, rfl⟩ := alone block
    exact absurd special.2 (by decide)
  refine ⟨lists, run, (run_poSe _ lists (toyBlock 101 [toyFailed]) careful run ?_).2⟩
  rintro list h (@⟨newList, _, _, _, _, _, _, members, _, _, i, prepared, block, applied, -, payload,
    -, quorum, punished, -, failed⟩)
  obtain ⟨rfl, rfl⟩ := alone block
  obtain rfl := pure_eq_ok.mp applied
  obtain rfl := Option.some.inj payload
  change [((30 : Uint256), 0), (31, 1)] = _ at quorum
  rcases members with _ | ⟨_, _ | ⟨_, _⟩⟩ <;>
    simp only [List.nil_append, List.cons_append, List.cons.injEq, Prod.mk.injEq, List.nil_eq,
      List.append_eq_nil_iff, reduceCtorEq, and_false] at quorum
  · obtain ⟨⟨rfl, rfl⟩, -⟩ := quorum
    obtain rfl := pure_eq_ok.mp punished
    change (prepareList (toyBlock 101 []).env lists.tip) = _ at prepared
    rw [prepared] at found
    obtain ⟨count, unbanned, length⟩ : newList.getAllMNsCount = 1 ∧
        (newList.getMN 30).map isMNPoSeBanned = some false ∧ lists.length = 2 := by
      simpa [Except.map] using found
    refine ⟨?_, fun dmn get banned => ?_⟩
    · obtain ⟨onChain, mem⟩ := List.exists_mem_of_length_pos (l := lists) (by omega)
      refine ⟨onChain, mem, ?_⟩
      simp [calcMaxPoSePenalty, count]
    · rw [show newList.getMN 30 = some dmn from get, Option.map_some, banned] at unbanned
      cases unbanned
  · -- the second member did not fail
    obtain ⟨-, ⟨-, rfl⟩, -⟩ := quorum
    exact absurd failed (by decide)

/-- The operator key of a smartnode is changed, which bans it, and then it fails. -/
theorem run_poSe_bannedFailure :
    ([toyBlock 100 [toyReg], toyBlock 101 [toyUpdate 40 30 300], toyBlock 102 [toyFailed]].foldlM
        connect [empty 0]).map (fun lists => lists.map fun list =>
      (list.getMN 30).map fun dmn => (dmn.pdmnState.nPoSeBanHeight, dmn.pdmnState.nPoSePenalty)) =
      .ok [some (102, 66), some (102, 0), some (-1, 0), none] := by
  decide +kernel

end ButCore.Evo
