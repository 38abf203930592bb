import ButCore.Llmq.MinedCommitments

/-!
# Minable commitments

The commitments that are offered to the miner, in two maps: by their hash, and the hash by the
quorum. They come from peers, from the local DKG and from blocks that are disconnected. What a peer
is punished for and what is relayed is left out.
-/
namespace ButCore.Llmq.BlockProcessor

open Std.Do ButCore.Evo Checked

set_option mvcgen.warning false

structure MinableEnv extends ProcessorEnv where
  serializeHash : CFinalCommitment → Uint256

structure Minable where
  minableCommitmentsByQuorum : QuorumKey → Option Uint256
  minableCommitments : Uint256 → Option CFinalCommitment

def countSigners (qc : CFinalCommitment) : ℕ := qc.signers.count true

namespace Minable

def empty : Minable := ⟨fun _ => none, fun _ => none⟩

def kept (s : Minable) (key : QuorumKey) : Option CFinalCommitment :=
  (s.minableCommitmentsByQuorum key).bind s.minableCommitments

/-- `emplace` keeps an entry that is there. -/
def emplace (s : Minable) (hash : Uint256) (qc : CFinalCommitment) : Minable :=
  { s with
    minableCommitments := Function.update s.minableCommitments hash
      ((s.minableCommitments hash).or (some qc)) }

end Minable

section

variable (env : MinableEnv)

def addMinableCommitment (s : Minable) (fqc : CFinalCommitment) : Except Fault Minable :=
  let commitmentHash := env.serializeHash fqc
  let named : Minable :=
    { s with
      minableCommitmentsByQuorum :=
        Function.update s.minableCommitmentsByQuorum (quorumKey fqc) (some commitmentHash) }
  match s.minableCommitmentsByQuorum (quorumKey fqc) with
  | none => pure (named.emplace commitmentHash fqc)
  | some oldHash => do
    let oldFqc ← expect (s.minableCommitments oldHash) .outOfRange
    if countSigners fqc > countSigners oldFqc then
      -- `ins.first->second` is the new hash when it is erased
      let erased : Minable :=
        { named with
          minableCommitments := Function.update s.minableCommitments commitmentHash none }
      pure (erased.emplace commitmentHash fqc)
    else pure s

/-- The checks on a received commitment that come before those on what is known locally. -/
def checkReceived (chain : ActiveChain) (qc : CFinalCommitment) : Bool :=
  !isNullCommitment qc &&
    match env.llmqs.lookup qc.llmqType, chain.reverse.findIdx? (·.hash = qc.quorumHash) with
    | some params, some nHeight => decide (nHeight - nHeight % params.dkgInterval = nHeight)
    | _, _ => false

def processMessage (chain : ActiveChain) (qc : CFinalCommitment) (s : Minable) :
    Except Fault Minable :=
  if checkReceived env chain qc = false then pure s
  else if ∃ old ∈ s.kept (quorumKey qc), countSigners old ≤ countSigners qc then pure s
  else if env.verify qc.llmqType qc = false then pure s
  else addMinableCommitment env s qc

/-- What `UndoBlock` makes minable again. -/
def undoneCommitments (block : ConnectedBlock) : List CFinalCommitment :=
  match getCommitmentsFromBlock env.toProcessorEnv block with
  | .error _ => []
  | .ok qcs => qcs.filter fun qc => !isNullCommitment qc

inductive MinableCall where
  | message (chain : ActiveChain) (qc : CFinalCommitment)
  | addMinableCommitment (fqc : CFinalCommitment)
  | undoBlock (block : ConnectedBlock)

def candidates : MinableCall → List CFinalCommitment
  | .message chain qc =>
    if checkReceived env chain qc && env.verify qc.llmqType qc then [qc] else []
  | .addMinableCommitment fqc => [fqc]
  | .undoBlock block => undoneCommitments env block

def minableStep (s : Minable) : MinableCall → Except Fault Minable
  | .message chain qc => processMessage env chain qc s
  | .addMinableCommitment fqc => addMinableCommitment env s fqc
  | .undoBlock block => (undoneCommitments env block).foldlM (addMinableCommitment env) s

def runMinable (calls : List MinableCall) : Except Fault Minable :=
  calls.foldlM (minableStep env) .empty

/-- A null commitment if none is known. -/
def Minable.offered (s : Minable) (params : Consensus.LLMQParams) (key : QuorumKey) :
    Except Fault CFinalCommitment :=
  match s.minableCommitmentsByQuorum key with
  | none => pure ⟨1, params.type, key.2, .replicate params.size false,
      .replicate params.size false, none, 0, none, none⟩
  | some hash => expect (s.minableCommitments hash) .outOfRange

/-- Nothing when no commitment is required. -/
def getMinableCommitment (chain : ActiveChain) (nHeight : ℤ)
    (entry : LLMQType × Consensus.LLMQParams) (s : Minable) : Process (Option CFinalCommitment) := do
  let required ← isCommitmentRequired chain nHeight entry
  let quorumHash := getQuorumBlockHash chain nHeight entry.2
  if required = false then pure none
  else if quorumHash = 0 then pure none
  else
    match s.offered entry.2 (entry.1, quorumHash) with
    | .error fault => throw fault
    | .ok qc => pure (some qc)

end

/-! ### The best commitment of every quorum -/

/-- The maps have one entry each for a quorum, and it has the most signers of those known for it. -/
structure KeepsBest (env : MinableEnv) (known : List CFinalCommitment) (s : Minable) : Prop where
  indexed : ∀ hash qc, s.minableCommitments hash = some qc →
    s.minableCommitmentsByQuorum (quorumKey qc) = some hash ∧ hash = env.serializeHash qc
  stored : ∀ key hash, s.minableCommitmentsByQuorum key = some hash →
    ∃ qc ∈ known, s.minableCommitments hash = some qc ∧ quorumKey qc = key ∧
      ∀ c ∈ known, quorumKey c = key → countSigners c ≤ countSigners qc
  covered : ∀ c ∈ known, s.minableCommitmentsByQuorum (quorumKey c) ≠ none

/-- No commitment has more signers than the one that is kept for its quorum. -/
def NotBetter (env : MinableEnv) (s : Minable) (call : MinableCall) : Prop :=
  ∀ qc ∈ candidates env call, ∀ old ∈ s.kept (quorumKey qc), countSigners qc ≤ countSigners old

def CollisionFree (env : MinableEnv) (known : List CFinalCommitment) : Prop :=
  ∀ c ∈ known, ∀ c' ∈ known, env.serializeHash c = env.serializeHash c' → c = c'

theorem CollisionFree.mono {env : MinableEnv} {known known' : List CFinalCommitment}
    (h : CollisionFree env known') (subset : known ⊆ known') : CollisionFree env known :=
  fun c hc c' hc' => h c (subset hc) c' (subset hc')

namespace KeepsBest

variable {env : MinableEnv} {known all : List CFinalCommitment} {s : Minable} {qc : CFinalCommitment}

theorem empty : KeepsBest env [] .empty := by
  constructor <;> simp [Minable.empty]

theorem skip (h : KeepsBest env known s) {old : CFinalCommitment}
    (hold : s.kept (quorumKey qc) = some old) (le : countSigners qc ≤ countSigners old) :
    KeepsBest env (known ++ [qc]) s := by
  obtain ⟨hash, hkey, hhash⟩ := Option.bind_eq_some_iff.mp hold
  refine ⟨h.indexed, ?_, ?_⟩
  · intro key hash' hkey'
    obtain ⟨best, hmem, hbest, rfl, most⟩ := h.stored key hash' hkey'
    refine ⟨best, List.mem_append_left _ hmem, hbest, rfl, ?_⟩
    intro c hc hck
    rcases List.mem_append.mp hc with hc | hc
    · exact most c hc hck
    · obtain rfl := List.mem_singleton.mp hc
      rw [hck, hkey', Option.some.injEq] at hkey
      rw [← hkey, hbest, Option.some.injEq] at hhash
      exact hhash ▸ le
  · intro c hc
    rcases List.mem_append.mp hc with hc | hc
    · exact h.covered c hc
    · rw [List.mem_singleton.mp hc, hkey]
      exact Option.some_ne_none _

theorem hash_fresh (h : KeepsBest env known s) (collisionFree : CollisionFree env (known ++ [qc]))
    (fresh : s.minableCommitmentsByQuorum (quorumKey qc) = none) :
    s.minableCommitments (env.serializeHash qc) = none := by
  by_contra taken
  obtain ⟨qc', hqc'⟩ := Option.ne_none_iff_exists'.mp taken
  obtain ⟨hkey, hhash⟩ := h.indexed _ _ hqc'
  obtain ⟨best, hmem, hbest, -, -⟩ := h.stored _ _ hkey
  obtain rfl : qc' = best := Option.some.inj (hqc'.symm.trans hbest)
  obtain rfl := collisionFree qc' (List.mem_append_left _ hmem) qc (by simp) hhash.symm
  rw [fresh] at hkey
  cases hkey

theorem insert (h : KeepsBest env known s) (collisionFree : CollisionFree env (known ++ [qc]))
    (fresh : s.minableCommitmentsByQuorum (quorumKey qc) = none) :
    KeepsBest env (known ++ [qc]) ⟨Function.update s.minableCommitmentsByQuorum (quorumKey qc)
      (some (env.serializeHash qc)),
      Function.update s.minableCommitments (env.serializeHash qc) (some qc)⟩ := by
  have newHash := h.hash_fresh collisionFree fresh
  have others (c : CFinalCommitment) (hc : c ∈ known) : quorumKey c ≠ quorumKey qc := by
    intro heq
    exact h.covered c hc (heq ▸ fresh)
  constructor
  · intro hash c hc
    refine Table.update_some_forall (P := fun hash c => Function.update
      s.minableCommitmentsByQuorum _ _ (quorumKey c) = some hash ∧ hash = env.serializeHash c) ?_ ?_ hc
    · intro hash c hc
      obtain ⟨hkey, hhash⟩ := h.indexed hash c hc
      refine ⟨?_, hhash⟩
      rw [Function.update_of_ne, hkey]
      intro heq
      rw [heq, fresh] at hkey
      cases hkey
    · exact ⟨Function.update_self _ _ _, rfl⟩
  · intro key hash hkey
    refine Table.update_some_forall (P := fun key hash => ∃ best ∈ known ++ [qc],
      Function.update s.minableCommitments _ _ hash = some best ∧ quorumKey best = key ∧
        ∀ c ∈ known ++ [qc], quorumKey c = key → countSigners c ≤ countSigners best) ?_ ?_ hkey
    · intro key hash hkey
      obtain ⟨best, hmem, hbest, rfl, most⟩ := h.stored key hash hkey
      refine ⟨best, List.mem_append_left _ hmem, ?_, rfl, ?_⟩
      · rw [Function.update_of_ne, hbest]
        rintro rfl
        rw [newHash] at hbest
        cases hbest
      · intro c hc hck
        rcases List.mem_append.mp hc with hc | hc
        · exact most c hc hck
        · rw [List.mem_singleton.mp hc] at hck
          exact absurd hck.symm (others best hmem)
    · refine ⟨qc, by simp, Function.update_self _ _ _, rfl, ?_⟩
      intro c hc hck
      rcases List.mem_append.mp hc with hc | hc
      · exact absurd hck (others c hc)
      · rw [List.mem_singleton.mp hc]
  · intro c hc
    dsimp only
    rcases List.mem_append.mp hc with hc | hc
    · rw [Function.update_of_ne (others c hc)]
      exact h.covered c hc
    · rw [List.mem_singleton.mp hc, Function.update_self]
      exact Option.some_ne_none _

theorem add (h : KeepsBest env known s) (collisionFree : CollisionFree env (known ++ [qc]))
    (notBetter : ∀ old ∈ s.kept (quorumKey qc), countSigners qc ≤ countSigners old) :
    ∃ s', addMinableCommitment env s qc = .ok s' ∧ KeepsBest env (known ++ [qc]) s' ∧
      ∀ key, key ≠ quorumKey qc → s'.kept key = s.kept key := by
  unfold addMinableCommitment
  cases hkey : s.minableCommitmentsByQuorum (quorumKey qc) with
  | none =>
    have newHash := h.hash_fresh collisionFree hkey
    refine ⟨_, rfl, ?_, ?_⟩
    · unfold Minable.emplace
      rw [newHash]
      exact h.insert collisionFree hkey
    · intro key other
      unfold Minable.kept Minable.emplace
      dsimp only
      rw [Function.update_of_ne other, newHash]
      cases hhash : s.minableCommitmentsByQuorum key with
      | none => rfl
      | some hash =>
        obtain ⟨best, -, hbest, -, -⟩ := h.stored key hash hhash
        refine Function.update_of_ne ?_ _ _
        rintro rfl
        rw [newHash] at hbest
        cases hbest
  | some hash =>
    obtain ⟨best, -, hbest, -, -⟩ := h.stored _ _ hkey
    have hkept : s.kept (quorumKey qc) = some best := by
      rw [Minable.kept, hkey]
      exact hbest
    have le := notBetter best hkept
    refine ⟨s, ?_, h.skip hkept le, fun _ _ => rfl⟩
    simp [hbest, expect, not_lt.mpr le]

theorem addAll {qcs : List CFinalCommitment} (h : KeepsBest env known s)
    (collisionFree : CollisionFree env (known ++ qcs)) (distinct : (qcs.map quorumKey).Nodup)
    (notBetter : ∀ qc ∈ qcs, ∀ old ∈ s.kept (quorumKey qc), countSigners qc ≤ countSigners old) :
    ∃ s', qcs.foldlM (addMinableCommitment env) s = .ok s' ∧ KeepsBest env (known ++ qcs) s' := by
  induction qcs generalizing s known with
  | nil => exact ⟨s, rfl, by simpa using h⟩
  | cons qc qcs ih =>
    rw [List.map_cons, List.nodup_cons] at distinct
    obtain ⟨mine, others⟩ := List.forall_mem_cons.mp notBetter
    have append : known ++ qc :: qcs = known ++ [qc] ++ qcs := by simp
    rw [append] at collisionFree ⊢
    obtain ⟨s', hrun, h', same⟩ :=
      h.add (collisionFree.mono (List.subset_append_left _ _)) mine
    obtain ⟨s'', hrun', h''⟩ := ih h' collisionFree distinct.2 (by
      intro qc' hqc'
      rw [same _ fun heq => distinct.1 (heq ▸ List.mem_map_of_mem hqc')]
      exact others qc' hqc')
    refine ⟨s'', ?_, h''⟩
    rw [List.foldlM_cons, hrun]
    exact hrun'

theorem undoneCommitments_distinct (block : ConnectedBlock) :
    ((undoneCommitments env block).map quorumKey).Nodup := by
  unfold undoneCommitments
  split
  · exact List.nodup_nil
  · next qcs hqcs =>
      refine List.Nodup.of_map Prod.fst ?_
      rw [List.map_map]
      exact (getCommitmentsFromBlock_ok hqcs).2.sublist (List.filter_sublist.map _)

theorem step (h : KeepsBest env known s) {call : MinableCall}
    (collisionFree : CollisionFree env (known ++ candidates env call))
    (notBetter : NotBetter env s call) :
    ∃ s', minableStep env s call = .ok s' ∧ KeepsBest env (known ++ candidates env call) s' := by
  cases call with
  | message chain qc =>
    unfold minableStep processMessage
    unfold NotBetter at notBetter
    unfold candidates at collisionFree notBetter ⊢
    dsimp only at collisionFree notBetter ⊢
    by_cases valid : (checkReceived env chain qc && env.verify qc.llmqType qc) = true
    · rw [if_pos valid] at collisionFree notBetter ⊢
      obtain ⟨received, verified⟩ := Bool.and_eq_true_iff.mp valid
      have notBetter := notBetter qc (List.mem_singleton_self qc)
      rw [if_neg (by simp [received])]
      split
      · next found =>
          obtain ⟨old, hold, -⟩ := found
          exact ⟨s, rfl, h.skip hold (notBetter old hold)⟩
      · rw [if_neg (by simp [verified])]
        obtain ⟨s', hrun, h', -⟩ := h.add collisionFree notBetter
        exact ⟨s', hrun, h'⟩
    · rw [if_neg valid, List.append_nil]
      refine ⟨s, ?_, h⟩
      cases received : checkReceived env chain qc with
      | false => rfl
      | true =>
        have unverified : env.verify qc.llmqType qc = false := by simpa [received] using valid
        rw [if_neg (by simp), if_pos unverified, ite_self]
        rfl
  | addMinableCommitment fqc =>
    obtain ⟨s', hrun, h', -⟩ := h.add collisionFree (notBetter fqc (List.mem_singleton_self fqc))
    exact ⟨s', hrun, h'⟩
  | undoBlock block => exact h.addAll collisionFree (undoneCommitments_distinct block) notBetter

end KeepsBest

theorem isCommitmentRequired_total (chain : ActiveChain) (nHeight : ℤ)
    (entry : LLMQType × Consensus.LLMQParams) :
    ⦃fun _ => ⌜True⌝⦄ isCommitmentRequired chain nHeight entry
    ⦃post⟨fun _ _ => ⌜True⌝, fun _ _ => ⌜False⌝⟩⦄ := by
  mvcgen [isCommitmentRequired, hasMinedCommitment_total, -hasMinedCommitment_spec,
    -isCommitmentRequired_spec]

theorem getMinableCommitment_spec (chain : ActiveChain) (nHeight : ℤ)
    (entry : LLMQType × Consensus.LLMQParams) (s : Minable) :
    ⦃fun _ => ⌜True⌝⦄ getMinableCommitment chain nHeight entry s
    ⦃post⟨fun ret _ => ⌜∀ qc, ret = some qc → s.offered entry.2
          (entry.1, getQuorumBlockHash chain nHeight entry.2) = .ok qc⌝,
      fun fault _ => ⌜s.offered entry.2
          (entry.1, getQuorumBlockHash chain nHeight entry.2) = .error fault⌝⟩⦄ := by
  mvcgen [getMinableCommitment, isCommitmentRequired_total, -isCommitmentRequired_spec]
  all_goals grind

theorem getMinableCommitment_isSome {chain : ActiveChain} {nHeight : ℤ}
    {entry : LLMQType × Consensus.LLMQParams} {s : Minable} {store store' : ProcessorStore}
    {ret : Option CFinalCommitment}
    (run : (getMinableCommitment chain nHeight entry s).run.run store = (.ok ret, store'))
    (required : ((isCommitmentRequired chain nHeight entry).run.run store).1 = .ok true) :
    ret.isSome := by
  have known : getQuorumBlockHash chain nHeight entry.2 ≠ 0 := by
    intro null
    simp only [isCommitmentRequired, null] at required
    cases required
  rcases asked : (isCommitmentRequired chain nHeight entry).run.run store with ⟨r, store''⟩
  rw [asked] at required
  obtain rfl : r = .ok true := required
  rw [getMinableCommitment, ExceptT.run_bind, StateT.run_bind, asked] at run
  change ((if true = false then _ else if _ then _ else _ : Process _).run.run store'') = _ at run
  rw [if_neg (by decide), if_neg known] at run
  cases offered : s.offered entry.2 (entry.1, getQuorumBlockHash chain nHeight entry.2) with
  | error fault =>
    rw [offered] at run
    cases run
  | ok qc =>
    rw [offered] at run
    cases run
    rfl

/-- One entry in each map for a quorum, and where a commitment is required the miner is given one with
the most signers of those known for it. -/
structure OffersBest (known : List CFinalCommitment) (s : Minable) : Prop where
  indexed : ∀ hash qc, s.minableCommitments hash = some qc →
    s.minableCommitmentsByQuorum (quorumKey qc) = some hash
  stored : ∀ key hash, s.minableCommitmentsByQuorum key = some hash →
    ∃ qc, s.minableCommitments hash = some qc ∧ quorumKey qc = key
  offered : ∀ chain nHeight (entry : LLMQType × Consensus.LLMQParams) store, ∃ ret store',
    (getMinableCommitment chain nHeight entry s).run.run store = (.ok ret, store') ∧
      (((isCommitmentRequired chain nHeight entry).run.run store).1 = .ok true → ret.isSome) ∧
      ∀ qc, ret = some qc → ∀ c ∈ known,
        quorumKey c = (entry.1, getQuorumBlockHash chain nHeight entry.2) →
          qc ∈ known ∧ quorumKey qc = quorumKey c ∧ countSigners c ≤ countSigners qc

theorem KeepsBest.offersBest {env : MinableEnv} {known : List CFinalCommitment} {s : Minable}
    (h : KeepsBest env known s) : OffersBest known s where
  indexed hash qc hqc := (h.indexed hash qc hqc).1
  stored key hash hkey := by
    obtain ⟨qc, -, hqc, hk, -⟩ := h.stored key hash hkey
    exact ⟨qc, hqc, hk⟩
  offered chain nHeight entry store := by
    have spec := getMinableCommitment_spec chain nHeight entry s
    rcases hrun : (getMinableCommitment chain nHeight entry s).run.run store with ⟨r, store'⟩
    cases hkey : s.minableCommitmentsByQuorum
        (entry.1, getQuorumBlockHash chain nHeight entry.2) with
    | none =>
      cases r with
      | error fault =>
        have stopped := Outcome.error spec trivial hrun
        rw [Minable.offered, hkey] at stopped
        cases stopped
      | ok ret =>
        refine ⟨ret, store', rfl, getMinableCommitment_isSome hrun, ?_⟩
        intro qc _ c hc hck
        exact absurd (hck ▸ hkey) (h.covered c hc)
    | some hash =>
      obtain ⟨best, hmem, hbest, hk, most⟩ := h.stored _ hash hkey
      have offered : s.offered entry.2 (entry.1, getQuorumBlockHash chain nHeight entry.2) =
          .ok best := by
        rw [Minable.offered, hkey]
        exact expect_eq_ok.mpr hbest
      cases r with
      | error fault =>
        have stopped := Outcome.error spec trivial hrun
        rw [offered] at stopped
        cases stopped
      | ok ret =>
        refine ⟨ret, store', rfl, getMinableCommitment_isSome hrun, ?_⟩
        intro qc hret c hc hck
        have given := Outcome.ok spec trivial hrun qc hret
        rw [offered, Except.ok.injEq] at given
        subst given
        exact ⟨hmem, hk.trans hck.symm, most c hc hck⟩

theorem KeepsBest.run {env : MinableEnv} {known : List CFinalCommitment} {s : Minable}
    {calls : List MinableCall} (h : KeepsBest env known s)
    (notBetter : Steps.Permitted (minableStep env) (NotBetter env) s calls)
    (collisionFree : CollisionFree env (known ++ calls.flatMap (candidates env))) :
    ∃ s', calls.foldlM (minableStep env) s = .ok s' ∧
      KeepsBest env (known ++ calls.flatMap (candidates env)) s' := by
  induction calls generalizing s known with
  | nil => exact ⟨s, rfl, by simpa using h⟩
  | cons call calls ih =>
    rw [List.flatMap_cons, ← List.append_assoc] at collisionFree ⊢
    obtain ⟨s', hrun, h'⟩ :=
      h.step (collisionFree.mono (List.subset_append_left _ _)) notBetter.1
    obtain ⟨s'', hrun', h''⟩ := ih h' (notBetter.2 s' hrun) collisionFree
    refine ⟨s'', ?_, h''⟩
    rw [List.foldlM_cons, hrun]
    exact hrun'

/-- As long as no commitment is better than the one that is kept, the maps stay paired and the best
one is offered. -/
theorem runMinable_offersBest (env : MinableEnv) (calls : List MinableCall)
    (collisionFree : CollisionFree env (calls.flatMap (candidates env)))
    (notBetter : Steps.Permitted (minableStep env) (NotBetter env) .empty calls) :
    ∃ s, runMinable env calls = .ok s ∧ OffersBest (calls.flatMap (candidates env)) s := by
  obtain ⟨s, hrun, h⟩ := KeepsBest.empty.run notBetter collisionFree
  exact ⟨s, hrun, h.offersBest⟩

instance decidableNotBetter (env : MinableEnv) (s : Minable) (call : MinableCall) :
    Decidable (NotBetter env s call) :=
  inferInstanceAs (Decidable (∀ qc ∈ _, ∀ old ∈ _, _))

instance decidableCollisionFree (env : MinableEnv) (known : List CFinalCommitment) :
    Decidable (CollisionFree env known) :=
  inferInstanceAs (Decidable (∀ c ∈ known, ∀ c' ∈ known, _))

def toyMinable : MinableEnv where
  toProcessorEnv := toyMain
  serializeHash qc := BitVec.ofNat 256 (countSigners qc)

def toyMore : CFinalCommitment := toyCommitment 1 3 true

def toyLess : CFinalCommitment := { toyMore with signers := [true, true, false] }

def toyWindow : ActiveChain :=
  ([11, 10, 9, 8, 7, 6, 5, 4, 3, 2].map fun hash => toyBlock hash []) ++ [toyGenesis]

theorem runMinable_offersBest_descending : ∃ s,
    runMinable toyMinable [.message toyWindow toyMore, .addMinableCommitment toyLess] = .ok s ∧
      OffersBest [toyMore, toyLess] s :=
  runMinable_offersBest toyMinable [.message toyWindow toyMore, .addMinableCommitment toyLess]
    (by decide +kernel) (by decide +kernel)

/-- The better commitment of a peer is dropped, and added locally it leaves the old one behind. -/
theorem runMinable_keepsWorse :
    toyMore ∈ candidates toyMinable (.message toyWindow toyMore) ∧
      countSigners toyLess < countSigners toyMore ∧ quorumKey toyLess = quorumKey toyMore ∧
      (do
        let s ← runMinable toyMinable [.addMinableCommitment toyLess, .message toyWindow toyMore]
        ((getMinableCommitment toyWindow 11 (1, Consensus.llmq3_60) s).run.run
          ⟨.empty, fun _ => none⟩).1) = .ok (some toyLess) ∧
      (do
        let s ← runMinable toyMinable [.addMinableCommitment toyLess, .addMinableCommitment toyMore]
        pure (s.minableCommitments (toyMinable.serializeHash toyLess),
          s.minableCommitments (toyMinable.serializeHash toyMore))) =
        .ok (some toyLess, some toyMore) := by
  decide +kernel

end ButCore.Llmq.BlockProcessor
