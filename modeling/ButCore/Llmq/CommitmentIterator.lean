import ButCore.Llmq.CbTxQuorums

/-!
# The iterator over the mined commitments

`GetMinedCommitmentsUntilBlock` as it reads the evo database: the keys of `q_mcih` are compared by
their bytes, and the iterator is that of the open transaction, over the root transaction, over what
is on the disk.
-/
namespace ButCore.Llmq.CbTxQuorums

open ActiveChain BlockProcessor Checked ButCore.Evo Overlay KeyScan

/-! ### Keys -/

def inversedHeightWord : List ℕ := [6, 113, 95, 109, 99, 105, 104]

def buildInversedHeightKey (type : LLMQType) (nMinedHeight : ℕ) : List ℕ :=
  (inversedHeightWord ++ [type.toNat]) ++ digits 256 4 (2 ^ 32 - 1 - nMinedHeight)

def getKey (key : List ℕ) : Option (LLMQType × ℕ) :=
  if inversedHeightWord <+: key then
    match key.drop 7 with
    | [] => none
    | type :: bytes =>
      some (BitVec.ofNat 8 type, 2 ^ 32 - 1 - (bytes.take 4).foldl (fun n byte => n * 256 + byte) 0)
  else none

/-- The loop goes on. Among the keys of the type only the one of height 0 is not below `lastKey`. -/
def inRange (type : LLMQType) (nHeight : ℕ) (curKey : List ℕ) : Bool :=
  match getKey curKey with
  | none => false
  | some (curType, nMinedHeight) =>
    decide (curType = type) && decide (nMinedHeight ≠ 0) && decide (nMinedHeight ≤ nHeight)

/-! ### The database -/

/-- A value is `none` if it is not a height. -/
structure EvoDb where
  disk : List (List ℕ × Option ℤ)
  ascending : Ascending disk
  root : Layer (List ℕ) (Option ℤ)
  cur : Layer (List ℕ) (Option ℤ)

namespace EvoDb

variable (evoDb : EvoDb)

def read : List ℕ → Option (Option ℤ) :=
  evoDb.cur.read (evoDb.root.read (listed evoDb.disk))

def seek (key : List ℕ) : Cursor (List ℕ) (Option ℤ) :=
  evoDb.cur.seek (evoDb.root.visitsFrom (fromKey evoDb.disk key) key) key

/-- `branch` ends with the block that is asked for; `maxCount` is what is left of it. -/
def collect (type : LLMQType) (branch : ActiveChain) :
    ℕ → Cursor (List ℕ) (Option ℤ) → Except Abort (List Uint256)
  | 0, _ => pure []
  | maxCount + 1, it =>
    match it.current with
    | none => pure []
    | some (curKey, value) =>
      if inRange type (branch.length - 1) curKey then
        match value with
        | none => pure []
        | some quorumHeight => do
          let quorumIndex ← expect (quorumHashAt branch quorumHeight) .assertion
          let ret ← collect type branch maxCount (evoDb.cur.next it)
          pure (quorumIndex :: ret)
      else pure []

def getMinedCommitmentsUntilBlock (type : LLMQType) (branch : ActiveChain) (maxCount : ℕ) :
    Except Abort (List Uint256) :=
  evoDb.collect type branch maxCount (evoDb.seek (buildInversedHeightKey type (branch.length - 1)))

structure Holds (db : CommitmentDb) : Prop where
  keys : ∀ key value, evoDb.read key = some value → inversedHeightWord <+: key →
    ∃ type h, h < 2 ^ 32 ∧ key = buildInversedHeightKey type h
  heights : ∀ (type : LLMQType) (h : ℕ), h < 2 ^ 32 →
    evoDb.read (buildInversedHeightKey type h) = (db.quorumHeight (type, h)).map some

end EvoDb

variable {key : List ℕ}

section

variable {type type' : LLMQType} {h h' n : ℕ}

theorem foldl_digits {count x : ℕ} (hx : x < 256 ^ count) :
    (digits 256 count x).foldl (fun n byte => n * 256 + byte) 0 = x := by
  induction count generalizing x with
  | zero =>
    rw [Nat.pow_zero] at hx
    simp only [digits, List.foldl_nil]
    omega
  | succ count ih =>
    rw [digits, List.foldl_append, ih (Nat.div_lt_of_lt_mul (by rwa [Nat.pow_succ'] at hx))]
    exact Nat.div_add_mod' x 256

theorem getKey_build (hh : h < 2 ^ 32) : getKey (buildInversedHeightKey type h) = some (type, h) := by
  have begins : inversedHeightWord <+: buildInversedHeightKey type h :=
    ⟨[type.toNat] ++ digits 256 4 (2 ^ 32 - 1 - h), by simp [buildInversedHeightKey]⟩
  have dropped : (buildInversedHeightKey type h).drop 7 =
      type.toNat :: digits 256 4 (2 ^ 32 - 1 - h) := rfl
  rw [getKey, if_pos begins, dropped]
  dsimp only
  rw [List.take_of_length_le (by simp), foldl_digits (by omega), BitVec.ofNat_toNat,
    BitVec.setWidth_eq]
  congr 2
  omega

theorem inRange_build (hh : h < 2 ^ 32) :
    inRange type n (buildInversedHeightKey type' h) = true ↔ type' = type ∧ h ≠ 0 ∧ h ≤ n := by
  simp [inRange, getKey_build hh, and_assoc]

theorem begins_of_inRange (wanted : inRange type n key = true) :
    inversedHeightWord <+: key := by
  by_contra other
  simp [inRange, getKey, other] at wanted

theorem build_lt_iff (hh : h < 2 ^ 32) (hh' : h' < 2 ^ 32) :
    buildInversedHeightKey type h < buildInversedHeightKey type h' ↔ h' < h := by
  unfold buildInversedHeightKey
  rw [append_lt_append_iff, digits_lt (by omega) (by omega)]
  omega

end

/-! ### What the loop visits -/

namespace EvoDb

variable {evoDb : EvoDb} {db : CommitmentDb} {type : LLMQType} {branch : ActiveChain}

theorem settled_seek (key : List ℕ) : evoDb.cur.Settled (evoDb.seek key) := Layer.settled_seek _ key

theorem lists_seek (key : List ℕ) : Lists evoDb.read key (evoDb.cur.rest (evoDb.seek key)) :=
  Layer.lists_rest_seek (Layer.lists_visitsFrom (lists_fromKey evoDb.ascending key))

def entriesUntil (db : CommitmentDb) (type : LLMQType) (nHeight : ℕ) : List (List ℕ × Option ℤ) :=
  (List.range nHeight).reverse.filterMap fun (h : ℕ) =>
    (db.quorumHeight (type, h + 1)).map fun quorumHeight =>
      (buildInversedHeightKey type (h + 1), some quorumHeight)

variable {nHeight : ℕ}

theorem ascending_entriesUntil (small : nHeight < 2 ^ 32) :
    Ascending (entriesUntil db type nHeight) := by
  have falling : (List.range nHeight).reverse.Pairwise (fun h h' => h' < h) :=
    List.pairwise_reverse.mpr List.pairwise_lt_range
  refine List.pairwise_filterMap.mpr (falling.imp_of_mem ?_)
  intro h h' hmem hmem' less e he e' he'
  obtain ⟨_, -, rfl⟩ := Option.map_eq_some_iff.mp he
  obtain ⟨_, -, rfl⟩ := Option.map_eq_some_iff.mp he'
  simp only [List.mem_reverse, List.mem_range] at hmem hmem'
  exact (build_lt_iff (by omega) (by omega)).mpr (by omega)

theorem mem_entriesUntil (e : List ℕ × Option ℤ) :
    e ∈ entriesUntil db type nHeight ↔ ∃ h quorumHeight, 0 < h ∧ h ≤ nHeight ∧
      db.quorumHeight (type, (h : ℕ)) = some quorumHeight ∧
      e = (buildInversedHeightKey type h, some quorumHeight) := by
  simp only [entriesUntil, List.mem_filterMap, List.mem_reverse, List.mem_range,
    Option.map_eq_some_iff]
  constructor
  · rintro ⟨h, hlt, quorumHeight, found, rfl⟩
    exact ⟨h + 1, quorumHeight, by omega, hlt, by simpa using found, rfl⟩
  · rintro ⟨h, quorumHeight, hpos, hle, found, rfl⟩
    obtain ⟨h, rfl⟩ := Nat.exists_eq_succ_of_ne_zero hpos.ne'
    exact ⟨h, hle, quorumHeight, by simpa using found, rfl⟩

theorem inRange_of_between (holds : evoDb.Holds db) (small : nHeight < 2 ^ 32) {key' : List ℕ}
    {value value' : Option ℤ} (found : evoDb.read key = some value)
    (found' : evoDb.read key' = some value') (first : buildInversedHeightKey type nHeight ≤ key)
    (less : key < key') (wanted : inRange type nHeight key' = true) : inRange type nHeight key = true := by
  obtain ⟨type', h', hh', rfl⟩ := holds.keys _ _ found' (begins_of_inRange wanted)
  obtain ⟨rfl, -, -⟩ := (inRange_build hh').mp wanted
  have begins : (inversedHeightWord ++ [type'.toNat]) <+: key := by
    by_contra other
    exact first.not_gt ((lt_append_iff other).mp less)
  obtain ⟨type, h, hh, rfl⟩ := holds.keys _ _ found ((List.prefix_append _ _).trans begins)
  obtain rfl : type' = type := by
    obtain ⟨_, same⟩ := begins
    have same := List.append_cancel_left (List.append_inj_left same rfl)
    exact BitVec.toNat_inj.mp (List.singleton_inj.mp same)
  refine (inRange_build hh).mpr ⟨rfl, ?_, ?_⟩
  · have := (build_lt_iff hh hh').mp less
    omega
  · by_contra above
    exact first.not_gt ((build_lt_iff hh small).mpr (not_le.mp above))

theorem takeWhile_rest_seek (holds : evoDb.Holds db) (small : nHeight < 2 ^ 32) :
    (evoDb.cur.rest (evoDb.seek (buildInversedHeightKey type nHeight))).takeWhile
      (fun e => inRange type nHeight e.1) = entriesUntil db type nHeight := by
  have lists : Lists evoDb.read _ _ := lists_seek (buildInversedHeightKey type nHeight)
  rw [takeWhile_eq_filter]
  · refine List.Pairwise.eq_of_mem_iff (lists.ascending.sublist List.filter_sublist)
      (ascending_entriesUntil small) ?_
    intro e
    rw [List.mem_filter, lists.mem_iff, mem_entriesUntil]
    constructor
    · rintro ⟨⟨-, found⟩, wanted⟩
      obtain ⟨type', h, hh, key⟩ := holds.keys _ _ found (begins_of_inRange wanted)
      rw [key] at wanted found
      obtain ⟨rfl, hpos, hle⟩ := (inRange_build hh).mp wanted
      rw [holds.heights _ _ hh] at found
      obtain ⟨quorumHeight, hq, value⟩ := Option.map_eq_some_iff.mp found
      exact ⟨h, quorumHeight, Nat.pos_of_ne_zero hpos, hle, hq, Prod.ext key value.symm⟩
    · rintro ⟨h, quorumHeight, hpos, hle, found, rfl⟩
      have hh : h < 2 ^ 32 := by omega
      refine ⟨⟨?_, ?_⟩, (inRange_build hh).mpr ⟨rfl, hpos.ne', hle⟩⟩
      · exact not_lt.mp fun less => hle.not_gt ((build_lt_iff hh small).mp less)
      · rw [holds.heights _ _ hh, found]
        rfl
  · refine lists.ascending.imp_of_mem fun {a b} ha hb less wanted => ?_
    obtain ⟨first, found⟩ := (lists.mem_iff a).mp ha
    exact inRange_of_between holds small found ((lists.mem_iff b).mp hb).2 first less wanted

theorem collect_eq {it : Cursor (List ℕ) (Option ℤ)} (settled : evoDb.cur.Settled it)
    {heights : List ℤ} (maxCount : ℕ)
    (visited : ((evoDb.cur.rest it).takeWhile fun e => inRange type (branch.length - 1) e.1).map
      Prod.snd = heights.map some) :
    evoDb.collect type branch maxCount it = (heights.take maxCount).mapM fun quorumHeight =>
      expect (quorumHashAt branch quorumHeight) .assertion := by
  induction maxCount generalizing it heights with
  | zero => rfl
  | succ maxCount ih =>
    obtain ⟨hcurrent, hnext⟩ := Layer.step_rest settled
    rw [collect, hcurrent]
    cases left : evoDb.cur.rest it with
    | nil =>
      rw [left] at visited
      obtain rfl := List.map_eq_nil_iff.mp visited.symm
      rfl
    | cons e left' =>
      obtain ⟨key, value⟩ := e
      rw [left, List.takeWhile_cons] at visited
      dsimp only [List.head?_cons]
      split at visited
      · next wanted =>
          obtain ⟨quorumHeight, heights, rfl, rfl, later⟩ := List.map_eq_cons_iff.mp visited.symm
          rw [left, List.tail_cons] at hnext
          rw [if_pos wanted, ih (Layer.settled_next settled) (by rw [hnext, later]),
            List.take_succ_cons, List.mapM_cons]
      · next wanted =>
          obtain rfl := List.map_eq_nil_iff.mp visited.symm
          rw [if_neg wanted]
          rfl

theorem map_entriesUntil (db : CommitmentDb) (type : LLMQType) (nHeight : ℕ) :
    (entriesUntil db type nHeight).map Prod.snd =
      ((List.range nHeight).reverse.filterMap fun (h : ℕ) => db.quorumHeight (type, h + 1)).map
        some := by
  rw [entriesUntil, List.map_filterMap, List.map_filterMap]
  refine List.filterMap_congr fun h _ => ?_
  rw [Option.map_map]
  rfl

theorem getMinedCommitmentsUntilBlock_eq (holds : evoDb.Holds db) (small : branch.length < 2 ^ 32)
    (maxCount : ℕ) : evoDb.getMinedCommitmentsUntilBlock type branch maxCount =
      CbTxQuorums.getMinedCommitmentsUntilBlock db branch type maxCount := by
  refine collect_eq (settled_seek _) maxCount ?_
  rw [takeWhile_rest_seek holds (by omega), map_entriesUntil]

end EvoDb

/-! ### The commitments of a branch -/

def minedUntil (branch : ActiveChain) (type : LLMQType) : List CFinalCommitment :=
  branch.flatMap fun block => newCommitments block type

section

variable {env : ProcessorEnv} {s : State} {above branch : ActiveChain} {type : LLMQType}
variable {b : ConnectedBlock}

theorem mem_newCommitments {qc : CFinalCommitment} :
    qc ∈ newCommitments b type ↔
      (qc ∈ blockCommitments b ∧ isNullCommitment qc = false) ∧ qc.llmqType = type := by
  rw [newCommitments, List.mem_filter, mem_mined, decide_eq_true_eq]

variable {h : ℕ}

theorem newCommitments_cases (fit : ParamsFit env) (agrees : Agrees env s)
    (found : s.chain.atHeight h = some b) (type : LLMQType) :
    newCommitments b type = [] ∨
      0 < h ∧ ∃ qc, newCommitments b type = [qc] ∧ MinedAt s.chain h b qc ∧ qc.llmqType = type := by
  cases listed : newCommitments b type with
  | nil => exact .inl rfl
  | cons qc others =>
    obtain ⟨⟨hmem, notNull⟩, rfl⟩ := mem_newCommitments.mp (listed ▸ List.mem_cons_self)
    have mined : MinedAt s.chain h b qc := ⟨found, hmem, notNull⟩
    obtain ⟨params, hentry, phase, one⟩ := agrees.typed_of_minedAt mined
    have hpos : 0 < h := by
      have window : 0 < params.dkgMiningWindowStart := fit.window _ hentry
      rw [isMiningPhase_natCast] at phase
      by_contra genesis
      obtain rfl : h = 0 := by omega
      rw [Nat.zero_mod] at phase
      omega
    have sub : (newCommitments b qc.llmqType).Sublist (typedCommitments b qc.llmqType) :=
      List.filter_sublist.filter _
    have short := sub.length_le
    rw [listed, one, List.length_cons] at short
    obtain rfl := List.length_eq_zero_iff.mp (show others.length = 0 by omega)
    exact .inr ⟨hpos, qc, rfl, mined, rfl⟩

theorem quorumHeight_eq (agrees : Agrees env s) (found : s.chain.atHeight h = some b)
    (none : newCommitments b type = []) :
    s.store.db.quorumHeight (type, h) = .none := by
  refine Option.eq_none_iff_forall_ne_some.mpr fun start entry => ?_
  obtain ⟨h', b', qc, mined, same, htype, -⟩ := (agrees.stored.quorumHeight _ _ _).mp entry
  obtain rfl := Int.ofNat_inj.mp same
  obtain rfl := Option.some.inj (found.symm.trans mined.block)
  have hmem := mem_newCommitments.mpr ⟨⟨mined.mem, mined.notNull⟩, htype⟩
  rw [none] at hmem
  exact List.not_mem_nil hmem

theorem heights_succ (db : CommitmentDb) (type : LLMQType) (n : ℕ) :
    ((List.range (n + 1)).reverse.filterMap fun (h : ℕ) => db.quorumHeight (type, h + 1)) =
      (db.quorumHeight (type, (n + 1 : ℕ))).toList ++
        (List.range n).reverse.filterMap fun (h : ℕ) => db.quorumHeight (type, h + 1) := by
  rw [List.range_succ, List.reverse_append, List.reverse_singleton, List.singleton_append,
    List.filterMap_cons, Nat.cast_succ]
  cases db.quorumHeight (type, (n : ℤ) + 1) <;> rfl

theorem quorumHashes_eq (fit : ParamsFit env) (agrees : Agrees env s)
    (split : s.chain = above ++ branch) (type : LLMQType) {mid below : ActiveChain}
    (part : branch = mid ++ below) :
    ((List.range (below.length - 1)).reverse.filterMap fun (h : ℕ) =>
        s.store.db.quorumHeight (type, h + 1)).map (quorumHashAt branch) =
      (minedUntil below type).map fun qc => some qc.quorumHash := by
  induction below generalizing mid with
  | nil => rfl
  | cons b below ih =>
    have later := ih (part.trans (List.append_cons mid b below))
    have found : s.chain.atHeight below.length = some b := by
      rw [split, part, ← List.append_assoc, atHeight_append (by simp), atHeight_cons_length]
    have mem := newCommitments_cases fit agrees found type
    rw [minedUntil, List.flatMap_cons, List.map_append]
    cases length : below.length with
    | zero =>
      obtain rfl := List.length_eq_zero_iff.mp length
      obtain none | ⟨hpos, -⟩ := mem
      · rw [none]
        rfl
      · exact absurd hpos (lt_irrefl 0)
    | succ n =>
      rw [length, Nat.add_sub_cancel] at later
      rw [List.length_cons, length, Nat.add_sub_cancel, heights_succ, List.map_append, later,
        ← length]
      obtain none | ⟨-, qc, one, mined, rfl⟩ := mem
      · rw [quorumHeight_eq agrees found none, none]
        rfl
      · have start : s.store.db.quorumHeight (qc.llmqType, below.length) =
            some (sessionHeight env below.length qc.llmqType) :=
          (agrees.stored.quorumHeight _ _ _).mpr ⟨_, b, qc, mined, rfl, rfl, rfl⟩
        have hlt : below.length < branch.length := by
          rw [part, List.length_append, List.length_cons]
          omega
        rw [start, one, Option.toList_some, List.map_singleton,
          quorumHashAt_sessionHeight agrees mined split hlt]
        rfl

theorem getMinedCommitmentsUntilBlock_branch (fit : ParamsFit env) (agrees : Agrees env s)
    (split : s.chain = above ++ branch) (type : LLMQType) (maxCount : ℕ) :
    getMinedCommitmentsUntilBlock s.store.db branch type maxCount =
      .ok (((minedUntil branch type).take maxCount).map CFinalCommitment.quorumHash) := by
  have hashes := quorumHashes_eq fit agrees split type (List.nil_append branch).symm
  have pairs := List.forall₂_map_right_iff.mp (List.forall₂_map_left_iff.mp
    (List.forall₂_eq_eq_eq ▸ hashes))
  refine mapM_eq_ok.mpr (List.forall₂_map_right_iff.mpr ?_)
  exact (List.forall₂_take maxCount pairs).imp fun _ _ hash => expect_eq_ok.mpr hash

end

/-- In every run, for every block of the active chain, and however the entries are spread over the
disk and the two transactions. -/
theorem run_getMinedCommitmentsUntilBlock (env : ProcessorEnv) (fit : ParamsFit env)
    (calls : List Call) (follows : Steps.Meets (step env) FollowsChain (initial env) calls)
    (evoDb : EvoDb) (holds : evoDb.Holds (run env calls).store.db) (above branch : ActiveChain)
    (split : (run env calls).chain = above ++ branch) (small : branch.length ≤ 2 ^ 31)
    (type : LLMQType) (maxCount : ℕ) :
    evoDb.getMinedCommitmentsUntilBlock type branch maxCount =
      .ok (((minedUntil branch type).take maxCount).map CFinalCommitment.quorumHash) := by
  rw [EvoDb.getMinedCommitmentsUntilBlock_eq holds (by omega)]
  exact getMinedCommitmentsUntilBlock_branch fit
    (Steps.run_inv (Agrees.step fit) (Agrees.initial fit) follows) split type maxCount

/-! ### Two databases -/

def noChanges : Layer (List ℕ) (Option ℤ) := ⟨[], ∅, List.Pairwise.nil, by simp⟩

def pendingEntry (key : List ℕ) : EvoDb :=
  ⟨[], List.Pairwise.nil, noChanges, ⟨[(key, some 0)], ∅, List.pairwise_singleton _ _, by simp⟩⟩

theorem read_pendingEntry (first key : List ℕ) :
    (pendingEntry first).read key = if key = first then some (some 0) else none := by
  have below : noChanges.read (listed []) key = none := by simp [Layer.read, noChanges, listed]
  refine Option.ext fun value => ?_
  have listed := (pendingEntry first).cur.read_eq_some_iff (noChanges.read (listed [])) (key, value)
  rw [below] at listed
  refine listed.trans ?_
  by_cases same : key = first
  · simp [pendingEntry, same, eq_comm (a := value)]
  · simp [pendingEntry, same]

def toyEvoDb : EvoDb := pendingEntry (buildInversedHeightKey 1 10)

theorem toyEvoDb_holds {db : CommitmentDb}
    (entries : db.quorumHeight = Function.update (fun _ => none) (1, 10) (some 0)) :
    toyEvoDb.Holds db := by
  have read := read_pendingEntry (buildInversedHeightKey 1 10)
  constructor
  · intro key value found _
    rw [toyEvoDb, read] at found
    split at found
    · next first => exact ⟨1, 10, by omega, first⟩
    · cases found
  · intro type h hh
    rw [toyEvoDb, read, entries, Function.update_apply]
    by_cases first : type = 1 ∧ h = 10
    · obtain ⟨rfl, rfl⟩ := first
      rfl
    · have other : buildInversedHeightKey type h ≠ buildInversedHeightKey 1 10 := by
        intro same
        have := congrArg getKey same
        rw [getKey_build hh, getKey_build (by omega)] at this
        exact first (Prod.mk.inj (Option.some.inj this))
      have outside : (type, (h : ℤ)) ≠ (1, 10) := fun same =>
        first ⟨(Prod.mk.inj same).1, Int.ofNat_inj.mp (Prod.mk.inj same).2⟩
      rw [if_neg other, if_neg outside]
      rfl

def toyMined : List Call :=
  toyCalls ++ [.processBlock (toyBlock 11 [toyCommitment 1 3 true]) true]

theorem run_getMinedCommitmentsUntilBlock_main : toyEvoDb.getMinedCommitmentsUntilBlock 1
    (run toyMain toyMined).chain 5 = .ok (((minedUntil (run toyMain toyMined).chain 1).take 5).map
      CFinalCommitment.quorumHash) ∧ (minedUntil (run toyMain toyMined).chain 1).length = 1 := by
  refine ⟨run_getMinedCommitmentsUntilBlock toyMain ⟨rfl, by decide, by decide⟩ toyMined
    (by decide +kernel) toyEvoDb (toyEvoDb_holds ?_) [] _ (List.nil_append _).symm
    (by decide +kernel) 1 5, by decide +kernel⟩
  set_option maxRecDepth 20000 in rfl

def toyRegtestMined : List Call :=
  toyCalls ++ [.processBlock (toyBlock 11 [toyCommitment 1 50 false, toyCommitment 100 3 true]) true]

/-- The commitment of type 100 is written under the type of its parameters. -/
theorem run_getMinedCommitmentsUntilBlock_regtest :
    Steps.Meets (step toyRegtest) FollowsChain (initial toyRegtest) toyRegtestMined ∧
      toyEvoDb.Holds (run toyRegtest toyRegtestMined).store.db ∧
      toyEvoDb.getMinedCommitmentsUntilBlock 100 (run toyRegtest toyRegtestMined).chain 1 = .ok [] ∧
      (minedUntil (run toyRegtest toyRegtestMined).chain 100).length = 1 := by
  have holds : toyEvoDb.Holds (run toyRegtest toyRegtestMined).store.db := by
    refine toyEvoDb_holds ?_
    set_option maxRecDepth 20000 in rfl
  refine ⟨by decide +kernel, holds, ?_, by decide +kernel⟩
  rw [EvoDb.getMinedCommitmentsUntilBlock_eq holds (by decide +kernel)]
  decide +kernel

end ButCore.Llmq.CbTxQuorums
