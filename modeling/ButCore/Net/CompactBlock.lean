import Mathlib

/-!
# Compact blocks

`InitData` places the prefilled transactions of a compact block, gives the positions that are left
to the short ids and fills them from the mempool and the extra transactions.
-/
namespace ButCore.CompactBlock

variable {τ : Type}

/-- A `CBlockHeaderAndShortTxIDs`; the prefilled transactions have their distance from the last. -/
structure Message (τ : Type) where
  headerIsNull : Bool
  shorttxids : List ℕ
  prefilledtxn : List (BitVec 16 × τ)

def Message.blockTxCount (msg : Message τ) : ℕ := msg.shorttxids.length + msg.prefilledtxn.length

inductive ReadStatus where
  | invalid
  | failed
  deriving DecidableEq

def MAX_BLOCK_SIZE : ℕ := 2000000

def MIN_TRANSACTION_SIZE : ℕ := 10

/-- What the function reads of its surroundings: null transactions, the short id of a transaction,
equal hashes, and whether the bucket of an id is too full once these ids are in the map. -/
structure Env (τ : Type) where
  isNull : τ → Bool
  shortID : τ → ℕ
  sameHash : τ → τ → Bool
  bucketTooFull : List ℕ → ℕ → Bool

section

variable (env : Env τ)

/-- The first loop; `next` is `lastprefilledindex + 1`. -/
def placePrefilled (shorts : ℕ) : List (BitVec 16 × τ) → ℕ → ℕ → List (Option τ) →
    Except ReadStatus (List (Option τ))
  | [], _, _, available => .ok available
  | (index, tx) :: rest, i, next, available =>
    let lastprefilledindex := next + index.toNat
    if env.isNull tx then .error .invalid
    else if lastprefilledindex > 65535 then .error .invalid
    else if lastprefilledindex > shorts + i then .error .invalid
    else placePrefilled shorts rest (i + 1) (lastprefilledindex + 1)
      (available.set lastprefilledindex (some tx))

def filled (available : List (Option τ)) (p : ℕ) : Bool := (available[p]?.join).isSome

/-- The inner loop; the offset has 16 bits. It may go on for ever. -/
def skipFilled (available : List (Option τ)) (i : ℕ) : ℕ → ℕ → Option ℕ
  | 0, _ => none
  | fuel + 1, index_offset =>
    if filled available (i + index_offset) then
      skipFilled available i fuel ((index_offset + 1) % 65536)
    else some index_offset

/-- The second loop; `none` when it does not end. -/
def assignIds (available : List (Option τ)) (fuel : ℕ) : List ℕ → List ℕ → ℕ → ℕ →
    (ℕ → Option ℕ) → Option (Except ReadStatus (ℕ → Option ℕ))
  | [], _, _, _, shorttxids => some (.ok shorttxids)
  | id :: ids, seen, i, index_offset, shorttxids =>
    match skipFilled available i fuel index_offset with
    | none => none
    | some index_offset =>
      let shorttxids := Function.update shorttxids id (some ((i + index_offset) % 65536))
      if env.bucketTooFull (id :: seen) id then some (.error .failed)
      else assignIds available fuel ids (id :: seen) (i + 1) index_offset shorttxids

structure Filling (τ : Type) where
  available : List (Option τ)
  have_txn : ℕ → Bool
  mempool_count : ℤ

/-- One transaction of the mempool or the extra list; the two differ in when a second match empties
the position. -/
def fillOne (shorttxids : ℕ → Option ℕ) (clash : τ → τ → Bool) (st : Filling τ) (tx : τ) :
    Filling τ :=
  match shorttxids (env.shortID tx) with
  | none => st
  | some p =>
    if !st.have_txn p then
      ⟨st.available.set p (some tx), Function.update st.have_txn p true, st.mempool_count + 1⟩
    else
      match st.available[p]?.join with
      | some placed =>
        if clash placed tx then
          { st with available := st.available.set p none, mempool_count := st.mempool_count - 1 }
        else st
      | none => st

def fill (shorttxids : ℕ → Option ℕ) (size : ℕ) (clash : τ → τ → Bool) :
    List τ → Filling τ → Filling τ
  | [], st => st
  | tx :: txs, st =>
    let st := fillOne env shorttxids clash st tx
    if st.mempool_count = (size : ℤ) then st else fill shorttxids size clash txs st

/-- `InitData`: the transactions by position and the map of short ids, if it returns OK. -/
def initData (fuel : ℕ) (msg : Message τ) (mempool extra : List τ) :
    Option (Except ReadStatus (List (Option τ) × (ℕ → Option ℕ))) :=
  if msg.headerIsNull ∨ (msg.shorttxids = [] ∧ msg.prefilledtxn = []) then some (.error .invalid)
  else if msg.blockTxCount > MAX_BLOCK_SIZE / MIN_TRANSACTION_SIZE then some (.error .invalid)
  else
    match placePrefilled env msg.shorttxids.length msg.prefilledtxn 0 0
        (List.replicate msg.blockTxCount none) with
    | .error status => some (.error status)
    | .ok available =>
      match assignIds env available fuel msg.shorttxids [] 0 0 fun _ => none with
      | none => none
      | some (.error status) => some (.error status)
      | some (.ok shorttxids) =>
        if ¬ msg.shorttxids.Nodup then some (.error .failed)
        else
          let size := msg.shorttxids.length
          let st := fill env shorttxids size (fun _ _ => true) mempool ⟨available, fun _ => false, 0⟩
          let st := fill env shorttxids size (fun a b => !env.sameHash a b) extra st
          some (.ok (st.available, shorttxids))

end

def decoded : List (BitVec 16 × τ) → ℕ → List (ℕ × τ)
  | [], _ => []
  | (index, tx) :: rest, next =>
    (next + index.toNat, tx) :: decoded rest (next + index.toNat + 1)

def Message.prefilled (msg : Message τ) : List (ℕ × τ) := decoded msg.prefilledtxn 0

def Message.prefilledAt (msg : Message τ) (p : ℕ) : Prop := p ∈ msg.prefilled.map Prod.fst

instance (msg : Message τ) : DecidablePred msg.prefilledAt := fun _ => inferInstanceAs (Decidable (_ ∈ _))

structure Message.Placed (msg : Message τ) (env : Env τ) (available : List (Option τ))
    (shorttxids : ℕ → Option ℕ) : Prop where
  prefilled : ∀ entry ∈ msg.prefilled, available[entry.1]? = some (some entry.2)
  /-- The id number `i` has the position with `i` positions before it that are left. -/
  inOrder : ∀ i id, msg.shorttxids[i]? = some id → ∃ p, shorttxids id = some p ∧
    p < msg.blockTxCount ∧ ¬ msg.prefilledAt p ∧ Nat.count (fun q => ¬ msg.prefilledAt q) p = i
  allAssigned : ∀ p < msg.blockTxCount, ¬ msg.prefilledAt p → ∃ id ∈ msg.shorttxids,
    shorttxids id = some p
  matching : ∀ p tx, available[p]? = some (some tx) → msg.prefilledAt p ∨
    env.shortID tx ∈ msg.shorttxids ∧ shorttxids (env.shortID tx) = some p

/-! ### The prefilled transactions -/

variable {pre : List (BitVec 16 × τ)} {next : ℕ}

theorem next_le_decoded :
    ∀ entry ∈ decoded pre next, next ≤ entry.1 := by
  induction pre generalizing next with
  | nil => simp [decoded]
  | cons head rest ih =>
    intro entry mem
    rcases List.mem_cons.mp mem with rfl | mem
    · exact Nat.le_add_right _ _
    · have := ih entry mem
      omega

theorem nodup_decoded (pre : List (BitVec 16 × τ)) (next : ℕ) :
    ((decoded pre next).map Prod.fst).Nodup := by
  induction pre generalizing next with
  | nil => simp [decoded]
  | cons head rest ih =>
    refine List.nodup_cons.mpr ⟨fun mem => ?_, ih _⟩
    obtain ⟨entry, mem, same⟩ := List.mem_map.mp mem
    have := next_le_decoded entry mem
    omega

theorem length_decoded (pre : List (BitVec 16 × τ)) (next : ℕ) :
    (decoded pre next).length = pre.length := by
  induction pre generalizing next with
  | nil => rfl
  | cons head rest ih => simp [decoded, ih]

variable {i : ℕ}

theorem placePrefilled_ok {env : Env τ} {shorts : ℕ} {available available' : List (Option τ)}
    (hlen : shorts + i + pre.length ≤ available.length)
    (ok : placePrefilled env shorts pre i next available = .ok available') :
    available'.length = available.length ∧
      (∀ entry ∈ decoded pre next, entry.1 ≤ 65535 ∧ entry.1 < shorts + i + pre.length ∧
        available'[entry.1]? = some (some entry.2)) ∧
      ∀ p ∉ (decoded pre next).map Prod.fst, available'[p]? = available[p]? := by
  induction pre generalizing i next available with
  | nil =>
    obtain rfl := Except.ok.inj ok
    simp [decoded]
  | cons head rest ih =>
    obtain ⟨index, tx⟩ := head
    rw [placePrefilled] at ok
    split_ifs at ok with null high gap
    rw [List.length_cons] at hlen
    obtain ⟨len, placed, others⟩ := ih (by rw [List.length_set]; omega) ok
    rw [List.length_set] at len
    have unplaced : next + index.toNat ∉
        (decoded rest (next + index.toNat + 1)).map Prod.fst := by
      intro mem
      obtain ⟨entry, mem, same⟩ := List.mem_map.mp mem
      have := next_le_decoded entry mem
      omega
    refine ⟨len, fun entry mem => ?_, fun p hp => ?_⟩
    · rcases List.mem_cons.mp mem with rfl | mem
      · refine ⟨not_lt.mp high, by rw [List.length_cons]; omega, ?_⟩
        rw [others _ unplaced, List.getElem?_set_self (by omega)]
      · obtain ⟨low, inside, get⟩ := placed entry mem
        exact ⟨low, by rw [List.length_cons]; omega, get⟩
    · rw [decoded, List.map_cons, List.mem_cons, not_or] at hp
      rw [others p hp.2, List.getElem?_set_ne (Ne.symm hp.1)]

/-! ### The short ids -/

variable {ids : List ℕ} {N : ℕ}

section

variable {env : Env τ} {available : List (Option τ)} {P : ℕ → Prop} [DecidablePred P] {k : ℕ}
variable {fuel o : ℕ}

/-- The offset counts the filled positions that were passed; there are fewer than `2 ^ 16`. -/
theorem skipFilled_some (isFilled : ∀ p, filled available p = true ↔ P p)
    (few : ∀ p, Nat.count P p ≤ k) (small : k < 65536) {o' : ℕ} (counted : Nat.count P (i + o) = o)
    (ok : skipFilled available i fuel o = some o') :
    ¬ P (i + o') ∧ Nat.count P (i + o') = o' := by
  induction fuel generalizing o with
  | zero => cases ok
  | succ fuel ih =>
    rw [skipFilled] at ok
    split at ok
    case isTrue full =>
      have next : Nat.count P (i + (o + 1)) = o + 1 := by
        rw [← add_assoc, Nat.count_succ, counted, if_pos ((isFilled _).mp full)]
      have bound := few (i + (o + 1))
      rw [Nat.mod_eq_of_lt (by omega)] at ok
      exact ih next ok
    case isFalse free =>
      obtain rfl := Option.some.inj ok
      exact ⟨fun h => free ((isFilled _).mpr h), counted⟩

theorem count_not_add_count (p : ℕ) : Nat.count (fun q => ¬ P q) p + Nat.count P p = p := by
  induction p with
  | zero => simp
  | succ p ih =>
    rw [Nat.count_succ, Nat.count_succ]
    by_cases h : P p <;> simp only [h, not_true, not_false_eq_true, if_true, if_false] <;> omega

variable {m' m : ℕ → Option ℕ} {seen : List ℕ}

/-- Every id gets the next position that is left; earlier ids keep theirs. -/
theorem assignIds_ok (isFilled : ∀ p, filled available p = true ↔ P p)
    (few : ∀ p, Nat.count P p ≤ k) (hN : N ≤ 65536) (counted : Nat.count P (i + o) = o)
    (fits : i + ids.length + k ≤ N) (nodup : ids.Nodup)
    (ok : assignIds env available fuel ids seen i o m = some (.ok m')) :
    (∀ j id, ids[j]? = some id → ∃ p, m' id = some p ∧ p < N ∧ ¬ P p ∧
      Nat.count (fun q => ¬ P q) p = i + j) ∧ ∀ id ∉ ids, m' id = m id := by
  induction ids generalizing seen i o m with
  | nil =>
    obtain rfl := Except.ok.inj (Option.some.inj ok)
    simp
  | cons id ids ih =>
    rw [List.length_cons] at fits
    obtain ⟨fresh, nodup⟩ := List.nodup_cons.mp nodup
    rw [assignIds] at ok
    split at ok
    case h_1 => cases ok
    case h_2 o' skipped =>
      obtain ⟨free, counted'⟩ := skipFilled_some isFilled few (by omega) counted skipped
      have before := count_not_add_count (P := P) (i + o')
      have inside : i + o' < N := by
        by_contra outside
        have := few (i + o')
        omega
      dsimp only at ok
      split at ok
      case isTrue => cases ok
      case isFalse =>
        have counted'' : Nat.count P (i + 1 + o') = o' := by
          rw [show i + 1 + o' = i + o' + 1 by omega, Nat.count_succ, counted', if_neg free]
          rfl
        obtain ⟨positions, others⟩ := ih counted'' (by omega) nodup ok
        refine ⟨fun j id' get => ?_, fun id' hid => ?_⟩
        · cases j with
          | zero =>
            obtain rfl : id = id' := Option.some.inj get
            refine ⟨i + o', ?_, inside, free, by omega⟩
            rw [others id fresh, Function.update_self, Nat.mod_eq_of_lt (by omega)]
          | succ j =>
            obtain ⟨p, hp, lt, left, count⟩ := positions j id' get
            exact ⟨p, hp, lt, left, by omega⟩
        · rw [List.mem_cons, not_or] at hid
          rw [others id' hid.2, Function.update_of_ne hid.1]

theorem assignIds_small (small : ∀ id p, m id = some p → p < 65536)
    (ok : assignIds env available fuel ids seen i o m = some (.ok m')) :
    ∀ id p, m' id = some p → p < 65536 := by
  induction ids generalizing seen i o m with
  | nil =>
    obtain rfl := Except.ok.inj (Option.some.inj ok)
    exact small
  | cons id ids ih =>
    rw [assignIds] at ok
    split at ok
    case h_1 => cases ok
    case h_2 o' skipped =>
      dsimp only at ok
      split at ok
      case isTrue => cases ok
      case isFalse =>
        refine ih (fun id' p get => ?_) ok
        rw [Function.update_apply] at get
        split at get
        case isTrue =>
          obtain rfl := Option.some.inj get
          exact Nat.mod_lt _ (by decide)
        case isFalse => exact small id' p get

end

/-! ### The transactions of the node -/

section

variable {env : Env τ} {shorttxids : ℕ → Option ℕ} {clash : τ → τ → Bool} {st : Filling τ}
  {P : ℕ → Prop} {placed : List (Option τ)}

structure Filled (env : Env τ) (shorttxids : ℕ → Option ℕ) (P : ℕ → Prop)
    (placed available : List (Option τ)) : Prop where
  kept : ∀ p, P p → available[p]? = placed[p]?
  matching : ∀ p tx, available[p]? = some (some tx) → P p ∨ shorttxids (env.shortID tx) = some p

theorem Filled.set (inv : Filled env shorttxids P placed st.available) {p : ℕ} (free : ¬ P p)
    {entry : Option τ} (own : ∀ tx, entry = some tx → shorttxids (env.shortID tx) = some p) :
    Filled env shorttxids P placed (st.available.set p entry) := by
  refine ⟨fun q hq => ?_, fun q tx get => ?_⟩
  · rw [List.getElem?_set_ne (fun e : p = q => free (e.symm ▸ hq)), inv.kept q hq]
  · by_cases same : p = q
    · subst same
      rw [List.getElem?_set] at get
      simp only [if_true] at get
      split at get
      case isTrue => exact Or.inr (own tx (Option.some.inj get))
      case isFalse => cases get
    · rw [List.getElem?_set_ne same] at get
      exact inv.matching q tx get

theorem Filled.fillOne (apart : ∀ id p, shorttxids id = some p → ¬ P p)
    (inv : Filled env shorttxids P placed st.available) (tx : τ) :
    Filled env shorttxids P placed (fillOne env shorttxids clash st tx).available := by
  unfold CompactBlock.fillOne
  cases found : shorttxids (env.shortID tx) with
  | none => exact inv
  | some p =>
    dsimp only
    split
    case isTrue => exact inv.set (apart _ _ found) fun tx' h => Option.some.inj h ▸ found
    case isFalse =>
      split
      case h_1 =>
        split
        case isTrue => exact inv.set (apart _ _ found) fun _ h => nomatch h
        case isFalse => exact inv
      case h_2 => exact inv

theorem Filled.fill (apart : ∀ id p, shorttxids id = some p → ¬ P p) (size : ℕ) (txs : List τ)
    (inv : Filled env shorttxids P placed st.available) :
    Filled env shorttxids P placed (fill env shorttxids size clash txs st).available := by
  induction txs generalizing st with
  | nil => exact inv
  | cons tx txs ih =>
    rw [CompactBlock.fill]
    split
    case isTrue => exact inv.fillOne apart tx
    case isFalse => exact ih (inv.fillOne apart tx)

end

/-! ### The whole function -/

section

variable {env : Env τ} {fuel : ℕ} {msg : Message τ} {mempool extra : List τ}
  {available : List (Option τ)} {shorttxids : ℕ → Option ℕ}

theorem initData_ok
    (ok : initData env fuel msg mempool extra = some (.ok (available, shorttxids))) :
    ∃ placed, placePrefilled env msg.shorttxids.length msg.prefilledtxn 0 0
        (List.replicate msg.blockTxCount none) = .ok placed ∧
      assignIds env placed fuel msg.shorttxids [] 0 0 (fun _ => none) = some (.ok shorttxids) ∧
      msg.shorttxids.Nodup ∧ ∀ P : ℕ → Prop, (∀ id p, shorttxids id = some p → ¬ P p) →
        Filled env shorttxids P placed placed → Filled env shorttxids P placed available := by
  unfold initData at ok
  split at ok
  case isTrue => cases ok
  case isFalse =>
    split at ok
    case isTrue => cases ok
    case isFalse =>
      split at ok
      case h_1 => cases ok
      case h_2 placed hplaced =>
        split at ok
        case h_1 => cases ok
        case h_2 => cases ok
        case h_3 ids hids =>
          split at ok
          case isTrue => cases ok
          case isFalse nodup =>
            obtain ⟨rfl, rfl⟩ := Prod.mk.inj (Except.ok.inj (Option.some.inj ok))
            refine ⟨placed, hplaced, hids, not_not.mp nodup, fun P apart start => ?_⟩
            exact Filled.fill apart _ _ (Filled.fill apart _ _ start)

theorem count_prefilledAt_le (msg : Message τ) (p : ℕ) :
    Nat.count msg.prefilledAt p ≤ msg.prefilledtxn.length := by
  rw [Nat.count_eq_card_filter_range, ← length_decoded msg.prefilledtxn 0,
    ← List.length_map Prod.fst]
  refine le_trans (Finset.card_le_card fun q mem => ?_) (List.toFinset_card_le _)
  exact List.mem_toFinset.mpr (Finset.mem_filter.mp mem).2

theorem count_prefilledAt_eq (inside : ∀ entry ∈ msg.prefilled, entry.1 < N) :
    Nat.count msg.prefilledAt N = msg.prefilledtxn.length := by
  refine le_antisymm (count_prefilledAt_le msg N) ?_
  rw [Nat.count_eq_card_filter_range, ← length_decoded msg.prefilledtxn 0,
    ← List.length_map Prod.fst, ← List.toFinset_card_of_nodup (nodup_decoded msg.prefilledtxn 0)]
  refine Finset.card_le_card fun q mem => ?_
  have mem := List.mem_toFinset.mp mem
  obtain ⟨entry, hentry, rfl⟩ := List.mem_map.mp mem
  exact Finset.mem_filter.mpr ⟨Finset.mem_range.mpr (inside entry hentry), mem⟩

/-- Compact blocks of up to `2 ^ 16` transactions are placed right, larger ones never. -/
theorem initData_placed_iff (env : Env τ) (fuel : ℕ) (msg : Message τ) (mempool extra : List τ)
    (available : List (Option τ)) (shorttxids : ℕ → Option ℕ)
    (ok : initData env fuel msg mempool extra = some (.ok (available, shorttxids))) :
    msg.Placed env available shorttxids ↔ msg.blockTxCount ≤ 65536 := by
  obtain ⟨placed, hplaced, assigned, nodup, filling⟩ := initData_ok ok
  obtain ⟨-, entries, others⟩ := placePrefilled_ok
    (by rw [List.length_replicate]; exact le_of_eq (by rw [Message.blockTxCount, add_zero])) hplaced
  have inside : ∀ entry ∈ msg.prefilled, entry.1 < msg.blockTxCount := fun entry mem => by
    have := (entries entry mem).2.1
    rwa [add_zero] at this
  constructor
  · intro result
    by_contra large
    have free : ¬ msg.prefilledAt (msg.blockTxCount - 1) := by
      intro mem
      obtain ⟨entry, mem, same⟩ := List.mem_map.mp mem
      have := (entries entry mem).1
      omega
    obtain ⟨id, -, get⟩ := result.allAssigned _ (by omega) free
    have := assignIds_small (by simp) assigned id _ get
    omega
  · intro small
    have isFilled : ∀ p, filled placed p = true ↔ msg.prefilledAt p := by
      intro p
      by_cases mem : msg.prefilledAt p
      · obtain ⟨entry, hentry, rfl⟩ := List.mem_map.mp mem
        simp [filled, (entries entry hentry).2.2, mem]
      · have := others p mem
        simp only [filled, this, mem, iff_false, Bool.not_eq_true]
        rw [List.getElem?_replicate]
        split <;> rfl
    obtain ⟨inOrder, unlisted⟩ := assignIds_ok isFilled (count_prefilledAt_le msg) small (by simp)
      (by rw [zero_add]; rfl) nodup assigned
    simp only [zero_add] at inOrder
    have listed : ∀ id p, shorttxids id = some p → id ∈ msg.shorttxids := by
      intro id p get
      by_contra unknown
      rw [unlisted id unknown] at get
      cases get
    have apart : ∀ id p, shorttxids id = some p → ¬ msg.prefilledAt p := by
      intro id p get
      obtain ⟨i, hi⟩ := List.mem_iff_getElem?.mp (listed id p get)
      obtain ⟨p', get', -, free, -⟩ := inOrder i id hi
      obtain rfl := Option.some.inj (get.symm.trans get')
      exact free
    have start : Filled env shorttxids msg.prefilledAt placed placed :=
      ⟨fun _ _ => rfl, fun p tx get => Or.inl ((isFilled p).mp (by simp [filled, get]))⟩
    have result := filling msg.prefilledAt apart start
    refine ⟨fun entry mem => ?_, inOrder, fun p hp free => ?_, fun p tx get => ?_⟩
    · rw [result.kept _ (List.mem_map_of_mem mem)]
      exact (entries entry mem).2.2
    · have left := count_not_add_count (P := msg.prefilledAt) msg.blockTxCount
      rw [count_prefilledAt_eq inside] at left
      have below := Nat.count_monotone (fun q => ¬ msg.prefilledAt q) (Nat.succ_le_of_lt hp)
      rw [Nat.count_succ, if_pos free] at below
      have lt : Nat.count (fun q => ¬ msg.prefilledAt q) p < msg.shorttxids.length := by
        rw [Message.blockTxCount] at left below
        omega
      obtain ⟨p', get, -, free', count⟩ := inOrder _ _ (List.getElem?_eq_getElem lt)
      obtain rfl := Nat.count_injective free' free count
      exact ⟨_, List.getElem_mem lt, get⟩
    · exact (result.matching p tx get).imp_right fun h => ⟨listed _ _ h, h⟩

end

/-! ### Two messages -/

def toyEnv : Env ℕ := ⟨fun _ => false, id, fun a b => a == b, fun _ _ => false⟩

def toyMessage : Message ℕ := ⟨false, [7], [(0, 1)]⟩

theorem initData_placed_small :
    toyMessage.Placed toyEnv [some 1, some 7] (Function.update (fun _ => none) 7 (some 1)) :=
  (initData_placed_iff toyEnv 2 toyMessage [5, 7] [] _ _ rfl).mpr (by decide)

theorem assignIds_unfilled (n : ℕ) (ids seen : List ℕ) (i : ℕ) (m : ℕ → Option ℕ) :
    ∃ m', assignIds toyEnv (List.replicate n none) 1 ids seen i 0 m = some (.ok m') := by
  induction ids generalizing seen i m with
  | nil => exact ⟨m, rfl⟩
  | cons id ids ih =>
    have free : filled (List.replicate n (none : Option ℕ)) (i + 0) = false := by
      rw [filled, List.getElem?_replicate]
      split <;> rfl
    rw [assignIds, skipFilled, free]
    exact ih _ _ _

theorem initData_tooMany (many : 65536 < ids.length) (nodup : ids.Nodup)
    (few : ids.length ≤ MAX_BLOCK_SIZE / MIN_TRANSACTION_SIZE) : ∃ available shorttxids,
    initData toyEnv 1 ⟨false, ids, []⟩ [] [] = some (.ok (available, shorttxids)) ∧
      ¬ Message.Placed ⟨false, ids, []⟩ toyEnv available shorttxids := by
  have nonempty := List.ne_nil_of_length_pos (Nat.zero_lt_of_lt many)
  obtain ⟨m, assigned⟩ := assignIds_unfilled ids.length ids [] 0 fun _ => none
  refine ⟨List.replicate ids.length none, m, ?_, fun result => ?_⟩
  · simp [initData, Message.blockTxCount, nonempty, few, placePrefilled, assigned, nodup, fill]
  · obtain ⟨id, -, get⟩ := result.allAssigned 65536 many List.not_mem_nil
    exact absurd (assignIds_small (by simp) assigned id _ get) (lt_irrefl _)

/-- One transaction more than 16 bits can number. -/
theorem initData_largeMessage : ∃ available shorttxids,
    initData toyEnv 1 ⟨false, List.range 65537, []⟩ [] [] = some (.ok (available, shorttxids)) ∧
      ¬ Message.Placed ⟨false, List.range 65537, []⟩ toyEnv available shorttxids := by
  have length : (List.range 65537).length = 65537 := List.length_range
  refine initData_tooMany ?_ List.nodup_range ?_
  · rw [length]
    decide
  · rw [length]
    decide

end ButCore.CompactBlock
