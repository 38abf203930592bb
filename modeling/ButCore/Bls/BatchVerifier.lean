import Mathlib.Data.Finset.Basic
import ButCore.Lib.MultiMap

/-!
# Batched BLS verification

BLS verification is an arbitrary predicate on one signature, key and hash. An aggregate is the
list of the messages aggregated into it, and it verifies exactly when each of them does.
-/
namespace ButCore.Bls

variable {Source MessageId Hash Sig PubKey : Type}

/-- `CBLSSignature::VerifyInsecure` as a predicate. -/
structure Scheme (Hash Sig PubKey : Type) where
  verifyInsecure : Sig → PubKey → Hash → Bool

structure Message (MessageId Hash Sig PubKey : Type) where
  msgId : MessageId
  msgHash : Hash
  sig : Sig
  pubKey : PubKey
  deriving DecidableEq

namespace Scheme

variable (bls : Scheme Hash Sig PubKey)

def validMessage (m : Message MessageId Hash Sig PubKey) : Bool :=
  bls.verifyInsecure m.sig m.pubKey m.msgHash

/-- `VerifyInsecureAggregated` on the aggregate of `members`. -/
def verifyInsecureAggregated (members : List (Message MessageId Hash Sig PubKey)) : Bool :=
  members.all bls.validMessage

end Scheme

def dropDups [DecidableEq MessageId] (dups : Finset MessageId) :
    List (Message MessageId Hash Sig PubKey) → List (Message MessageId Hash Sig PubKey)
  | [] => []
  | m :: ms =>
    if m.msgId ∈ dups then dropDups dups ms else m :: dropDups (insert m.msgId dups) ms

variable {ms : List (Message MessageId Hash Sig PubKey)} {m : Message MessageId Hash Sig PubKey}
variable {dups : Finset MessageId}

theorem mem_of_mem_dropDups [DecidableEq MessageId] (h : m ∈ dropDups dups ms) : m ∈ ms := by
  induction ms generalizing dups with
  | nil => exact h
  | cons a ms ih =>
    rw [dropDups] at h
    split_ifs at h with hdup
    · exact List.mem_cons_of_mem _ (ih h)
    · rcases List.mem_cons.mp h with rfl | h
      · exact List.mem_cons_self
      · exact List.mem_cons_of_mem _ (ih h)

theorem exists_mem_dropDups [DecidableEq MessageId] (h : m ∈ ms) (hfresh : m.msgId ∉ dups) : ∃ m' ∈ dropDups dups ms, m'.msgId = m.msgId := by
  induction ms generalizing dups with
  | nil => exact absurd h List.not_mem_nil
  | cons a ms ih =>
    rw [dropDups]
    split_ifs with hdup
    · rcases List.mem_cons.mp h with rfl | h
      · exact absurd hdup hfresh
      · exact ih h hfresh
    · by_cases hid : a.msgId = m.msgId
      · exact ⟨a, List.mem_cons_self, hid⟩
      · rcases List.mem_cons.mp h with rfl | h
        · exact absurd rfl hid
        · have hfresh' : m.msgId ∉ insert a.msgId dups := by
            rw [Finset.mem_insert, not_or]
            exact ⟨fun heq => hid heq.symm, hfresh⟩
          obtain ⟨m', hm', heq⟩ := ih h hfresh'
          exact ⟨m', List.mem_cons_of_mem _ hm', heq⟩

def IdsUnique (ms : List (Message MessageId Hash Sig PubKey)) : Prop :=
  ∀ m ∈ ms, ∀ m' ∈ ms, m.msgId = m'.msgId → m = m'

section

variable [DecidableEq MessageId] (bls : Scheme Hash Sig PubKey)

abbrev ByMessageHash (MessageId Hash Sig PubKey : Type) :=
  List (Hash × List (Message MessageId Hash Sig PubKey))

def verifyBatchInsecure (byMessageHash : ByMessageHash MessageId Hash Sig PubKey) : Bool :=
  let aggregated := dropDups ∅ (byMessageHash.flatMap Prod.snd)
  if aggregated.isEmpty then true else bls.verifyInsecureAggregated aggregated

/-- One pass of the secure form takes the last message of every group. -/
def secureStepMessages (byMessageHash : ByMessageHash MessageId Hash Sig PubKey) :
    List (Message MessageId Hash Sig PubKey) :=
  byMessageHash.filterMap fun p => p.2.getLast?

def secureStepRest (byMessageHash : ByMessageHash MessageId Hash Sig PubKey) :
    ByMessageHash MessageId Hash Sig PubKey :=
  (byMessageHash.map fun p => (p.1, p.2.dropLast)).filter fun p => !p.2.isEmpty

def verifyBatchSecureStep (byMessageHash : ByMessageHash MessageId Hash Sig PubKey) : Bool :=
  bls.verifyInsecureAggregated (dropDups ∅ (secureStepMessages byMessageHash))

/-- The passes of the secure form; `fuel` bounds the longest group. -/
def verifyBatchSecure : ℕ → ByMessageHash MessageId Hash Sig PubKey → Bool
  | 0, _ => true
  | fuel + 1, byMessageHash =>
    if byMessageHash.isEmpty then true
    else verifyBatchSecureStep bls byMessageHash &&
      verifyBatchSecure fuel (secureStepRest byMessageHash)

def verifyBatch [DecidableEq Hash] (secureVerification : Bool)
    (msgs : List (Message MessageId Hash Sig PubKey)) : Bool :=
  let byMessageHash := MultiMap.groupBy Message.msgHash msgs
  if secureVerification then verifyBatchSecure bls msgs.length byMessageHash
  else verifyBatchInsecure bls byMessageHash

variable {bls : Scheme Hash Sig PubKey}

theorem verify_dropDups_iff (h : IdsUnique ms) :
    bls.verifyInsecureAggregated (dropDups ∅ ms) = true ↔
      ∀ m ∈ ms, bls.validMessage m = true := by
  rw [Scheme.verifyInsecureAggregated, List.all_eq_true]
  constructor
  · intro hall m hm
    obtain ⟨m', hm', hid⟩ := exists_mem_dropDups hm (Finset.notMem_empty m.msgId)
    have heq := h m' (mem_of_mem_dropDups hm') m hm hid
    exact heq ▸ hall m' hm'
  · intro hall m hm
    exact hall m (mem_of_mem_dropDups hm)

variable {groups : ByMessageHash MessageId Hash Sig PubKey}

theorem verifyBatchInsecure_iff (h : IdsUnique (groups.flatMap Prod.snd)) :
    verifyBatchInsecure bls groups = true ↔
      ∀ m ∈ groups.flatMap Prod.snd, bls.validMessage m = true := by
  rw [← verify_dropDups_iff h, verifyBatchInsecure]
  split_ifs with hempty
  · rw [List.isEmpty_iff.mp hempty]
    exact iff_of_true rfl rfl
  · exact Iff.rfl

omit [DecidableEq MessageId] in
theorem mem_secureStep_iff (groups : ByMessageHash MessageId Hash Sig PubKey)
    (m : Message MessageId Hash Sig PubKey) :
    m ∈ groups.flatMap Prod.snd ↔
      m ∈ secureStepMessages groups ∨ m ∈ (secureStepRest groups).flatMap Prod.snd := by
  simp only [secureStepMessages, secureStepRest, List.mem_flatMap, List.mem_filterMap,
    List.mem_filter, List.mem_map]
  constructor
  · rintro ⟨p, hp, hm⟩
    rcases List.eq_nil_or_concat' p.2 with hnil | ⟨init, last, hcat⟩
    · rw [hnil] at hm
      exact absurd hm List.not_mem_nil
    · rw [hcat, List.mem_append, List.mem_singleton] at hm
      rcases hm with hinit | rfl
      · have hdrop : p.2.dropLast = init := by rw [hcat, List.dropLast_concat]
        refine Or.inr ⟨(p.1, init), ⟨⟨p, hp, by rw [hdrop]⟩, ?_⟩, hinit⟩
        simp [List.ne_nil_of_mem hinit]
      · exact Or.inl ⟨p, hp, by rw [hcat, List.getLast?_concat]⟩
  · rintro (⟨p, hp, hlast⟩ | ⟨q, ⟨⟨p, hp, rfl⟩, -⟩, hm⟩)
    · exact ⟨p, hp, List.mem_of_getLast? hlast⟩
    · exact ⟨p, hp, List.dropLast_subset _ hm⟩

theorem verifyBatchSecure_iff (fuel : ℕ) (h : IdsUnique (groups.flatMap Prod.snd))
    (hfuel : ∀ p ∈ groups, p.2.length ≤ fuel) (hne : ∀ p ∈ groups, p.2 ≠ []) :
    verifyBatchSecure bls fuel groups = true ↔
      ∀ m ∈ groups.flatMap Prod.snd, bls.validMessage m = true := by
  induction fuel generalizing groups with
  | zero =>
    have hnil : groups = [] := by
      refine List.eq_nil_iff_forall_not_mem.mpr fun p hp => hne p hp ?_
      exact List.length_eq_zero_iff.mp (Nat.le_zero.mp (hfuel p hp))
    subst hnil
    exact iff_of_true rfl fun m hm => absurd hm List.not_mem_nil
  | succ fuel ih =>
    by_cases hempty : groups = []
    · subst hempty
      exact iff_of_true rfl fun m hm => absurd hm List.not_mem_nil
    · have hstep : IdsUnique (secureStepMessages groups) := fun m hm m' hm' =>
        h m ((mem_secureStep_iff groups m).mpr (Or.inl hm)) m'
          ((mem_secureStep_iff groups m').mpr (Or.inl hm'))
      have hrest : IdsUnique ((secureStepRest groups).flatMap Prod.snd) := fun m hm m' hm' =>
        h m ((mem_secureStep_iff groups m).mpr (Or.inr hm)) m'
          ((mem_secureStep_iff groups m').mpr (Or.inr hm'))
      have hshort : ∀ p ∈ secureStepRest groups, p.2.length ≤ fuel := by
        intro p hp
        obtain ⟨hp, -⟩ := List.mem_filter.mp hp
        obtain ⟨q, hq, rfl⟩ := List.mem_map.mp hp
        have hle := hfuel q hq
        rw [List.length_dropLast]
        omega
      have hfull : ∀ p ∈ secureStepRest groups, p.2 ≠ [] := by
        intro p hp
        simpa using (List.mem_filter.mp hp).2
      rw [verifyBatchSecure, if_neg (by simpa using hempty), Bool.and_eq_true,
        verifyBatchSecureStep, verify_dropDups_iff hstep, ih hrest hshort hfull]
      simp only [mem_secureStep_iff groups, or_imp, forall_and]

theorem verifyBatch_iff [DecidableEq Hash] (secureVerification : Bool)
    {msgs : List (Message MessageId Hash Sig PubKey)} (h : IdsUnique msgs) :
    verifyBatch bls secureVerification msgs = true ↔ ∀ m ∈ msgs, bls.validMessage m = true := by
  have hperm := MultiMap.values_groupBy_perm Message.msgHash msgs
  have hids : IdsUnique ((MultiMap.groupBy Message.msgHash msgs).flatMap Prod.snd) :=
    fun m hm m' hm' => h m (hperm.mem_iff.mp hm) m' (hperm.mem_iff.mp hm')
  have hmem : (∀ m ∈ (MultiMap.groupBy Message.msgHash msgs).flatMap Prod.snd,
      bls.validMessage m = true) ↔ ∀ m ∈ msgs, bls.validMessage m = true :=
    forall_congr' fun m => imp_congr_left hperm.mem_iff
  rw [← hmem, verifyBatch]
  cases secureVerification with
  | true =>
    refine verifyBatchSecure_iff msgs.length hids ?_ (MultiMap.groupBy_ne_nil _ msgs)
    intro p hp
    exact hperm.length_eq ▸ MultiMap.group_length_le hp
  | false => exact verifyBatchInsecure_iff hids

end

/-- The verifier with its collected messages and the verdicts reached so far. Iterators into the
message map are the messages themselves. -/
structure BatchVerifier (Source MessageId Hash Sig PubKey : Type) where
  secureVerification : Bool
  perMessageFallback : Bool
  subBatchSize : ℕ
  messages : List (Message MessageId Hash Sig PubKey)
  messagesBySource : List (Source × List (Message MessageId Hash Sig PubKey))
  badSources : Finset Source
  badMessages : Finset MessageId

namespace BatchVerifier

variable [DecidableEq Source] [DecidableEq MessageId] [DecidableEq Hash]
variable (bls : Scheme Hash Sig PubKey)

def new (secureVerification perMessageFallback : Bool) (subBatchSize : ℕ) :
    BatchVerifier Source MessageId Hash Sig PubKey where
  secureVerification := secureVerification
  perMessageFallback := perMessageFallback
  subBatchSize := subBatchSize
  messages := []
  messagesBySource := []
  badSources := ∅
  badMessages := ∅

def clearMessages (v : BatchVerifier Source MessageId Hash Sig PubKey) :
    BatchVerifier Source MessageId Hash Sig PubKey :=
  { v with messages := [], messagesBySource := [] }

/-- The verdict on one source. With a single source the failed full batch decides. -/
def sourceBatchValid (v : BatchVerifier Source MessageId Hash Sig PubKey)
    (p : Source × List (Message MessageId Hash Sig PubKey)) : Bool :=
  if v.messagesBySource.length ≠ 1 then verifyBatch bls v.secureVerification p.2 else false

def verifyEach (badMessages : Finset MessageId) :
    List (Message MessageId Hash Sig PubKey) → Finset MessageId
  | [] => badMessages
  | m :: ms =>
    if m.msgId ∈ badMessages then verifyEach badMessages ms
    else if bls.validMessage m then verifyEach badMessages ms
    else verifyEach (insert m.msgId badMessages) ms

/-- The per-message fallback; a single message of a bad source is not verified again. -/
def perMessageVerdicts (badMessages : Finset MessageId)
    (msgs : List (Message MessageId Hash Sig PubKey)) : Finset MessageId :=
  match msgs with
  | [m] => insert m.msgId badMessages
  | ms => verifyEach bls badMessages ms

def markSource (v : BatchVerifier Source MessageId Hash Sig PubKey)
    (p : Source × List (Message MessageId Hash Sig PubKey)) :
    BatchVerifier Source MessageId Hash Sig PubKey :=
  { v with
    badSources := insert p.1 v.badSources
    badMessages :=
      if v.perMessageFallback then perMessageVerdicts bls v.badMessages p.2 else v.badMessages }

def verify (v : BatchVerifier Source MessageId Hash Sig PubKey) :
    BatchVerifier Source MessageId Hash Sig PubKey :=
  if verifyBatch bls v.secureVerification v.messages then v
  else v.messagesBySource.foldl
    (fun acc p => if v.sourceBatchValid bls p then acc else acc.markSource bls p) v

def enterMessage (v : BatchVerifier Source MessageId Hash Sig PubKey) (sourceId : Source)
    (msg : Message MessageId Hash Sig PubKey) : BatchVerifier Source MessageId Hash Sig PubKey :=
  match v.messages.find? (fun m => m.msgId = msg.msgId) with
  | some entry => { v with messagesBySource := MultiMap.push sourceId entry v.messagesBySource }
  | none =>
    { v with
      messages := v.messages ++ [msg]
      messagesBySource := MultiMap.push sourceId msg v.messagesBySource }

def pushMessage (v : BatchVerifier Source MessageId Hash Sig PubKey) (sourceId : Source)
    (msg : Message MessageId Hash Sig PubKey) : BatchVerifier Source MessageId Hash Sig PubKey :=
  let v := v.enterMessage sourceId msg
  if v.subBatchSize ≠ 0 ∧ v.subBatchSize ≤ v.messages.length then
    (v.verify bls).clearMessages
  else v

/-- Messages and sources refer to each other, and an id stands for one message. -/
structure WF (v : BatchVerifier Source MessageId Hash Sig PubKey) : Prop where
  ids : IdsUnique v.messages
  covered : ∀ m ∈ v.messages, ∃ src, MultiMap.Mem v.messagesBySource src m
  known : ∀ src m, MultiMap.Mem v.messagesBySource src m → m ∈ v.messages

variable {bls} {v : BatchVerifier Source MessageId Hash Sig PubKey}

omit [DecidableEq Hash] in
theorem mem_verifyEach (bad : Finset MessageId) (ms : List (Message MessageId Hash Sig PubKey))
    (id : MessageId) :
    id ∈ verifyEach bls bad ms ↔
      id ∈ bad ∨ ∃ m ∈ ms, m.msgId = id ∧ bls.validMessage m = false := by
  induction ms generalizing bad with
  | nil => simp [verifyEach]
  | cons a ms ih =>
    rw [verifyEach, List.exists_mem_cons_iff]
    split_ifs with hbad hvalid
    · rw [ih]
      constructor
      · rintro (h | h)
        · exact Or.inl h
        · exact Or.inr (Or.inr h)
      · rintro (h | ⟨rfl, -⟩ | h)
        · exact Or.inl h
        · exact Or.inl hbad
        · exact Or.inr h
    · rw [ih, hvalid]
      simp
    · rw [ih, Finset.mem_insert, Bool.eq_false_iff.mpr hvalid]
      constructor
      · rintro ((rfl | h) | h)
        · exact Or.inr (Or.inl ⟨rfl, rfl⟩)
        · exact Or.inl h
        · exact Or.inr (Or.inr h)
      · rintro (h | ⟨rfl, -⟩ | h)
        · exact Or.inl (Or.inr h)
        · exact Or.inl (Or.inl rfl)
        · exact Or.inr h

omit [DecidableEq Hash] in
theorem mem_perMessageVerdicts (bad : Finset MessageId)
    (hinvalid : ∃ m ∈ ms, bls.validMessage m = false) (id : MessageId) :
    id ∈ perMessageVerdicts bls bad ms ↔
      id ∈ bad ∨ ∃ m ∈ ms, m.msgId = id ∧ bls.validMessage m = false := by
  unfold perMessageVerdicts
  split
  · obtain ⟨m', hm', hfalse⟩ := hinvalid
    rw [List.mem_singleton] at hm'
    subst hm'
    rw [Finset.mem_insert]
    constructor
    · rintro (rfl | h)
      · exact Or.inr ⟨m', List.mem_singleton_self m', rfl, hfalse⟩
      · exact Or.inl h
    · rintro (h | ⟨m, hm, rfl, -⟩)
      · exact Or.inr h
      · exact Or.inl (congrArg Message.msgId (List.mem_singleton.mp hm))
  · exact mem_verifyEach bad ms id

omit [DecidableEq Source] in
/-- After a failed full batch the verdict on a source is right, also in the single-source
shortcut: there the invalid message has no other source. -/
theorem sourceBatchValid_eq_false_iff (h : v.WF)
    (hfail : ¬ ∀ m ∈ v.messages, bls.validMessage m = true)
    {p : Source × List (Message MessageId Hash Sig PubKey)} (hp : p ∈ v.messagesBySource) :
    v.sourceBatchValid bls p = false ↔ ∃ m ∈ p.2, bls.validMessage m = false := by
  have hknown : ∀ m ∈ p.2, m ∈ v.messages := fun m hm => h.known p.1 m ⟨p.2, hp, hm⟩
  rw [sourceBatchValid]
  split_ifs with hsingle
  · have hids : IdsUnique p.2 := fun m hm m' hm' => h.ids m (hknown m hm) m' (hknown m' hm')
    rw [← Bool.not_eq_true, verifyBatch_iff v.secureVerification hids]
    simp
  · refine iff_of_true rfl ?_
    push Not at hfail hsingle
    obtain ⟨m, hm, hinvalid⟩ := hfail
    obtain ⟨src, its, hits, hmem⟩ := h.covered m hm
    obtain ⟨q, hq⟩ := List.length_eq_one_iff.mp hsingle
    rw [hq, List.mem_singleton] at hp hits
    rw [hp, ← hits]
    exact ⟨m, hmem, Bool.eq_false_iff.mpr hinvalid⟩

section

variable (valid : Source × List (Message MessageId Hash Sig PubKey) → Bool)

omit [DecidableEq Hash] in
theorem mem_badSources_foldl (L : List (Source × List (Message MessageId Hash Sig PubKey)))
    (acc : BatchVerifier Source MessageId Hash Sig PubKey) (n : Source) :
    n ∈ (L.foldl (fun acc p => if valid p then acc else acc.markSource bls p) acc).badSources ↔
      n ∈ acc.badSources ∨ ∃ p ∈ L, p.1 = n ∧ valid p = false := by
  induction L generalizing acc with
  | nil => simp
  | cons p L ih =>
    rw [List.foldl_cons, ih, List.exists_mem_cons_iff]
    cases hvalid : valid p with
    | true => simp
    | false =>
      simp only [Bool.false_eq_true, if_false, markSource, Finset.mem_insert]
      tauto

omit [DecidableEq Hash] in
theorem mem_badMessages_foldl (L : List (Source × List (Message MessageId Hash Sig PubKey)))
    (hL : ∀ p ∈ L, valid p = false → ∃ m ∈ p.2, bls.validMessage m = false)
    (acc : BatchVerifier Source MessageId Hash Sig PubKey) (hf : acc.perMessageFallback = true)
    (id : MessageId) :
    id ∈ (L.foldl (fun acc p => if valid p then acc else acc.markSource bls p) acc).badMessages ↔
      id ∈ acc.badMessages ∨
        ∃ p ∈ L, valid p = false ∧ ∃ m ∈ p.2, m.msgId = id ∧ bls.validMessage m = false := by
  induction L generalizing acc with
  | nil => simp
  | cons p L ih =>
    have hrest := fun q hq => hL q (List.mem_cons_of_mem _ hq)
    rw [List.foldl_cons, List.exists_mem_cons_iff]
    cases hvalid : valid p with
    | true =>
      rw [if_pos rfl, ih hrest acc hf]
      simp
    | false =>
      have hp := hL p List.mem_cons_self hvalid
      rw [if_neg Bool.false_ne_true, ih hrest (acc.markSource bls p) hf]
      simp only [markSource, hf, if_true, mem_perMessageVerdicts acc.badMessages hp, true_and,
        or_assoc]

omit [DecidableEq Hash] in
theorem foldl_markSource_frame (L : List (Source × List (Message MessageId Hash Sig PubKey)))
    (acc : BatchVerifier Source MessageId Hash Sig PubKey) :
    ∃ bs bm, L.foldl (fun acc p => if valid p then acc else acc.markSource bls p) acc =
      { acc with badSources := bs, badMessages := bm } := by
  induction L generalizing acc with
  | nil => exact ⟨acc.badSources, acc.badMessages, rfl⟩
  | cons p L ih =>
    rw [List.foldl_cons]
    split_ifs
    · exact ih acc
    · obtain ⟨bs, bm, heq⟩ := ih (acc.markSource bls p)
      exact ⟨bs, bm, heq⟩

end

variable (bls) in
theorem verify_frame (v : BatchVerifier Source MessageId Hash Sig PubKey) :
    ∃ bs bm, v.verify bls = { v with badSources := bs, badMessages := bm } := by
  rw [verify]
  split_ifs
  · exact ⟨v.badSources, v.badMessages, rfl⟩
  · exact foldl_markSource_frame _ _ v

theorem mem_badSources_verify (h : v.WF) (n : Source) :
    n ∈ (v.verify bls).badSources ↔
      n ∈ v.badSources ∨
        ∃ m, MultiMap.Mem v.messagesBySource n m ∧ bls.validMessage m = false := by
  rw [verify]
  split_ifs with hbatch
  · rw [verifyBatch_iff _ h.ids] at hbatch
    refine (or_iff_left ?_).symm
    rintro ⟨m, hmem, hfalse⟩
    rw [hbatch m (h.known n m hmem)] at hfalse
    cases hfalse
  · rw [verifyBatch_iff _ h.ids] at hbatch
    rw [mem_badSources_foldl]
    refine or_congr_right ⟨?_, ?_⟩
    · rintro ⟨p, hp, rfl, hvalid⟩
      obtain ⟨m, hm, hfalse⟩ := (sourceBatchValid_eq_false_iff h hbatch hp).mp hvalid
      exact ⟨m, ⟨p.2, hp, hm⟩, hfalse⟩
    · rintro ⟨m, ⟨its, hp, hm⟩, hfalse⟩
      exact ⟨(n, its), hp, rfl, (sourceBatchValid_eq_false_iff h hbatch hp).mpr ⟨m, hm, hfalse⟩⟩

variable (bls) in
def Condemned (v : BatchVerifier Source MessageId Hash Sig PubKey) (id : MessageId) : Prop :=
  id ∈ v.badMessages ∨ ∃ m ∈ v.messages, m.msgId = id ∧ bls.validMessage m = false

theorem mem_badMessages_verify (h : v.WF) (hf : v.perMessageFallback = true) (id : MessageId) :
    id ∈ (v.verify bls).badMessages ↔ v.Condemned bls id := by
  rw [verify, Condemned]
  split_ifs with hbatch
  · rw [verifyBatch_iff _ h.ids] at hbatch
    refine (or_iff_left ?_).symm
    rintro ⟨m, hmem, -, hfalse⟩
    rw [hbatch m hmem] at hfalse
    cases hfalse
  · rw [verifyBatch_iff _ h.ids] at hbatch
    rw [mem_badMessages_foldl _ _
      (fun p hp => (sourceBatchValid_eq_false_iff h hbatch hp).mp) v hf]
    refine or_congr_right ⟨?_, ?_⟩
    · rintro ⟨p, hp, -, m, hm, hid, hfalse⟩
      exact ⟨m, h.known p.1 m ⟨p.2, hp, hm⟩, hid, hfalse⟩
    · rintro ⟨m, hmem, hid, hfalse⟩
      obtain ⟨src, its, hp, hm⟩ := h.covered m hmem
      exact ⟨(src, its), hp, (sourceBatchValid_eq_false_iff h hbatch hp).mpr ⟨m, hm, hfalse⟩,
        m, hm, hid, hfalse⟩

/-! ### Pushing messages -/

omit [DecidableEq Source] [DecidableEq MessageId] [DecidableEq Hash] in
theorem wf_of_empty (hmessages : v.messages = []) (hsources : v.messagesBySource = []) : v.WF := by
  refine ⟨?_, ?_, ?_⟩
  · rw [hmessages]
    exact fun _ hm => absurd hm List.not_mem_nil
  · rw [hmessages]
    exact fun _ hm => absurd hm List.not_mem_nil
  · rw [hsources]
    exact fun src m hm => absurd hm (MultiMap.not_mem_nil src m)

omit [DecidableEq Hash] in
theorem WF.enterMessage (h : v.WF) (sourceId : Source)
    (msg : Message MessageId Hash Sig PubKey) : (v.enterMessage sourceId msg).WF := by
  unfold BatchVerifier.enterMessage
  split
  · rename_i entry hfind
    have hentry := List.mem_of_find?_eq_some hfind
    refine ⟨h.ids, fun m hm => ?_, fun src m hm => ?_⟩
    · obtain ⟨src, hmem⟩ := h.covered m hm
      exact ⟨src, (MultiMap.mem_push ..).mpr (Or.inl hmem)⟩
    · rcases (MultiMap.mem_push ..).mp hm with hmem | ⟨-, rfl⟩
      · exact h.known src m hmem
      · exact hentry
  · rename_i hfind
    have hfresh : ∀ m ∈ v.messages, m.msgId ≠ msg.msgId := by
      simpa using List.find?_eq_none.mp hfind
    refine ⟨fun m hm m' hm' hid => ?_, fun m hm => ?_, fun src m hm => ?_⟩
    · rw [List.mem_append, List.mem_singleton] at hm hm'
      rcases hm with hm | rfl <;> rcases hm' with hm' | rfl
      · exact h.ids m hm m' hm' hid
      · exact absurd hid (hfresh m hm)
      · exact absurd hid.symm (hfresh m' hm')
      · rfl
    · rw [List.mem_append, List.mem_singleton] at hm
      rcases hm with hm | rfl
      · obtain ⟨src, hmem⟩ := h.covered m hm
        exact ⟨src, (MultiMap.mem_push ..).mpr (Or.inl hmem)⟩
      · exact ⟨sourceId, (MultiMap.mem_push ..).mpr (Or.inr ⟨rfl, rfl⟩)⟩
    · rw [List.mem_append, List.mem_singleton]
      rcases (MultiMap.mem_push ..).mp hm with hmem | ⟨-, rfl⟩
      · exact Or.inl (h.known src m hmem)
      · exact Or.inr rfl

theorem WF.pushMessage (h : v.WF) (sourceId : Source)
    (msg : Message MessageId Hash Sig PubKey) : (v.pushMessage bls sourceId msg).WF := by
  unfold BatchVerifier.pushMessage
  dsimp only
  split_ifs
  · exact wf_of_empty rfl rfl
  · exact h.enterMessage sourceId msg

/-! ### Pushing without sub-batches -/

variable (bls) in
def pushAll (v : BatchVerifier Source MessageId Hash Sig PubKey)
    (pushes : List (Source × Message MessageId Hash Sig PubKey)) :
    BatchVerifier Source MessageId Hash Sig PubKey :=
  pushes.foldl (fun v p => v.pushMessage bls p.1 p.2) v

def firstMessage (pushes : List (Source × Message MessageId Hash Sig PubKey)) (id : MessageId) :
    Option (Message MessageId Hash Sig PubKey) :=
  (pushes.map Prod.snd).find? fun m => m.msgId = id

omit [DecidableEq Source] [DecidableEq Hash] in
theorem firstMessage_snoc (pushes : List (Source × Message MessageId Hash Sig PubKey))
    (p : Source × Message MessageId Hash Sig PubKey) (id : MessageId) :
    firstMessage (pushes ++ [p]) id =
      (firstMessage pushes id).or (if p.2.msgId = id then some p.2 else none) := by
  rw [firstMessage, List.map_append, List.find?_append, List.map_singleton, List.find?_singleton]
  simp only [decide_eq_true_eq]
  rfl

variable {pushes : List (Source × Message MessageId Hash Sig PubKey)}

omit [DecidableEq Source] [DecidableEq Hash] in
theorem firstMessage_snoc_of_mem {q : Source × Message MessageId Hash Sig PubKey} (hq : q ∈ pushes)
    (p : Source × Message MessageId Hash Sig PubKey) :
    firstMessage (pushes ++ [p]) q.2.msgId = firstMessage pushes q.2.msgId := by
  have hsome : (firstMessage pushes q.2.msgId).isSome = true := by
    rw [firstMessage, List.find?_isSome]
    exact ⟨q.2, List.mem_map_of_mem hq, by simp⟩
  obtain ⟨m, hm⟩ := Option.isSome_iff_exists.mp hsome
  rw [firstMessage_snoc, hm, Option.some_or]

variable (bls) in
theorem pushMessage_of_no_subBatch (h : v.subBatchSize = 0) (sourceId : Source)
    (msg : Message MessageId Hash Sig PubKey) :
    v.pushMessage bls sourceId msg = v.enterMessage sourceId msg := by
  have hsize : (v.enterMessage sourceId msg).subBatchSize = 0 := by
    rw [enterMessage]
    split <;> exact h
  rw [pushMessage, hsize]
  exact if_neg fun hne => hne.1 rfl

variable (bls) in
/-- Without sub-batches the verifier holds the first message of each id, and each source refers
to the entries of its own ids. -/
theorem pushAll_spec (secureVerification perMessageFallback : Bool)
    (pushes : List (Source × Message MessageId Hash Sig PubKey)) :
    ∃ messages bySource,
      (new secureVerification perMessageFallback 0).pushAll bls pushes =
        { (new secureVerification perMessageFallback 0 :
            BatchVerifier Source MessageId Hash Sig PubKey) with
          messages := messages
          messagesBySource := bySource } ∧
      (∀ id, messages.find? (fun m => m.msgId = id) = firstMessage pushes id) ∧
      ∀ n m, MultiMap.Mem bySource n m ↔
        ∃ p ∈ pushes, p.1 = n ∧ firstMessage pushes p.2.msgId = some m := by
  induction pushes using List.reverseRecOn with
  | nil => exact ⟨[], [], rfl, fun _ => rfl, fun n m => by simp⟩
  | append_singleton pushes p ih =>
    obtain ⟨messages, bySource, heq, hfirst, hsource⟩ := ih
    have hself := firstMessage_snoc pushes p p.2.msgId
    rw [if_pos rfl] at hself
    have hmem : ∀ n m, (MultiMap.Mem bySource n m ∨
        n = p.1 ∧ some m = firstMessage (pushes ++ [p]) p.2.msgId) ↔
        ∃ q ∈ pushes ++ [p], q.1 = n ∧ firstMessage (pushes ++ [p]) q.2.msgId = some m := by
      intro n m
      rw [hsource]
      constructor
      · rintro (⟨q, hq, hn, hm⟩ | ⟨rfl, hm⟩)
        · exact ⟨q, List.mem_append_left _ hq, hn, (firstMessage_snoc_of_mem hq p).trans hm⟩
        · exact ⟨p, List.mem_append_right _ (List.mem_singleton_self p), rfl, hm.symm⟩
      · rintro ⟨q, hq, hn, hm⟩
        rcases List.mem_append.mp hq with hq | hq
        · exact Or.inl ⟨q, hq, hn, (firstMessage_snoc_of_mem hq p).symm.trans hm⟩
        · rw [List.mem_singleton.mp hq] at hn hm
          exact Or.inr ⟨hn.symm, hm.symm⟩
    have hpush : (new secureVerification perMessageFallback 0).pushAll bls (pushes ++ [p]) =
        ((new secureVerification perMessageFallback 0).pushAll bls pushes).enterMessage p.1 p.2 := by
      rw [pushAll, List.foldl_append, List.foldl_cons, List.foldl_nil]
      refine pushMessage_of_no_subBatch bls ?_ p.1 p.2
      exact congrArg BatchVerifier.subBatchSize heq
    rw [hpush, heq, enterMessage]
    dsimp only
    rw [hfirst]
    cases hentry : firstMessage pushes p.2.msgId with
    | some entry =>
      rw [hentry, Option.some_or] at hself
      refine ⟨messages, MultiMap.push p.1 entry bySource, rfl, fun id => ?_, fun n m => ?_⟩
      · rw [hfirst, firstMessage_snoc]
        split_ifs with hid
        · rw [← hid, hentry, Option.some_or]
        · rw [Option.or_none]
      · rw [MultiMap.mem_push, ← hmem, hself, Option.some.injEq]
    | none =>
      rw [hentry, Option.none_or] at hself
      refine ⟨messages ++ [p.2], MultiMap.push p.1 p.2 bySource, rfl, fun id => ?_, fun n m => ?_⟩
      · rw [List.find?_append, hfirst, firstMessage_snoc, List.find?_singleton]
        simp only [decide_eq_true_eq]
      · rw [MultiMap.mem_push, ← hmem, hself, Option.some.injEq]

theorem WF.pushAll (h : v.WF) (pushes : List (Source × Message MessageId Hash Sig PubKey)) :
    (v.pushAll bls pushes).WF := by
  induction pushes generalizing v with
  | nil => exact h
  | cons p pushes ih => exact ih (h.pushMessage p.1 p.2)

variable (bls) in
theorem mem_badSources_pushAll (secureVerification perMessageFallback : Bool)
    (pushes : List (Source × Message MessageId Hash Sig PubKey)) (n : Source) :
    n ∈ (((new secureVerification perMessageFallback 0).pushAll bls pushes).verify bls).badSources ↔
      ∃ p ∈ pushes, p.1 = n ∧
        ∃ m, firstMessage pushes p.2.msgId = some m ∧ bls.validMessage m = false := by
  have hwf : (new secureVerification perMessageFallback 0 :
      BatchVerifier Source MessageId Hash Sig PubKey).WF := wf_of_empty rfl rfl
  obtain ⟨messages, bySource, heq, -, hsource⟩ :=
    pushAll_spec bls secureVerification perMessageFallback pushes
  rw [mem_badSources_verify (hwf.pushAll pushes), heq]
  simp only [hsource]
  constructor
  · rintro (hnew | ⟨m, ⟨p, hp, hn, hfirst⟩, hfalse⟩)
    · exact absurd hnew (Finset.notMem_empty n)
    · exact ⟨p, hp, hn, m, hfirst, hfalse⟩
  · rintro ⟨p, hp, hn, m, hfirst, hfalse⟩
    exact Or.inr ⟨m, ⟨p, hp, hn, hfirst⟩, hfalse⟩

/-! ### Sub-batches of any size -/

/-- The verifier has judged, or is about to judge, the pushes `done` and nothing else. -/
structure Tracks (bls : Scheme Hash Sig PubKey) (v : BatchVerifier Source MessageId Hash Sig PubKey)
    (done : List (Source × Message MessageId Hash Sig PubKey)) : Prop where
  wf : v.WF
  fallback : v.perMessageFallback = true
  pushed : ∀ m ∈ v.messages, ∃ p ∈ done, p.2 = m
  messages : ∀ id, v.Condemned bls id ↔
    ∃ p ∈ done, p.2.msgId = id ∧ bls.validMessage p.2 = false
  sources : ∀ n, (n ∈ v.badSources ∨
      ∃ m, MultiMap.Mem v.messagesBySource n m ∧ bls.validMessage m = false) ↔
    ∃ p ∈ done, p.1 = n ∧ bls.validMessage p.2 = false

omit [DecidableEq Hash] in
theorem enterMessage_of_determined (sourceId : Source) {msg : Message MessageId Hash Sig PubKey}
    (hdet : ∀ m ∈ v.messages, m.msgId = msg.msgId → m = msg) :
    ∃ messages, v.enterMessage sourceId msg =
        { v with
          messages := messages
          messagesBySource := MultiMap.push sourceId msg v.messagesBySource } ∧
      ∀ m, m ∈ messages ↔ m ∈ v.messages ∨ m = msg := by
  cases hfind : v.messages.find? (fun m => m.msgId = msg.msgId) with
  | some entry =>
    have hmem := List.mem_of_find?_eq_some hfind
    have hid := List.find?_some hfind
    rw [decide_eq_true_eq] at hid
    have hentry := hdet entry hmem hid
    subst hentry
    refine ⟨v.messages, by rw [enterMessage, hfind], fun m => ?_⟩
    exact (or_iff_left_of_imp fun heq => heq ▸ hmem).symm
  | none =>
    refine ⟨v.messages ++ [msg], by rw [enterMessage, hfind], fun m => ?_⟩
    rw [List.mem_append, List.mem_singleton]

variable {done : List (Source × Message MessageId Hash Sig PubKey)}
variable {p : Source × Message MessageId Hash Sig PubKey}

omit [DecidableEq Hash] in
theorem Tracks.enterMessage (h : v.Tracks bls done)
    (hdet : ∀ q ∈ done, q.2.msgId = p.2.msgId → q.2 = p.2) :
    (v.enterMessage p.1 p.2).Tracks bls (done ++ [p]) := by
  have hknown : ∀ m ∈ v.messages, m.msgId = p.2.msgId → m = p.2 := by
    intro m hm hid
    obtain ⟨q, hq, rfl⟩ := h.pushed m hm
    exact hdet q hq hid
  have hwf := h.wf.enterMessage p.1 p.2
  obtain ⟨messages, henter, hmem⟩ := enterMessage_of_determined p.1 hknown
  rw [henter] at hwf ⊢
  refine ⟨hwf, h.fallback, fun m hm => ?_, fun id => ?_, fun n => ?_⟩
  · rcases (hmem m).mp hm with hm | rfl
    · obtain ⟨q, hq, rfl⟩ := h.pushed m hm
      exact ⟨q, List.mem_append_left _ hq, rfl⟩
    · exact ⟨p, List.mem_append_right _ (List.mem_singleton_self p), rfl⟩
  · simp only [List.mem_append, List.mem_singleton, or_and_right, exists_or, exists_eq_left,
      ← h.messages, Condemned, hmem, or_assoc]
  · simp only [List.mem_append, List.mem_singleton, or_and_right, exists_or, exists_eq_left,
      ← h.sources, MultiMap.mem_push, or_assoc]
    refine or_congr_right (or_congr_right ⟨?_, ?_⟩)
    · rintro ⟨m, ⟨rfl, rfl⟩, hfalse⟩
      exact ⟨rfl, hfalse⟩
    · rintro ⟨rfl, hfalse⟩
      exact ⟨p.2, ⟨rfl, rfl⟩, hfalse⟩

theorem Tracks.verdicts (h : v.Tracks bls done) :
    (∀ id, id ∈ (v.verify bls).badMessages ↔
        ∃ p ∈ done, p.2.msgId = id ∧ bls.validMessage p.2 = false) ∧
      ∀ n, n ∈ (v.verify bls).badSources ↔
        ∃ p ∈ done, p.1 = n ∧ bls.validMessage p.2 = false :=
  ⟨fun id => (mem_badMessages_verify h.wf h.fallback id).trans (h.messages id),
    fun n => (mem_badSources_verify h.wf n).trans (h.sources n)⟩

theorem Tracks.flush (h : v.Tracks bls done) : (v.verify bls).clearMessages.Tracks bls done := by
  obtain ⟨hmessages, hsources⟩ := h.verdicts
  obtain ⟨bs, bm, hframe⟩ := verify_frame bls v
  refine ⟨wf_of_empty rfl rfl, ?_, fun m hm => absurd hm List.not_mem_nil, fun id => ?_,
    fun n => ?_⟩
  · rw [hframe]
    exact h.fallback
  · refine Iff.trans (or_iff_left ?_) (hmessages id)
    rintro ⟨m, hm, -⟩
    exact List.not_mem_nil hm
  · refine Iff.trans (or_iff_left ?_) (hsources n)
    rintro ⟨m, hm, -⟩
    exact MultiMap.not_mem_nil n m hm

theorem Tracks.pushMessage (h : v.Tracks bls done)
    (hdet : ∀ q ∈ done, q.2.msgId = p.2.msgId → q.2 = p.2) :
    (v.pushMessage bls p.1 p.2).Tracks bls (done ++ [p]) := by
  have hentered := h.enterMessage hdet
  unfold BatchVerifier.pushMessage
  dsimp only
  split_ifs
  · exact hentered.flush
  · exact hentered

omit [DecidableEq Source] [DecidableEq MessageId] [DecidableEq Hash] in
theorem tracks_new (secureVerification : Bool) (subBatchSize : ℕ) :
    (new secureVerification true subBatchSize :
      BatchVerifier Source MessageId Hash Sig PubKey).Tracks bls [] :=
  ⟨wf_of_empty rfl rfl, rfl, fun _ hm => absurd hm List.not_mem_nil,
    fun _ => by simp [Condemned, new], fun _ => by simp [new]⟩

theorem tracks_pushAll (secureVerification : Bool) (subBatchSize : ℕ)
    (hdet : ∀ p ∈ pushes, ∀ q ∈ pushes, p.2.msgId = q.2.msgId → p.2 = q.2) :
    ((new secureVerification true subBatchSize).pushAll bls pushes).Tracks bls pushes := by
  induction pushes using List.reverseRecOn with
  | nil => exact tracks_new secureVerification subBatchSize
  | append_singleton pushes p ih =>
    have hpushes := ih fun a ha b hb =>
      hdet a (List.mem_append_left _ ha) b (List.mem_append_left _ hb)
    rw [pushAll, List.foldl_append]
    exact hpushes.pushMessage fun q hq =>
      hdet q (List.mem_append_left _ hq) p (List.mem_append_right _ (List.mem_singleton_self p))

variable (bls) in
/-- For every sub-batch size and in both modes the verdicts are exact. -/
theorem verify_pushAll_exact (secureVerification : Bool) (subBatchSize : ℕ)
    (pushes : List (Source × Message MessageId Hash Sig PubKey))
    (hdet : ∀ p ∈ pushes, ∀ q ∈ pushes, p.2.msgId = q.2.msgId → p.2 = q.2) :
    let v := ((new secureVerification true subBatchSize).pushAll bls pushes).verify bls
    (∀ id, id ∈ v.badMessages ↔
        ∃ p ∈ pushes, p.2.msgId = id ∧ bls.validMessage p.2 = false) ∧
      ∀ n, n ∈ v.badSources ↔ ∃ p ∈ pushes, p.1 = n ∧ bls.validMessage p.2 = false :=
  (tracks_pushAll secureVerification subBatchSize hdet).verdicts

def toyPushes : List (ℕ × Message ℕ ℕ Bool Unit) :=
  [(0, ⟨1, 7, true, ()⟩), (1, ⟨2, 7, false, ()⟩), (2, ⟨1, 7, true, ()⟩), (0, ⟨2, 7, false, ()⟩)]

theorem verify_pushAll_toyPushes :
    (∀ p ∈ toyPushes, ∀ q ∈ toyPushes, p.2.msgId = q.2.msgId → p.2 = q.2) ∧
      2 ∈ (((new true true 2).pushAll ⟨fun sig _ _ => sig⟩ toyPushes).verify
        ⟨fun sig _ _ => sig⟩).badMessages ∧
      2 ∉ (((new true true 2).pushAll ⟨fun sig _ _ => sig⟩ toyPushes).verify
        ⟨fun sig _ _ => sig⟩).badSources := by
  have hdet : ∀ p ∈ toyPushes, ∀ q ∈ toyPushes, p.2.msgId = q.2.msgId → p.2 = q.2 := by decide
  obtain ⟨hmessages, hsources⟩ := verify_pushAll_exact ⟨fun sig _ _ => sig⟩ true 2 toyPushes hdet
  exact ⟨hdet, (hmessages 2).mpr (by decide), fun h => absurd ((hsources 2).mp h) (by decide)⟩

end BatchVerifier
end ButCore.Bls
