import ButCore.Lib.Steps
import ButCore.Lib.Table
import ButCore.Primitives

/-!
# Votes of the signing manager

`AsyncSignIfMember` records for each request id what it has voted for and refuses to sign anything
else as long as the record is there.
-/
namespace ButCore.Llmq.Votes

abbrev SigningKey := LLMQType × Uint256

/-! ### The database -/

/-- The keys `rs_r`, `rs_v` and `rs_vt` of the database. The times in the last are unsigned and of
32 bits. -/
structure RecoveredSigsDb where
  recovered : List SigningKey
  votes : SigningKey → Option Uint256
  voteTimes : List (BitVec 32 × SigningKey)

def keyTime (time : ℤ) : BitVec 32 := BitVec.ofInt 32 time

namespace RecoveredSigsDb

variable (db : RecoveredSigsDb)

def hasRecoveredSigForId (key : SigningKey) : Bool := decide (key ∈ db.recovered)

def writeRecoveredSig (key : SigningKey) : RecoveredSigsDb :=
  { db with recovered := key :: db.recovered }

/-- Truncation, removal and the cleanup of old signatures; none of them touches a vote. -/
def removeRecoveredSigs (keys : List SigningKey) : RecoveredSigsDb :=
  { db with recovered := db.recovered.filter fun key => key ∉ keys }

def writeVoteForId (now : ℤ) (key : SigningKey) (msgHash : Uint256) : RecoveredSigsDb :=
  { db with
    votes := Function.update db.votes key (some msgHash)
    voteTimes := (keyTime now, key) :: db.voteTimes }

/-- The keys are in the order of their times, so the walk meets all that are older than `endTime`. -/
def cleanupOldVotes (now maxAge : ℤ) : RecoveredSigsDb :=
  let endTime := keyTime (now - maxAge)
  { db with
    votes := Table.eraseAll Prod.snd (db.voteTimes.filter fun k => k.1 < endTime) db.votes
    voteTimes := db.voteTimes.filter fun k => ¬ k.1 < endTime }

end RecoveredSigsDb

/-! ### Signing -/

/-- `smartnode` is whether the node runs as one, and `member` whether a quorum is selected and the
node is a valid member of it. -/
structure SignRequest where
  key : SigningKey
  msgHash : Uint256
  allowReSign : Bool
  smartnode : Bool
  member : Bool

def signUnlessRecovered (db : RecoveredSigsDb) (now : ℤ) (r : SignRequest) (hasVoted : Bool) :
    RecoveredSigsDb × Bool × Bool :=
  if db.hasRecoveredSigForId r.key then (db, true, false)
  else
    let db := if hasVoted then db else db.writeVoteForId now r.key r.msgHash
    (db, r.member, r.member)

def asyncSignIfMember (db : RecoveredSigsDb) (now : ℤ) (r : SignRequest) :
    RecoveredSigsDb × Bool × Bool :=
  if !r.smartnode then (db, false, false)
  else
    match db.votes r.key with
    | some prevMsgHash =>
      if r.msgHash ≠ prevMsgHash then (db, false, false)
      else if r.allowReSign then signUnlessRecovered db now r true
      else (db, false, false)
    | none => signUnlessRecovered db now r false

/-! ### Runs -/

structure Signed where
  time : ℤ
  key : SigningKey
  msgHash : Uint256
  deriving DecidableEq

structure SignState where
  now : ℤ
  db : RecoveredSigsDb
  signed : List Signed

inductive SignOp where
  | asyncSignIfMember (r : SignRequest)
  | writeRecoveredSig (key : SigningKey)
  | removeRecoveredSigs (keys : List SigningKey)
  | cleanupOldVotes

structure SignInput where
  time : ℤ
  op : SignOp

def signStep (maxAge : ℤ) (s : SignState) (input : SignInput) : SignState :=
  match input.op with
  | .asyncSignIfMember r =>
    let (db, _, issued) := asyncSignIfMember s.db input.time r
    { now := input.time
      db := db
      signed := if issued then ⟨input.time, r.key, r.msgHash⟩ :: s.signed else s.signed }
  | .writeRecoveredSig key => { s with now := input.time, db := s.db.writeRecoveredSig key }
  | .removeRecoveredSigs keys => { s with now := input.time, db := s.db.removeRecoveredSigs keys }
  | .cleanupOldVotes =>
    { s with now := input.time, db := s.db.cleanupOldVotes input.time maxAge }

def SignState.start (now : ℤ) : SignState := ⟨now, ⟨[], fun _ => none, []⟩, []⟩

/-- What is signed for one request less than `maxAge` apart is the same message. -/
def Consistent (maxAge : ℤ) (signed : List Signed) : Prop :=
  ∀ a ∈ signed, ∀ b ∈ signed, a.key = b.key → |a.time - b.time| < maxAge → a.msgHash = b.msgHash

instance (maxAge : ℤ) (signed : List Signed) : Decidable (Consistent maxAge signed) :=
  inferInstanceAs (Decidable (∀ a ∈ signed, ∀ b ∈ signed, a.key = b.key → _ → _ = _))

/-- A message is signed again only in the second of its vote, and no time wraps around. -/
def KeepsVotes (maxAge : ℤ) (s : SignState) (input : SignInput) : Prop :=
  (s.now ≤ input.time ∧ 0 ≤ input.time ∧ input.time < 2 ^ 32) ∧
    match input.op with
    | .asyncSignIfMember r => r.allowReSign = true → s.db.votes r.key = some r.msgHash →
        ∀ k ∈ s.db.voteTimes, k.2 = r.key → input.time ≤ k.1.toNat
    | .cleanupOldVotes => maxAge ≤ input.time
    | _ => True

/-! ### The votes cover what was signed -/

/-- A message that was signed less than `maxAge` ago is the vote, and the vote is not older. -/
structure Covered (maxAge now : ℤ) (db : RecoveredSigsDb) (a : Signed) : Prop where
  past : a.time ≤ now
  vote : now < a.time + maxAge → db.votes a.key = some a.msgHash
  age : now < a.time + maxAge → ∀ k ∈ db.voteTimes, k.2 = a.key → a.time ≤ k.1.toNat

structure VoteInv (maxAge : ℤ) (s : SignState) : Prop where
  voted : ∀ k ∈ s.db.voteTimes, ∃ msgHash, s.db.votes k.2 = some msgHash
  nodup : (s.db.voteTimes.map Prod.snd).Nodup
  covered : ∀ a ∈ s.signed, Covered maxAge s.now s.db a
  consistent : Consistent maxAge s.signed

section

variable {maxAge : ℤ} {s : SignState}
variable {time : ℤ}

theorem toNat_keyTime (lower : 0 ≤ time) (upper : time < 2 ^ 32) :
    ((keyTime time).toNat : ℤ) = time := by
  unfold keyTime
  rw [BitVec.toNat_ofInt, Int.toNat_of_nonneg (Int.emod_nonneg _ (by norm_num))]
  exact Int.emod_eq_of_lt lower (by simpa using upper)

theorem Covered.later {now now' : ℤ} {db db' : RecoveredSigsDb} {a : Signed}
    (h : Covered maxAge now db a) (later : now ≤ now')
    (votes : now' < a.time + maxAge → db'.votes a.key = db.votes a.key)
    (times : ∀ k ∈ db'.voteTimes, k ∈ db.voteTimes) : Covered maxAge now' db' a := by
  refine ⟨h.past.trans later, ?_, ?_⟩
  · intro recent
    rw [votes recent]
    exact h.vote (later.trans_lt recent)
  · intro recent k hk
    exact h.age (later.trans_lt recent) k (times k hk)

theorem VoteInv.same {s' : SignState} (inv : VoteInv maxAge s) (later : s.now ≤ s'.now)
    (votes : s'.db.votes = s.db.votes) (times : s'.db.voteTimes = s.db.voteTimes)
    (signed : s'.signed = s.signed) : VoteInv maxAge s' := by
  refine ⟨?_, ?_, ?_, ?_⟩
  · rw [votes, times]
    exact inv.voted
  · rw [times]
    exact inv.nodup
  · rw [signed]
    intro a ha
    refine (inv.covered a ha).later later (fun _ => by rw [votes]) ?_
    rw [times]
    exact fun _ => id
  · rw [signed]
    exact inv.consistent

theorem VoteInv.cleanup (inv : VoteInv maxAge s) (later : s.now ≤ time) (upper : time < 2 ^ 32)
    (aged : maxAge ≤ time) (short : 0 ≤ maxAge) :
    VoteInv maxAge { s with now := time, db := s.db.cleanupOldVotes time maxAge } := by
  have endTime : ((keyTime (time - maxAge)).toNat : ℤ) = time - maxAge :=
    toNat_keyTime (by omega) (by omega)
  have kept : ∀ {key : SigningKey} {msgHash : Uint256}, s.db.votes key = some msgHash →
      (∀ k ∈ s.db.voteTimes, k.2 = key → ¬ k.1 < keyTime (time - maxAge)) →
      (s.db.cleanupOldVotes time maxAge).votes key = some msgHash := by
    intro key msgHash hvote young
    refine Table.eraseAll_eq_some.mpr ⟨hvote, fun k hk heq => ?_⟩
    obtain ⟨hk, old⟩ := List.mem_filter.mp hk
    exact young k hk heq (of_decide_eq_true old)
  refine ⟨?_, ?_, ?_, inv.consistent⟩
  · intro k hk
    obtain ⟨hk, young⟩ := List.mem_filter.mp hk
    obtain ⟨msgHash, hvote⟩ := inv.voted k hk
    refine ⟨msgHash, kept hvote fun k' hk' heq => ?_⟩
    -- one record for each key, so the young one is the only one
    rw [List.inj_on_of_nodup_map inv.nodup hk' hk heq]
    exact of_decide_eq_true young
  · exact inv.nodup.sublist (List.filter_sublist.map Prod.snd)
  · intro a ha
    have covered := inv.covered a ha
    refine covered.later later (fun recent => ?_) fun k hk => (List.mem_filter.mp hk).1
    have hvote := covered.vote (later.trans_lt recent)
    rw [hvote]
    refine kept hvote fun k hk heq old => ?_
    have young := covered.age (later.trans_lt recent) k hk heq
    change time < a.time + maxAge at recent
    rw [BitVec.lt_def] at old
    omega

variable {key : SigningKey}

theorem VoteInv.absent (inv : VoteInv maxAge s) (fresh : s.db.votes key = none) :
    ∀ k ∈ s.db.voteTimes, k.2 ≠ key := by
  intro k hk heq
  obtain ⟨m, hvote⟩ := inv.voted k hk
  rw [heq, fresh] at hvote
  cases hvote

variable {msgHash : Uint256}

theorem VoteInv.write (inv : VoteInv maxAge s) (later : s.now ≤ time)
    (fresh : s.db.votes key = none) :
    VoteInv maxAge { s with now := time, db := s.db.writeVoteForId time key msgHash } := by
  have absent := inv.absent fresh
  refine ⟨?_, ?_, ?_, inv.consistent⟩
  · intro k hk
    rcases List.mem_cons.mp hk with rfl | hk
    · exact ⟨msgHash, Function.update_self ..⟩
    · obtain ⟨m, hvote⟩ := inv.voted k hk
      exact ⟨m, (Function.update_of_ne (absent k hk) ..).trans hvote⟩
  · refine List.nodup_cons.mpr ⟨fun hmem => ?_, inv.nodup⟩
    obtain ⟨k, hk, heq⟩ := List.mem_map.mp hmem
    exact absent k hk heq
  · intro a ha
    have covered := inv.covered a ha
    have other : time < a.time + maxAge → a.key ≠ key := by
      intro recent heq
      have hvote := covered.vote (later.trans_lt recent)
      rw [heq, fresh] at hvote
      cases hvote
    refine ⟨covered.past.trans later, fun recent => ?_, fun recent k hk heq => ?_⟩
    · exact (Function.update_of_ne (other recent) ..).trans (covered.vote (later.trans_lt recent))
    · rcases List.mem_cons.mp hk with rfl | hk
      · exact absurd heq.symm (other recent)
      · exact covered.age (later.trans_lt recent) k hk heq

theorem VoteInv.sign (inv : VoteInv maxAge s) (vote : s.db.votes key = some msgHash)
    (age : ∀ k ∈ s.db.voteTimes, k.2 = key → s.now ≤ k.1.toNat) :
    VoteInv maxAge { s with signed := ⟨s.now, key, msgHash⟩ :: s.signed } := by
  have agrees : ∀ a ∈ s.signed, a.key = key → |a.time - s.now| < maxAge → a.msgHash = msgHash := by
    intro a ha heq near
    have covered := inv.covered a ha
    have recent : s.now < a.time + maxAge := by
      have := (abs_lt.mp near).1
      omega
    have hvote := covered.vote recent
    rw [heq, vote] at hvote
    exact (Option.some.inj hvote).symm
  refine ⟨inv.voted, inv.nodup, ?_, ?_⟩
  · intro a ha
    rcases List.mem_cons.mp ha with rfl | ha
    · exact ⟨le_refl _, fun _ => vote, fun _ => age⟩
    · exact inv.covered a ha
  · intro a ha b hb heq near
    rcases List.mem_cons.mp ha with rfl | ha
    · rcases List.mem_cons.mp hb with rfl | hb
      · rfl
      · rw [abs_sub_comm] at near
        exact (agrees b hb heq.symm near).symm
    · rcases List.mem_cons.mp hb with rfl | hb
      · exact agrees a ha heq near
      · exact inv.consistent a ha b hb heq near

theorem asyncSignIfMember_cases (db : RecoveredSigsDb) (now : ℤ) (r : SignRequest) :
    (∃ returned, asyncSignIfMember db now r = (db, returned, false)) ∨
      (db.votes r.key = some r.msgHash ∧ r.allowReSign = true ∧
        ∃ returned issued, asyncSignIfMember db now r = (db, returned, issued)) ∨
      (db.votes r.key = none ∧ ∃ returned issued,
        asyncSignIfMember db now r = (db.writeVoteForId now r.key r.msgHash, returned, issued)) := by
  unfold asyncSignIfMember
  split
  · exact Or.inl ⟨false, rfl⟩
  cases hvote : db.votes r.key with
  | some prevMsgHash =>
    dsimp only
    by_cases same : r.msgHash = prevMsgHash
    · rw [if_neg (not_not.mpr same)]
      by_cases resign : r.allowReSign = true
      · rw [if_pos resign]
        unfold signUnlessRecovered
        split
        · exact Or.inl ⟨true, rfl⟩
        · exact Or.inr (Or.inl ⟨congrArg some same.symm, resign, r.member, r.member, rfl⟩)
      · rw [if_neg resign]
        exact Or.inl ⟨false, rfl⟩
    · rw [if_pos same]
      exact Or.inl ⟨false, rfl⟩
  | none =>
    dsimp only
    unfold signUnlessRecovered
    split
    · exact Or.inl ⟨true, rfl⟩
    · exact Or.inr (Or.inr ⟨rfl, r.member, r.member, rfl⟩)

theorem VoteInv.asyncSign (inv : VoteInv maxAge s) {r : SignRequest}
    (keeps : KeepsVotes maxAge s ⟨time, .asyncSignIfMember r⟩) :
    VoteInv maxAge (signStep maxAge s ⟨time, .asyncSignIfMember r⟩) := by
  obtain ⟨⟨later, lower, upper⟩, resigns⟩ := keeps
  have waited : VoteInv maxAge { s with now := time } := inv.same later rfl rfl rfl
  unfold signStep
  rcases asyncSignIfMember_cases s.db time r with
    ⟨returned, hcall⟩ | ⟨vote, resign, returned, issued, hcall⟩ | ⟨fresh, returned, issued, hcall⟩
  · simp only [hcall, Bool.false_eq_true, if_false]
    exact waited
  · simp only [hcall]
    cases issued with
    | false => exact waited
    | true => exact waited.sign vote (resigns resign vote)
  · simp only [hcall]
    have written : VoteInv maxAge
        { s with now := time, db := s.db.writeVoteForId time r.key r.msgHash } :=
      inv.write later fresh
    cases issued with
    | false => exact written
    | true =>
      refine written.sign (Function.update_self ..) fun k hk heq => ?_
      rcases List.mem_cons.mp hk with rfl | hk
      · exact (toNat_keyTime lower upper).ge
      · exact absurd heq (inv.absent fresh k hk)

theorem VoteInv.step (inv : VoteInv maxAge s) (positive : 0 ≤ maxAge) {input : SignInput}
    (keeps : KeepsVotes maxAge s input) : VoteInv maxAge (signStep maxAge s input) := by
  obtain ⟨time, op⟩ := input
  cases op with
  | asyncSignIfMember r => exact inv.asyncSign keeps
  | writeRecoveredSig key => exact inv.same keeps.1.1 rfl rfl rfl
  | removeRecoveredSigs keys => exact inv.same keeps.1.1 rfl rfl rfl
  | cleanupOldVotes => exact inv.cleanup keeps.1.1 keeps.1.2.2 keeps.2 positive

theorem voteInv_start (maxAge now : ℤ) : VoteInv maxAge (SignState.start now) := by
  refine ⟨?_, List.nodup_nil, ?_, ?_⟩
  · intro k hk
    cases hk
  · intro a ha
    cases ha
  · intro a ha
    cases ha

end

/-- In a run whose steps all keep the votes, what is signed for one request less than `maxAge` apart
is the same message. -/
theorem signed_consistent (maxAge start : ℤ) (inputs : List SignInput)
    (keeps : Steps.Meets (signStep maxAge) (KeepsVotes maxAge) (SignState.start start) inputs) :
    Consistent maxAge (Steps.run (signStep maxAge) (SignState.start start) inputs).signed := by
  by_cases positive : 0 ≤ maxAge
  · exact (Steps.run_inv (I := VoteInv maxAge) (fun s input inv h => inv.step positive h)
      (voteInv_start maxAge start) keeps).consistent
  · intro a _ b _ _ near
    exact absurd ((abs_nonneg _).trans_lt near).le positive

/-! ### Two runs -/

def WEEK : ℤ := 60 * 60 * 24 * 7

def toyRequest (msgHash : Uint256) (allowReSign : Bool) : SignRequest :=
  ⟨(1, 5), msgHash, allowReSign, true, true⟩

def weekApart : List SignInput :=
  [⟨WEEK, .asyncSignIfMember (toyRequest 10 false)⟩,
    ⟨2 * WEEK + 1, .cleanupOldVotes⟩,
    ⟨2 * WEEK + 2, .asyncSignIfMember (toyRequest 20 false)⟩]

theorem signed_consistent_weekApart :
    Steps.Meets (signStep WEEK) (KeepsVotes WEEK) (SignState.start WEEK) weekApart ∧
      Consistent WEEK
        (Steps.run (signStep WEEK) (SignState.start WEEK) weekApart).signed := by
  have keeps : Steps.Meets (signStep WEEK) (KeepsVotes WEEK) (SignState.start WEEK) weekApart := by
    refine ⟨⟨by decide, ?_⟩, ⟨by decide, by decide⟩, ⟨by decide, ?_⟩, trivial⟩
    · intro resign
      cases resign
    · intro resign
      cases resign
  exact ⟨keeps, signed_consistent WEEK WEEK weekApart keeps⟩

def signedAgain : List SignInput :=
  [⟨WEEK, .asyncSignIfMember (toyRequest 10 false)⟩,
    ⟨2 * WEEK, .asyncSignIfMember (toyRequest 10 true)⟩,
    ⟨2 * WEEK + 1, .cleanupOldVotes⟩,
    ⟨2 * WEEK + 2, .asyncSignIfMember (toyRequest 20 false)⟩]

def cleanedAtOnce : List SignInput :=
  [⟨WEEK, .asyncSignIfMember (toyRequest 10 false)⟩,
    ⟨WEEK, .cleanupOldVotes⟩,
    ⟨WEEK, .asyncSignIfMember (toyRequest 20 false)⟩]

/-- Two messages are signed for one request within two seconds, and at once where the age is more
than the time itself. -/
theorem signed_conflicting :
    ¬ Consistent WEEK (Steps.run (signStep WEEK) (SignState.start WEEK) signedAgain).signed ∧
      ¬ Consistent (2 * WEEK)
        (Steps.run (signStep (2 * WEEK)) (SignState.start WEEK) cleanedAtOnce).signed := by
  decide +kernel

end ButCore.Llmq.Votes
