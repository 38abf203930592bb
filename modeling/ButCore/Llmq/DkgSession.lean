import Mathlib.Data.Finset.Card
import ButCore.Lib.Deliveries
import ButCore.Llmq.Params

/-!
# A DKG session up to its commitment

The messages of the first three phases, what `PreVerifyMessage` and `ReceiveMessage` do with them,
and the local actions between the phases. A result `none` stands for undefined behaviour: a null
member, a vector read past its end. Simulated errors, relaying and the debug status are left out.
-/
namespace ButCore.Llmq.DkgSession

abbrev CBLSSecretKey := Option (BitVec 256)
abbrev BLSVerificationVector := List CBLSPublicKey

structure CBLSIESMultiRecipientObjects where
  ephemeralPubKey : CBLSPublicKey
  ivSeed : Uint256
  blobs : List (List (BitVec 8))
  deriving DecidableEq

structure CDKGContribution where
  quorumHash : Uint256
  proTxHash : Uint256
  vvec : BLSVerificationVector
  contributions : CBLSIESMultiRecipientObjects
  deriving DecidableEq

structure CDKGComplaint where
  quorumHash : Uint256
  proTxHash : Uint256
  badMembers : List Bool
  complainForMembers : List Bool
  deriving DecidableEq

structure CDKGJustification where
  quorumHash : Uint256
  proTxHash : Uint256
  contributions : List (BitVec 32 × CBLSSecretKey)
  deriving DecidableEq

structure CDKGPrematureCommitment where
  llmqType : LLMQType
  quorumHash : Uint256
  proTxHash : Uint256
  validMembers : List Bool
  quorumPublicKey : CBLSPublicKey
  quorumVvecHash : Uint256
  quorumSig : CBLSSignature
  sig : CBLSSignature
  deriving DecidableEq

/-- What is read of a `CDeterministicMN`. The BLS id of a member is its `proTxHash`. -/
structure Dmn where
  proTxHash : Uint256
  pubKeyOperator : CBLSPublicKey

structure Me where
  idx : ℕ
  proTxHash : Uint256

/-- What `Init` fixes for the session. An observer has no `me`; `GetAllQuorumMembers` selects at
most `params.size` members. -/
structure Quorum where
  params : Consensus.LLMQParams
  quorumHash : Uint256
  members : List Dmn
  me : Option Me
  fits : members.length ≤ params.size

/-- The BLS operations of the first three phases; `decrypt` uses our operator key. -/
structure CBLSWorker where
  decrypt : CBLSIESMultiRecipientObjects → ℕ → Option CBLSSecretKey
  verifyVerificationVector : BLSVerificationVector → Bool
  verifyContributionShare : Uint256 → BLSVerificationVector → CBLSSecretKey → Bool

/-- A member with its entries of `receivedVvecs` and `receivedSkContributions` and of the database
of verified contributions. Its complaints stand with their hashes, in the order of arrival. -/
structure CDKGMember where
  contributions : Finset Uint256
  complaints : List (Uint256 × CDKGComplaint)
  justifications : Finset Uint256
  prematureCommitments : Finset Uint256
  badMemberVotes : Finset Uint256
  complaintsFromOthers : Finset Uint256
  bad : Bool
  weComplain : Bool
  someoneComplain : Bool
  receivedVvec : Option BLSVerificationVector
  receivedSkContribution : CBLSSecretKey
  verifiedVvec : Option BLSVerificationVector
  verifiedSkContribution : CBLSSecretKey

def CDKGMember.new : CDKGMember :=
  ⟨∅, [], ∅, ∅, ∅, ∅, false, false, false, none, none, none, none⟩

def CDKGMember.markBad (m : CDKGMember) : CDKGMember := { m with bad := true }

@[ext]
structure CDKGSession where
  members : ℕ → CDKGMember
  prematureCommitments : List (Uint256 × CDKGPrematureCommitment)
  validCommitments : Finset Uint256
  pendingContributionVerifications : List ℕ

def CDKGSession.new : CDKGSession := ⟨fun _ => .new, [], ∅, []⟩

def CDKGSession.setMember (s : CDKGSession) (idx : ℕ) (m : CDKGMember) : CDKGSession :=
  { s with members := Function.update s.members idx m }

/-- A loop over all members that changes each by itself. -/
def CDKGSession.mapMembers (s : CDKGSession) (f : CDKGMember → CDKGMember) : CDKGSession :=
  { s with members := fun i => f (s.members i) }

variable {proTxHash : Uint256} {i : ℕ}

namespace Quorum

variable (q : Quorum)

/-- `GetMember`, as the index that `membersMap` gives. -/
def getMember (proTxHash : Uint256) : Option ℕ :=
  q.members.findIdx? fun m => m.proTxHash == proTxHash

def bits (f : ℕ → Bool) : List Bool :=
  (List.range q.params.size).map fun i => decide (i < q.members.length) && f i

variable {q}

theorem getMember_eq_some (h : q.getMember proTxHash = some i) :
    ∃ m, q.members[i]? = some m ∧ m.proTxHash = proTxHash := by
  obtain ⟨hlt, heq, -⟩ := List.findIdx?_eq_some_iff_getElem.mp h
  exact ⟨q.members[i], List.getElem?_eq_getElem hlt, by simpa using heq⟩

theorem getMember_lt (h : q.getMember proTxHash = some i) :
    i < q.members.length := by
  obtain ⟨m, hm, -⟩ := getMember_eq_some h
  exact (List.getElem?_eq_some_iff.mp hm).1

theorem getMember_inj {a b : Uint256} (ha : q.getMember a = some i) (hb : q.getMember b = some i) : a = b := by
  obtain ⟨m, hm, rfl⟩ := getMember_eq_some ha
  obtain ⟨m', hm', rfl⟩ := getMember_eq_some hb
  rw [hm, Option.some.injEq] at hm'
  rw [hm']

end Quorum

/-! ### Cheap verification

The four forms differ in the checks on the message, each of which bans, and in the set of messages
that is counted. The result is the returned value and `retBan`. -/

section

variable (w : CBLSWorker) (q : Quorum) (s : CDKGSession)

def preVerify (quorumHash proTxHash : Uint256) (wellFormed : Bool) (received : CDKGMember → ℕ) :
    Bool × Bool :=
  if quorumHash ≠ q.quorumHash then (false, false)
  else
    match q.getMember proTxHash with
    | none => (false, true)
    | some idx =>
      if wellFormed = false then (false, true)
      else if 2 ≤ received (s.members idx) then (false, false)
      else (true, false)

def preVerifyContribution (qc : CDKGContribution) : Bool × Bool :=
  preVerify q s qc.quorumHash qc.proTxHash
    (decide (qc.contributions.blobs.length = q.members.length) &&
      decide (qc.vvec.length = q.params.threshold) && w.verifyVerificationVector qc.vvec)
    fun m => m.contributions.card

def preVerifyComplaint (qc : CDKGComplaint) : Bool × Bool :=
  preVerify q s qc.quorumHash qc.proTxHash
    (decide (qc.badMembers.length = q.params.size) &&
      decide (qc.complainForMembers.length = q.params.size))
    fun m => m.complaints.length

def contributionsValid (size : ℕ) (contributionsSet : Finset ℕ) :
    List (BitVec 32 × CBLSSecretKey) → Bool
  | [] => true
  | p :: rest =>
    if size < p.1.toNat then false
    else if p.1.toNat ∈ contributionsSet then false
    else if p.2.isSome = false then false
    else contributionsValid size (insert p.1.toNat contributionsSet) rest

def preVerifyJustification (qj : CDKGJustification) : Bool × Bool :=
  preVerify q s qj.quorumHash qj.proTxHash
    (!qj.contributions.isEmpty && contributionsValid q.members.length ∅ qj.contributions)
    fun m => m.justifications.card

def preVerifyCommitment (qc : CDKGPrematureCommitment) : Bool × Bool :=
  preVerify q s qc.quorumHash qc.proTxHash
    (decide (qc.validMembers.length = q.params.size) &&
      decide (q.params.minSize ≤ qc.validMembers.count true) && qc.sig.isSome &&
      qc.quorumSig.isSome && !(qc.validMembers.drop q.members.length).any id)
    fun m => m.prematureCommitments.card

theorem preVerify_true {quorumHash : Uint256} {wellFormed : Bool} {received : CDKGMember → ℕ}
    (h : (preVerify q s quorumHash proTxHash wellFormed received).1) :
    quorumHash = q.quorumHash ∧ wellFormed = true ∧ ∃ idx, q.getMember proTxHash = some idx := by
  rw [preVerify] at h
  cases hidx : q.getMember proTxHash with
  | none =>
    rw [hidx] at h
    split_ifs at h
  | some idx =>
    rw [hidx] at h
    dsimp only at h
    split_ifs at h with hhash hform
    exact ⟨not_not.mp hhash, Bool.eq_true_of_not_eq_false hform, idx, rfl⟩

end

section

variable (w : CBLSWorker) (q : Quorum)

/-- The verdict of `VerifyContributionShares` on one share of the batch. -/
def CDKGMember.shareValid (m : CDKGMember) (me : Me) : Bool :=
  match m.receivedVvec with
  | none => false
  | some vvec => w.verifyContributionShare me.proTxHash vvec m.receivedSkContribution

def CDKGMember.recordShare (m : CDKGMember) (me : Me) : CDKGMember :=
  if m.shareValid w me then { m with verifiedSkContribution := m.receivedSkContribution }
  else { m with weComplain := true }

def verifyPendingContributions (me : Me) (s : CDKGSession) : CDKGSession :=
  let pend := s.pendingContributionVerifications
  let memberIndexes := pend.filter fun idx => !(s.members idx).bad && !(s.members idx).weComplain
  { s with
    pendingContributionVerifications := []
    members := memberIndexes.foldl
      (fun members idx => Function.update members idx ((s.members idx).recordShare w me))
      s.members }

def receiveContribution (s : CDKGSession) (hash : Uint256) (qc : CDKGContribution) :
    Option CDKGSession :=
  match q.getMember qc.proTxHash with
  | none => none
  | some idx =>
    let member := s.members idx
    if 2 ≤ member.contributions.card then some s
    else
      let member := { member with contributions := insert hash member.contributions }
      if 1 < member.contributions.card then some (s.setMember idx member.markBad)
      else
        let member := { member with receivedVvec := some qc.vvec }
        match q.me with
        | none => some (s.setMember idx member)
        | some me =>
          let member := { member with verifiedVvec := some qc.vvec }
          match w.decrypt qc.contributions me.idx with
          | none => some (s.setMember idx { member with weComplain := true })
          | some skContribution =>
            let member := { member with receivedSkContribution := skContribution }
            let pend := s.pendingContributionVerifications ++ [idx]
            let s := { s.setMember idx member with pendingContributionVerifications := pend }
            if 32 ≤ pend.length then some (verifyPendingContributions w me s) else some s

def sendComplaint (me : Me) (s : CDKGSession) : Option CDKGComplaint :=
  let badMembers := q.bits fun i => (s.members i).bad
  let complainForMembers := q.bits fun i => !(s.members i).bad && (s.members i).weComplain
  if badMembers.count true = 0 ∧ complainForMembers.count true = 0 then none
  else some ⟨q.quorumHash, me.proTxHash, badMembers, complainForMembers⟩

def CDKGMember.requireContribution (m : CDKGMember) : CDKGMember :=
  if m.bad then m else if m.contributions = ∅ then m.markBad else m

def verifyAndComplain (s : CDKGSession) : CDKGSession × Option CDKGComplaint :=
  match q.me with
  | none => (s, none)
  | some me =>
    let s := (verifyPendingContributions w me s).mapMembers CDKGMember.requireContribution
    (s, sendComplaint q me s)

end

section

variable (q : Quorum)

def CDKGMember.hearComplaint (m : CDKGMember) (qc : CDKGComplaint) (i : ℕ) : CDKGMember :=
  let m := if qc.badMembers[i]? = some true then
    { m with badMemberVotes := insert qc.proTxHash m.badMemberVotes } else m
  if qc.complainForMembers[i]? = some true then
    { m with
      complaintsFromOthers := insert qc.proTxHash m.complaintsFromOthers
      someoneComplain := true }
  else m

def CDKGMember.emplaceComplaint (m : CDKGMember) (hash : Uint256) (qc : CDKGComplaint) :
    CDKGMember :=
  if m.complaints.any fun p => p.1 == hash then m
  else { m with complaints := m.complaints ++ [(hash, qc)] }

def receiveComplaint (s : CDKGSession) (hash : Uint256) (qc : CDKGComplaint) :
    Option CDKGSession :=
  match q.getMember qc.proTxHash with
  | none => none
  | some idx =>
    if 2 ≤ (s.members idx).complaints.length then some s
    else
      let member := (s.members idx).emplaceComplaint hash qc
      if 1 < member.complaints.length then some (s.setMember idx member.markBad)
      else if qc.badMembers.length < q.members.length ∨
          qc.complainForMembers.length < q.members.length then none
      else
        let s := s.setMember idx member
        some { s with
          members := fun i =>
            if i < q.members.length then (s.members i).hearComplaint qc i else s.members i }

def CDKGMember.countVotes (m : CDKGMember) : CDKGMember :=
  if m.bad then m
  else if q.params.dkgBadVotesThreshold ≤ m.badMemberVotes.card then m.markBad
  else if m.complaints = [] then m
  else if m.complaints.length ≠ 1 then m.markBad
  else m

def justifyForMember (me : Me) (s : CDKGSession) (i : ℕ) : Option Uint256 :=
  if ((s.members i).countVotes q).bad then none
  else
    match (s.members i).complaints with
    | [] => none
    | (_, qc) :: _ =>
      if qc.complainForMembers[me.idx]? = some true then some qc.proTxHash else none

def verifyAndJustify (s : CDKGSession) : CDKGSession × List Uint256 :=
  match q.me with
  | none => (s, [])
  | some me =>
    (s.mapMembers (CDKGMember.countVotes q),
      (List.range q.members.length).filterMap (justifyForMember q me s))

end

section

variable (w : CBLSWorker) (q : Quorum)

/-- One round of the loop that verifies a justification, for the member with that hash. -/
def CDKGMember.justify (m : CDKGMember) (share : Uint256 × CBLSSecretKey) : Option CDKGMember :=
  match m.receivedVvec with
  | none => none
  | some vvec =>
    if w.verifyContributionShare share.1 vvec share.2 then
      let m := if q.me.map Me.proTxHash = some share.1 then
        { m with
          receivedSkContribution := share.2
          weComplain := false
          verifiedSkContribution := share.2 }
      else m
      some { m with complaintsFromOthers := m.complaintsFromOthers.erase share.1 }
    else some m.markBad

def memberOfContribution (p : BitVec 32 × CBLSSecretKey) : Option (Uint256 × CBLSSecretKey) :=
  q.members[p.1.toNat]?.map fun m => (m.proTxHash, p.2)

def CDKGMember.receiveJustification (member : CDKGMember) (hash : Uint256)
    (qj : CDKGJustification) : Option CDKGMember :=
  if 2 ≤ member.justifications.card then some member
  else
    let member := { member with justifications := insert hash member.justifications }
    if 1 < member.justifications.card then some member.markBad
    else if member.bad then some member
    else
      match qj.contributions.mapM (memberOfContribution q) with
      | none => none
      | some shares =>
        if shares.any fun p => decide (p.1 ∉ member.complaintsFromOthers) then
          some member.markBad
        else shares.foldlM (CDKGMember.justify w q) member

def receiveJustification (s : CDKGSession) (hash : Uint256) (qj : CDKGJustification) :
    Option CDKGSession :=
  match q.getMember qj.proTxHash with
  | none => none
  | some idx => ((s.members idx).receiveJustification w q hash qj).map (s.setMember idx)

def CDKGMember.closeComplaints (m : CDKGMember) : CDKGMember :=
  if m.bad then m else if m.complaintsFromOthers ≠ ∅ then m.markBad else m

def verifyAndCommit (s : CDKGSession) : CDKGSession :=
  match q.me with
  | none => s
  | some _ => s.mapMembers CDKGMember.closeComplaints

def validMembers (s : CDKGSession) : List Bool := q.bits fun i => !(s.members i).bad

/-- The indexes with which `ReceiveMessage` reads `members` for a justification. -/
def lookedUp (s : CDKGSession) (hash : Uint256) (qj : CDKGJustification) : List ℕ :=
  match q.getMember qj.proTxHash with
  | none => []
  | some idx =>
    let member := s.members idx
    if 2 ≤ member.justifications.card then []
    else if 1 < (insert hash member.justifications).card then []
    else if member.bad then []
    else qj.contributions.map fun p => p.1.toNat

end

section

variable {q : Quorum}
variable {contributions : List (BitVec 32 × CBLSSecretKey)}

theorem contributionsValid_true {size : ℕ} {seen : Finset ℕ}
    (h : contributionsValid size seen contributions = true) :
    (∀ p ∈ contributions, p.1.toNat ≤ size ∧ p.1.toNat ∉ seen) ∧
      (contributions.map fun p => p.1.toNat).Nodup := by
  induction contributions generalizing seen with
  | nil => simp
  | cons p rest ih =>
    rw [contributionsValid] at h
    split_ifs at h with hsize hseen hvalid
    obtain ⟨hrest, hnodup⟩ := ih h
    constructor
    · intro p' hp'
      rcases List.mem_cons.mp hp' with rfl | hp'
      · exact ⟨not_lt.mp hsize, hseen⟩
      · obtain ⟨hle, hfresh⟩ := hrest p' hp'
        exact ⟨hle, fun hmem => hfresh (Finset.mem_insert_of_mem hmem)⟩
    · rw [List.map_cons, List.nodup_cons]
      refine ⟨?_, hnodup⟩
      rintro hmem
      obtain ⟨p', hp', heq⟩ := List.mem_map.mp hmem
      exact (hrest p' hp').2 (heq ▸ Finset.mem_insert_self _ _)

/-- The justifier is known to be bad or has another justification stored. -/
def Refused (q : Quorum) (s : CDKGSession) (hash : Uint256) (qj : CDKGJustification) : Prop :=
  ∃ idx, q.getMember qj.proTxHash = some idx ∧
    ((s.members idx).bad = true ∨ ∃ h ∈ (s.members idx).justifications, h ≠ hash)

variable {hash : Uint256}

theorem one_lt_card_insert {received : Finset Uint256} :
    1 < (insert hash received).card ↔ ∃ h ∈ received, h ≠ hash := by
  rw [Finset.one_lt_card_iff_nontrivial]
  constructor
  · intro hnontrivial
    obtain ⟨h, hmem, hne⟩ := hnontrivial.exists_ne hash
    exact ⟨h, Finset.mem_of_mem_insert_of_ne hmem hne, hne⟩
  · rintro ⟨h, hmem, hne⟩
    exact ⟨h, Finset.mem_insert_of_mem hmem, hash, Finset.mem_insert_self _ _, hne⟩

variable {qj : CDKGJustification}

theorem lookedUp_eq (s : CDKGSession) (hash : Uint256) {idx : ℕ}
    (hidx : q.getMember qj.proTxHash = some idx) :
    (Refused q s hash qj ∧ lookedUp q s hash qj = []) ∨
      (¬ Refused q s hash qj ∧ lookedUp q s hash qj = qj.contributions.map fun p => p.1.toNat) := by
  have hrefused : Refused q s hash qj ↔
      (s.members idx).bad = true ∨ 1 < (insert hash (s.members idx).justifications).card := by
    rw [Refused, one_lt_card_insert]
    constructor
    · rintro ⟨i, hi, h⟩
      rw [hidx, Option.some.injEq] at hi
      exact hi ▸ h
    · intro h
      exact ⟨idx, hidx, h⟩
  have hgrow : 2 ≤ (s.members idx).justifications.card →
      1 < (insert hash (s.members idx).justifications).card := fun h =>
    h.trans (Finset.card_le_card (Finset.subset_insert _ _))
  rw [hrefused, lookedUp, hidx]
  dsimp only
  split_ifs with htwo hmany hbad
  · exact Or.inl ⟨Or.inr (hgrow htwo), rfl⟩
  · exact Or.inl ⟨Or.inr hmany, rfl⟩
  · exact Or.inl ⟨Or.inl hbad, rfl⟩
  · exact Or.inr ⟨not_or.mpr ⟨hbad, hmany⟩, rfl⟩

/-- A justification accepted in one state of the session and received in another: the indexes are
in range and different exactly when none of them is the number of members, unless they are not
used at all. -/
theorem lookedUp_inRange_iff (q : Quorum) (s s' : CDKGSession) (hash : Uint256)
    (qj : CDKGJustification) (accepted : (preVerifyJustification q s qj).1 = true) :
    ((∀ i ∈ lookedUp q s' hash qj, i < q.members.length) ∧ (lookedUp q s' hash qj).Nodup) ↔
      (∀ p ∈ qj.contributions, p.1.toNat ≠ q.members.length) ∨ Refused q s' hash qj := by
  obtain ⟨-, hform, idx, hidx⟩ := preVerify_true q s accepted
  obtain ⟨hle, hnodup⟩ := contributionsValid_true (Bool.and_eq_true_iff.mp hform).2
  rcases lookedUp_eq s' hash hidx with ⟨hrefused, heq⟩ | ⟨hgoes, heq⟩
  · rw [heq]
    exact iff_of_true ⟨fun i hi => absurd hi List.not_mem_nil, List.nodup_nil⟩ (Or.inr hrefused)
  · rw [heq, or_iff_left hgoes, and_iff_left hnodup]
    constructor
    · intro hlt p hp heq
      exact absurd (hlt _ (List.mem_map_of_mem hp)) (by rw [heq]; exact lt_irrefl _)
    · intro hne i hi
      obtain ⟨p, hp, rfl⟩ := List.mem_map.mp hi
      exact lt_of_le_of_ne (hle p hp).1 (hne p hp)

def toyQuorum : Quorum where
  params := Consensus.llmq3_60
  quorumHash := 1
  members := [⟨10, some 1⟩, ⟨11, some 2⟩, ⟨12, some 3⟩]
  me := some ⟨0, 10⟩
  fits := by decide

def toyContributed : CDKGSession :=
  { CDKGSession.new with
    members := fun i => { CDKGMember.new with
      contributions := {BitVec.ofNat 256 i}, receivedVvec := some [some 1, some 2] } }

def toyJustification (index : BitVec 32) : CDKGJustification := ⟨1, 11, [(index, some 5)]⟩

theorem lookedUp_inRange_lastMember :
    (preVerifyJustification toyQuorum toyContributed (toyJustification 2)).1 = true ∧
      (∀ i ∈ lookedUp toyQuorum toyContributed 7 (toyJustification 2), i < 3) ∧
      (lookedUp toyQuorum toyContributed 7 (toyJustification 2)).Nodup := by
  have accepted :
      (preVerifyJustification toyQuorum toyContributed (toyJustification 2)).1 = true := by decide
  refine ⟨accepted, (lookedUp_inRange_iff toyQuorum toyContributed toyContributed 7
    (toyJustification 2) accepted).mpr (Or.inl ?_)⟩
  intro p hp
  cases List.mem_singleton.mp hp
  decide

/-- The bound of `PreVerifyMessage` admits the number of members. -/
theorem lookedUp_pastLastMember :
    (preVerifyJustification toyQuorum toyContributed (toyJustification 3)).1 = true ∧
      ¬ ((∀ i ∈ lookedUp toyQuorum toyContributed 7 (toyJustification 3),
          i < toyQuorum.members.length) ∧
        (lookedUp toyQuorum toyContributed 7 (toyJustification 3)).Nodup) := by
  decide

end

end ButCore.Llmq.DkgSession
