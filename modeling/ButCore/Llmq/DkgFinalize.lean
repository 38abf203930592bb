import ButCore.Lib.MultiMap
import ButCore.Llmq.DkgSession

/-!
# Premature commitments and the final ones built from them

A batch of commitments is pre-verified in one state and then received one by one. Commitments are
grouped by their valid members and counted; those that name another key than the first of the group
are skipped after that. The order among the groups is not modelled.
-/
namespace ButCore.Llmq.DkgSession

/-- The BLS operations of the last phases. `recover` gives an invalid signature where it fails, a
missing contribution is a null pointer among the vectors. -/
structure CommitmentBls where
  buildQuorumVerificationVector :
    List (Option BLSVerificationVector) → Option BLSVerificationVector
  serializeHash : BLSVerificationVector → Uint256
  buildPubKeyShare : BLSVerificationVector → Uint256 → CBLSPublicKey
  verifyInsecure : CBLSSignature → CBLSPublicKey → Uint256 → Bool
  buildCommitmentHash : LLMQType → Uint256 → List Bool → CBLSPublicKey → Uint256 → Uint256
  aggregateSecure : List CBLSSignature → List CBLSPublicKey → Uint256 → CBLSSignature
  recover : List CBLSSignature → List Uint256 → CBLSSignature

def emplaceCommitment (hash : Uint256) (qc : CDKGPrematureCommitment) :
    List (Uint256 × CDKGPrematureCommitment) → List (Uint256 × CDKGPrematureCommitment)
  | [] => [(hash, qc)]
  | p :: rest =>
    if hash < p.1 then (hash, qc) :: p :: rest
    else if hash = p.1 then p :: rest
    else p :: emplaceCommitment hash qc rest

section

variable (c : CommitmentBls) (q : Quorum)

/-- `GetVerifiedContributions`, which never fails, and the vector built from its result. -/
def quorumVvec (s : CDKGSession) (validMembers : List Bool) : Option BLSVerificationVector :=
  c.buildQuorumVerificationVector
    (((List.range q.members.length).filter fun i => validMembers[i]? == some true).map
      fun i => (s.members i).verifiedVvec)

def CDKGPrematureCommitment.getSignHash (qc : CDKGPrematureCommitment) : Uint256 :=
  c.buildCommitmentHash qc.llmqType qc.quorumHash qc.validMembers qc.quorumPublicKey
    qc.quorumVvecHash

/-- The full verification of a commitment, against the vector of its valid members. -/
def matchesVvec (qc : CDKGPrematureCommitment) (vvec : BLSVerificationVector)
    (publicKey : CBLSPublicKey) : Bool :=
  let pubKeyShare := c.buildPubKeyShare vvec qc.proTxHash
  decide (publicKey = qc.quorumPublicKey) && decide (qc.quorumVvecHash = c.serializeHash vvec) &&
    pubKeyShare.isSome && c.verifyInsecure qc.quorumSig pubKeyShare (qc.getSignHash c)

def receiveCommitment (s : CDKGSession) (hash : Uint256) (qc : CDKGPrematureCommitment) :
    Option CDKGSession :=
  match q.getMember qc.proTxHash with
  | none => none
  | some idx =>
    let member := s.members idx
    let s := { s.setMember idx { member with
        prematureCommitments := insert hash member.prematureCommitments } with
      prematureCommitments := emplaceCommitment hash qc s.prematureCommitments }
    if qc.validMembers.length < q.members.length then none
    else
      match quorumVvec c q s qc.validMembers with
      | none => some { s with validCommitments := insert hash s.validCommitments }
      | some [] => none
      | some (publicKey :: vvec) =>
        if matchesVvec c qc (publicKey :: vvec) publicKey then
          some { s with validCommitments := insert hash s.validCommitments }
        else some s

/-- The messages of a batch that pass `PreVerifyMessage`, received one by one. -/
def receiveBatch (s : CDKGSession) (batch : List (Uint256 × CDKGPrematureCommitment)) :
    Option CDKGSession :=
  (batch.filter fun p => (preVerifyCommitment q s p.2).1).foldlM
    (fun s p => receiveCommitment c q s p.1 p.2) s

end

section

variable (c : CommitmentBls) (q : Quorum)

def validPrematureCommitments (s : CDKGSession) : List CDKGPrematureCommitment :=
  (s.prematureCommitments.filter fun p => decide (p.1 ∈ s.validCommitments)).map Prod.snd

def agreeing : List CDKGPrematureCommitment → List CDKGPrematureCommitment
  | [] => []
  | first :: rest => (first :: rest).filter fun qc =>
    decide (qc.quorumPublicKey = first.quorumPublicKey) &&
      decide (qc.quorumVvecHash = first.quorumVvecHash)

/-- `membersMap[qc.proTxHash]`, where a missing key reads as 0. -/
def signerIndex (qc : CDKGPrematureCommitment) : ℕ := (q.getMember qc.proTxHash).getD 0

def signerBits (indexes : List ℕ) : List Bool :=
  indexes.foldl (fun signers i => signers.set i true) (List.replicate q.params.size false)

def recoverQuorumSig (cvec : List CDKGPrematureCommitment) : CBLSSignature :=
  c.recover ((agreeing cvec).map fun qc => qc.quorumSig)
    ((agreeing cvec).filterMap fun qc => q.members[signerIndex q qc]?.map Dmn.proTxHash)

def finalCommitment (first : CDKGPrematureCommitment) (cvec : List CDKGPrematureCommitment) :
    CFinalCommitment where
  nVersion := 1
  llmqType := q.params.type
  quorumHash := first.quorumHash
  signers := signerBits q ((agreeing cvec).map (signerIndex q))
  validMembers := first.validMembers
  quorumPublicKey := first.quorumPublicKey
  quorumVvecHash := first.quorumVvecHash
  quorumSig := recoverQuorumSig c q cvec
  membersSig := c.aggregateSecure ((agreeing cvec).map fun qc => qc.sig)
    ((agreeing cvec).filterMap fun qc => q.members[signerIndex q qc]?.map Dmn.pubKeyOperator)
    (c.buildCommitmentHash q.params.type first.quorumHash first.validMembers first.quorumPublicKey
      first.quorumVvecHash)

def finalizeGroup (cvec : List CDKGPrematureCommitment) : Option CFinalCommitment :=
  if cvec.length < q.params.minSize then none
  else
    match cvec with
    | [] => none
    | first :: _ =>
      if (recoverQuorumSig c q cvec).isSome then some (finalCommitment c q first cvec) else none

/-- `none` when the assertion on the number of valid members fails. -/
def finalizeCommitments (s : CDKGSession) : Option (List CFinalCommitment) :=
  match q.me with
  | none => some []
  | some _ =>
    let valid := validPrematureCommitments s
    if valid.any fun qc => decide (qc.validMembers.count true < q.params.minSize) then none
    else some ((MultiMap.groupBy CDKGPrematureCommitment.validMembers valid).filterMap
      fun p => finalizeGroup c q p.2)

end

variable {c : CommitmentBls} {q : Quorum}

/-! ### The signers of a final commitment -/

theorem getElem?_foldl_set (indexes : List ℕ) (signers : List Bool) (i : ℕ) :
    (indexes.foldl (fun signers i => signers.set i true) signers)[i]? =
      signers[i]?.map fun b => b || decide (i ∈ indexes) := by
  induction indexes generalizing signers with
  | nil => simp
  | cons j indexes ih =>
    rw [List.foldl_cons, ih, List.getElem?_set]
    by_cases hij : j = i
    · subst hij
      by_cases hlt : j < signers.length
      · simp [hlt]
      · simp [hlt]
    · simp [hij, Ne.symm hij]

theorem signerBits_eq (indexes : List ℕ) :
    signerBits q indexes = (List.range q.params.size).map fun i => decide (i ∈ indexes) := by
  refine List.ext_getElem? fun i => ?_
  rw [signerBits, getElem?_foldl_set, List.getElem?_map]
  by_cases hlt : i < q.params.size
  · rw [List.getElem?_replicate_of_lt hlt, List.getElem?_range hlt]
    simp
  · rw [List.getElem?_eq_none (by simpa using hlt), List.getElem?_eq_none (by simpa using hlt)]
    rfl

variable {indexes : List ℕ}

theorem mem_signerBits {i : ℕ} (h : (signerBits q indexes)[i]? = some true) :
    i ∈ indexes := by
  rw [signerBits_eq, List.getElem?_map] at h
  obtain ⟨j, hj, hmem⟩ := Option.map_eq_some_iff.mp h
  obtain ⟨hlt, heq⟩ := List.getElem?_eq_some_iff.mp hj
  rw [List.getElem_range] at heq
  rw [heq]
  exact decide_eq_true_eq.mp hmem

theorem count_signerBits (h : ∀ i ∈ indexes, i < q.params.size) :
    (signerBits q indexes).count true = indexes.toFinset.card := by
  rw [signerBits_eq, List.count, List.countP_map, List.countP_eq_length_filter]
  have hset : ((List.range q.params.size).filter
      ((fun b => b == true) ∘ fun i => decide (i ∈ indexes))).toFinset = indexes.toFinset := by
    ext i
    simp only [List.mem_toFinset, List.mem_filter, List.mem_range, Function.comp_apply,
      beq_true, decide_eq_true_eq, and_iff_right_iff_imp]
    exact h i
  rw [← hset, List.toFinset_card_of_nodup (List.nodup_range.filter _)]

variable {cvec : List CDKGPrematureCommitment}

theorem card_signerIndex (h : ∀ qc ∈ cvec, ∃ idx, q.getMember qc.proTxHash = some idx) :
    (cvec.map (signerIndex q)).toFinset.card =
      (cvec.map fun qc => qc.proTxHash).toFinset.card := by
  have himage : (cvec.map (signerIndex q)).toFinset =
      (cvec.map fun qc => qc.proTxHash).toFinset.image fun proTxHash =>
        (q.getMember proTxHash).getD 0 := by
    ext i
    simp [signerIndex]
  rw [himage]
  refine Finset.card_image_of_injOn ?_
  intro a ha b hb hab
  obtain ⟨qa, hqa, rfl⟩ := List.mem_map.mp (List.mem_toFinset.mp ha)
  obtain ⟨qb, hqb, rfl⟩ := List.mem_map.mp (List.mem_toFinset.mp hb)
  obtain ⟨i, hi⟩ := h qa hqa
  obtain ⟨j, hj⟩ := h qb hqb
  dsimp only at hab
  rw [hi, hj, Option.getD_some, Option.getD_some] at hab
  exact Quorum.getMember_inj hi (hab ▸ hj)

variable {qc first : CDKGPrematureCommitment} {rest : List CDKGPrematureCommitment}

theorem mem_agreeing :
    qc ∈ agreeing (first :: rest) ↔ qc ∈ first :: rest ∧
      qc.quorumPublicKey = first.quorumPublicKey ∧ qc.quorumVvecHash = first.quorumVvecHash := by
  rw [agreeing, List.mem_filter, Bool.and_eq_true, decide_eq_true_eq, decide_eq_true_eq]

theorem mem_of_mem_agreeing (h : qc ∈ agreeing cvec) : qc ∈ cvec := by
  cases cvec with
  | nil => exact h
  | cons first rest => exact (mem_agreeing.mp h).1

theorem count_signers (first : CDKGPrematureCommitment)
    (h : ∀ qc ∈ cvec, ∃ idx, q.getMember qc.proTxHash = some idx) :
    (finalCommitment c q first cvec).signers.count true =
      ((agreeing cvec).map fun qc => qc.proTxHash).toFinset.card := by
  have hsender : ∀ qc ∈ agreeing cvec, ∃ idx, q.getMember qc.proTxHash = some idx := fun qc hqc =>
    h qc (mem_of_mem_agreeing hqc)
  rw [← card_signerIndex hsender]
  refine count_signerBits fun i hi => ?_
  obtain ⟨qc, hqc, rfl⟩ := List.mem_map.mp hi
  obtain ⟨idx, hidx⟩ := hsender qc hqc
  rw [signerIndex, hidx, Option.getD_some]
  exact (Quorum.getMember_lt hidx).trans_le q.fits

section

variable {p : Uint256 × CDKGPrematureCommitment}

theorem mem_emplaceCommitment {hash : Uint256} {l : List (Uint256 × CDKGPrematureCommitment)}
    (h : p ∈ emplaceCommitment hash qc l) : p = (hash, qc) ∨ p ∈ l := by
  induction l with
  | nil => exact Or.inl (List.mem_singleton.mp h)
  | cons p' rest ih =>
    rw [emplaceCommitment] at h
    split_ifs at h
    · exact List.mem_cons.mp h
    · exact Or.inr h
    · rcases List.mem_cons.mp h with rfl | h
      · exact Or.inr List.mem_cons_self
      · exact (ih h).imp_right (List.mem_cons_of_mem _)

variable {s s' : CDKGSession}

theorem receiveCommitment_stored (h : receiveCommitment c q s p.1 p.2 = some s') :
    s'.prematureCommitments = emplaceCommitment p.1 p.2 s.prematureCommitments := by
  rw [receiveCommitment] at h
  split at h
  · cases h
  · dsimp only at h
    split at h
    · cases h
    · split at h
      · cases h
        rfl
      · cases h
      · split_ifs at h
        · cases h
          rfl
        · cases h
          rfl

structure Accepted (q : Quorum) (qc : CDKGPrematureCommitment) : Prop where
  member : ∃ idx, q.getMember qc.proTxHash = some idx
  size : qc.validMembers.length = q.params.size
  validCount : q.params.minSize ≤ qc.validMembers.count true
  unused : ∀ i, q.members.length ≤ i → qc.validMembers[i]? ≠ some true

theorem accepted_of_preVerify (h : (preVerifyCommitment q s qc).1 = true) : Accepted q qc := by
  obtain ⟨-, hform, hmember⟩ := preVerify_true q s h
  simp only [Bool.and_eq_true, decide_eq_true_eq] at hform
  obtain ⟨⟨⟨⟨hsize, hcount⟩, -⟩, -⟩, hunused⟩ := hform
  refine ⟨hmember, hsize, hcount, fun i hi hbit => ?_⟩
  rw [Bool.not_eq_true', List.any_eq_false] at hunused
  refine hunused true ?_ rfl
  rw [List.mem_iff_getElem?]
  refine ⟨i - q.members.length, ?_⟩
  rw [List.getElem?_drop, Nat.add_sub_cancel' hi]
  exact hbit

def Stored (q : Quorum) (received : List (Uint256 × CDKGPrematureCommitment)) (s : CDKGSession) :
    Prop :=
  ∀ p ∈ s.prematureCommitments, p ∈ received ∧ Accepted q p.2

variable {received : List (Uint256 × CDKGPrematureCommitment)}

theorem Stored.receiveBatch {batch : List (Uint256 × CDKGPrematureCommitment)}
    (h : Stored q received s) (hrun : receiveBatch c q s batch = some s') :
    Stored q (received ++ batch) s' := by
  have hall : ∀ p ∈ batch.filter fun p => (preVerifyCommitment q s p.2).1,
      p ∈ batch ∧ Accepted q p.2 := by
    intro p hp
    obtain ⟨hmem, hpre⟩ := List.mem_filter.mp hp
    exact ⟨hmem, accepted_of_preVerify hpre⟩
  have hstart : Stored q (received ++ batch) s := fun p hp =>
    ⟨List.mem_append_left _ (h p hp).1, (h p hp).2⟩
  rw [DkgSession.receiveBatch] at hrun
  clear h
  generalize batch.filter (fun p => (preVerifyCommitment q s p.2).1) = l at hall hrun
  induction l generalizing s with
  | nil =>
    cases hrun
    exact hstart
  | cons p l ih =>
    rw [List.foldlM_cons] at hrun
    obtain ⟨t, ht, hrest⟩ := Option.bind_eq_some_iff.mp hrun
    refine ih (fun p' hp' => ?_) (fun p' hp' => hall p' (List.mem_cons_of_mem _ hp')) hrest
    rw [receiveCommitment_stored ht] at hp'
    rcases mem_emplaceCommitment hp' with rfl | hp'
    · obtain ⟨hbatch, haccepted⟩ := hall (p.1, p.2) List.mem_cons_self
      exact ⟨List.mem_append_right _ hbatch, haccepted⟩
    · exact hstart p' hp'

theorem stored_of_run {batches : List (List (Uint256 × CDKGPrematureCommitment))} {s₀ : CDKGSession}
    (h : Stored q received s₀) (hrun : batches.foldlM (receiveBatch c q) s₀ = some s) :
    Stored q (received ++ batches.flatten) s := by
  induction batches generalizing s₀ received with
  | nil =>
    cases hrun
    simpa using h
  | cons batch batches ih =>
    rw [List.foldlM_cons] at hrun
    obtain ⟨t, ht, hrest⟩ := Option.bind_eq_some_iff.mp hrun
    have hbatches := ih (h.receiveBatch ht) hrest
    rwa [List.append_assoc] at hbatches

end

section

/-- What the counts and bitset checks of `CFinalCommitment::Verify` ask for, with every signer
accounted for by a received commitment to the same key. -/
structure Signed (q : Quorum) (received : List (Uint256 × CDKGPrematureCommitment))
    (fqc : CFinalCommitment) : Prop where
  sizes : fqc.signers.length = q.params.size ∧ fqc.validMembers.length = q.params.size
  validCount : q.params.minSize ≤ fqc.validMembers.count true
  signerCount : q.params.minSize ≤ fqc.signers.count true
  sent : ∀ i, fqc.signers[i]? = some true → ∃ p ∈ received,
    q.getMember p.2.proTxHash = some i ∧ p.2.validMembers = fqc.validMembers ∧
      p.2.quorumPublicKey = fqc.quorumPublicKey ∧ p.2.quorumVvecHash = fqc.quorumVvecHash

def commitmentsTo (s : CDKGSession) (validMembers : List Bool) : List CDKGPrematureCommitment :=
  (validPrematureCommitments s).filter fun qc => decide (qc.validMembers = validMembers)

/-- Where enough valid commitments to a set of valid members are there and their signature can be
recovered, enough different members agree with the first of them. -/
def MajorityAgrees (c : CommitmentBls) (q : Quorum) (s : CDKGSession) : Prop :=
  ∀ validMembers, q.params.minSize ≤ (commitmentsTo s validMembers).length →
    (recoverQuorumSig c q (commitmentsTo s validMembers)).isSome = true →
    commitmentsTo s validMembers ≠ [] →
    q.params.minSize ≤
      ((agreeing (commitmentsTo s validMembers)).map fun qc => qc.proTxHash).toFinset.card

variable {received : List (Uint256 × CDKGPrematureCommitment)} {s : CDKGSession}
variable {validMembers : List Bool}

theorem mem_commitmentsTo (h : Stored q received s) (hqc : qc ∈ commitmentsTo s validMembers) :
    qc.validMembers = validMembers ∧ Accepted q qc ∧ ∃ p ∈ received, p.2 = qc := by
  obtain ⟨hvalid, hmembers⟩ := List.mem_filter.mp hqc
  obtain ⟨p, hp, rfl⟩ := List.mem_map.mp hvalid
  obtain ⟨hreceived, haccepted⟩ := h p (List.mem_filter.mp hp).1
  exact ⟨decide_eq_true_eq.mp hmembers, haccepted, p, hreceived, rfl⟩

theorem finalizeCommitments_eq {me : Me} (hme : q.me = some me) (h : Stored q received s) :
    finalizeCommitments c q s =
      some ((MultiMap.groupBy CDKGPrematureCommitment.validMembers
        (validPrematureCommitments s)).filterMap fun p => finalizeGroup c q p.2) := by
  rw [finalizeCommitments, hme]
  dsimp only
  refine if_neg ?_
  rw [List.any_eq_true]
  rintro ⟨qc, hqc, hlt⟩
  obtain ⟨p, hp, rfl⟩ := List.mem_map.mp hqc
  have hcount := (h p (List.mem_filter.mp hp).1).2.validCount
  exact absurd (decide_eq_true_eq.mp hlt) (not_lt.mpr hcount)

theorem mem_finalCommitments {fqc : CFinalCommitment} :
    fqc ∈ (MultiMap.groupBy CDKGPrematureCommitment.validMembers
        (validPrematureCommitments s)).filterMap (fun p => finalizeGroup c q p.2) ↔
      ∃ validMembers first rest, commitmentsTo s validMembers = first :: rest ∧
        q.params.minSize ≤ (first :: rest).length ∧
        (recoverQuorumSig c q (first :: rest)).isSome = true ∧
        fqc = finalCommitment c q first (first :: rest) := by
  rw [List.mem_filterMap]
  constructor
  · rintro ⟨⟨validMembers, cvec⟩, hgroup, hfinal⟩
    obtain ⟨-, hcvec⟩ := MultiMap.mem_groupBy.mp hgroup
    cases cvec with
    | nil =>
      rw [finalizeGroup] at hfinal
      split_ifs at hfinal
    | cons first rest =>
      rw [finalizeGroup] at hfinal
      split_ifs at hfinal with hsmall hrecover
      rw [Option.some.injEq] at hfinal
      exact ⟨validMembers, first, rest, hcvec.symm, not_lt.mp hsmall, hrecover, hfinal.symm⟩
  · rintro ⟨validMembers, first, rest, hcvec, hsize, hrecover, rfl⟩
    refine ⟨(validMembers, first :: rest), ?_, ?_⟩
    · exact MultiMap.mem_groupBy.mpr ⟨List.cons_ne_nil _ _, hcvec.symm⟩
    · unfold finalizeGroup
      rw [if_neg (not_lt.mpr hsize)]
      exact if_pos hrecover

theorem finalCommitment_signed_iff (h : Stored q received s)
    (hcvec : commitmentsTo s validMembers = first :: rest) :
    Signed q received (finalCommitment c q first (first :: rest)) ↔
      q.params.minSize ≤
        ((agreeing (first :: rest)).map fun qc => qc.proTxHash).toFinset.card := by
  have hmem : ∀ qc ∈ first :: rest, qc.validMembers = validMembers ∧ Accepted q qc ∧
      ∃ p ∈ received, p.2 = qc := fun qc hqc => mem_commitmentsTo h (hcvec ▸ hqc)
  obtain ⟨hfirst, haccepted, -⟩ := hmem first List.mem_cons_self
  have hcount := count_signers (c := c) first fun qc hqc => (hmem qc hqc).2.1.member
  constructor
  · intro hsigned
    exact hcount ▸ hsigned.signerCount
  · intro hle
    refine ⟨⟨?_, haccepted.size⟩, haccepted.validCount, hcount.symm ▸ hle, fun i hi => ?_⟩
    · rw [finalCommitment, signerBits_eq, List.length_map, List.length_range]
    · obtain ⟨qc, hqc, rfl⟩ := List.mem_map.mp (mem_signerBits hi)
      obtain ⟨hgroup, hkey, hhash⟩ := mem_agreeing.mp hqc
      obtain ⟨hvalid, ⟨⟨idx, hidx⟩, -, -, -⟩, p, hp, rfl⟩ := hmem qc hgroup
      refine ⟨p, hp, ?_, hvalid.trans hfirst.symm, hkey, hhash⟩
      rw [signerIndex, hidx, Option.getD_some]

/-- After any run of batches the assertion holds, and every final commitment has enough signers of
its key exactly when enough members agree wherever enough commitments were counted. -/
theorem finalizeCommitments_signed_iff (c : CommitmentBls) (q : Quorum) (me : Me)
    (hme : q.me = some me) (s₀ s : CDKGSession) (start : s₀.prematureCommitments = [])
    (batches : List (List (Uint256 × CDKGPrematureCommitment)))
    (hrun : batches.foldlM (receiveBatch c q) s₀ = some s) :
    (∃ l, finalizeCommitments c q s = some l ∧ ∀ fqc ∈ l, Signed q batches.flatten fqc) ↔
      MajorityAgrees c q s := by
  have hstored : Stored q batches.flatten s := by
    have hempty : Stored q [] s₀ := fun p hp => absurd (start ▸ hp) List.not_mem_nil
    simpa using stored_of_run hempty hrun
  rw [finalizeCommitments_eq hme hstored]
  simp only [Option.some.injEq, exists_eq_left']
  constructor
  · intro hall validMembers hsize hrecover hne
    obtain ⟨first, rest, hcvec⟩ := List.exists_cons_of_ne_nil hne
    rw [hcvec] at hsize hrecover ⊢
    refine (finalCommitment_signed_iff (c := c) hstored hcvec).mp (hall _ ?_)
    exact mem_finalCommitments.mpr ⟨validMembers, first, rest, hcvec, hsize, hrecover, rfl⟩
  · intro hagree fqc hfqc
    obtain ⟨validMembers, first, rest, hcvec, hsize, hrecover, rfl⟩ :=
      mem_finalCommitments.mp hfqc
    have hmajority := hagree validMembers
    rw [hcvec] at hmajority
    exact (finalCommitment_signed_iff hstored hcvec).mpr
      (hmajority hsize hrecover (List.cons_ne_nil _ _))

def toyBls : CommitmentBls where
  buildQuorumVerificationVector vvecs := vvecs.foldr (fun vvec rest => rest.bind fun _ => vvec) none
  serializeHash _ := 0
  buildPubKeyShare _ _ := some 1
  verifyInsecure _ _ _ := true
  buildCommitmentHash _ _ _ _ _ := 0
  aggregateSecure sigs _ _ := sigs.head?.join
  recover sigs _ := sigs.head?.join

def toyCommitments (vvecHash vvecHash' : Uint256) :
    List (Uint256 × CDKGPrematureCommitment) :=
  [(40, ⟨1, 1, 11, [true, true, true], some 7, vvecHash, some 1, some 1⟩),
    (41, ⟨1, 1, 12, [true, true, true], some 7, vvecHash', some 2, some 2⟩)]

def toyCommitted (vvecHash vvecHash' : Uint256) : CDKGSession :=
  ([toyCommitments vvecHash vvecHash'].foldlM (receiveBatch toyBls toyQuorum)
    toyContributed).getD .new

theorem finalizeCommitments_signed_sameVvec :
    [toyCommitments 5 5].foldlM (receiveBatch toyBls toyQuorum) toyContributed =
        some (toyCommitted 5 5) ∧
      MajorityAgrees toyBls toyQuorum (toyCommitted 5 5) ∧
      ∃ l, finalizeCommitments toyBls toyQuorum (toyCommitted 5 5) = some l ∧
        ∀ fqc ∈ l, Signed toyQuorum (toyCommitments 5 5) fqc := by
  have hrun : [toyCommitments 5 5].foldlM (receiveBatch toyBls toyQuorum)
      toyContributed = some (toyCommitted 5 5) := rfl
  have hvalid : validPrematureCommitments (toyCommitted 5 5) =
      (toyCommitments 5 5).map Prod.snd := rfl
  have hmajority : MajorityAgrees toyBls toyQuorum (toyCommitted 5 5) := by
    intro validMembers hsize hrecover hne
    have hall : commitmentsTo (toyCommitted 5 5) validMembers =
        (toyCommitments 5 5).map Prod.snd := by
      rw [commitmentsTo, hvalid] at hne ⊢
      by_cases heq : [true, true, true] = validMembers
      · rw [← heq]
        rfl
      · exact absurd (by simp [toyCommitments, heq]) hne
    rw [hall]
    decide +kernel
  exact ⟨hrun, hmajority, (finalizeCommitments_signed_iff toyBls toyQuorum ⟨0, 10⟩ rfl
    toyContributed _ rfl [toyCommitments 5 5] hrun).mpr hmajority⟩

/-- Two commitments to different verification vectors count as two for the minimum of two signers,
and the final commitment has one. -/
theorem finalizeCommitments_oneSigner :
    (([toyCommitments 5 6].foldlM (receiveBatch toyBls toyQuorum)
        toyContributed).bind (finalizeCommitments toyBls toyQuorum)).map
          (List.map fun fqc => (fqc.signers, fqc.quorumVvecHash)) =
      some [([false, true, false], 5)] ∧
    [false, true, false].count true < toyQuorum.params.minSize := by
  decide +kernel

end

end ButCore.Llmq.DkgSession
