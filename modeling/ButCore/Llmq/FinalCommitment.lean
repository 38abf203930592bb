import ButCore.Evo.BuildSafety
import ButCore.Lib.Traced

/-!
# Final commitments

`Verify`, `VerifyNull` and the code that indexes the two bitsets of a commitment, with a record of
the bits that are read.
-/
namespace ButCore.Llmq.FinalCommitment

open ButCore.Evo CDeterministicMNList Traced

inductive BitRead where
  | signers (i : ℕ)
  | validMembers (i : ℕ)
  deriving DecidableEq

def BitRead.InRange (qc : CFinalCommitment) : BitRead → Prop
  | signers i => i < qc.signers.length
  | validMembers i => i < qc.validMembers.length

structure Signatures where
  buildCommitmentHash : CFinalCommitment → Uint256
  verifySecureAggregated : CBLSSignature → List CBLSPublicKey → Uint256 → Bool
  verifyInsecure : CBLSSignature → CBLSPublicKey → Uint256 → Bool

section

variable (env : Env) (sigs : Signatures) (qc : CFinalCommitment)

def readSigner (i : ℕ) : Traced BitRead Bool := emit (.signers i) (readBit env qc.signers i)

def readValidMember (i : ℕ) : Traced BitRead Bool :=
  emit (.validMembers i) (readBit env qc.validMembers i)

def unusedBitsClear : List ℕ → Traced BitRead Bool
  | [] => pure true
  | i :: rest => do
    if ← readValidMember env qc i then pure false
    else if ← readSigner env qc i then pure false
    else unusedBitsClear rest

def collectKey (memberPubKeys : List CBLSPublicKey) (member : CDeterministicMN × ℕ) :
    Traced BitRead (List CBLSPublicKey) := do
  if ← readSigner env qc member.2 then pure (memberPubKeys ++ [member.1.pdmnState.pubKeyOperator])
  else pure memberPubKeys

def verifySigs (members : List CDeterministicMN) : Traced BitRead Bool := do
  let commitmentHash := sigs.buildCommitmentHash qc
  let memberPubKeys ← members.zipIdx.foldlM (collectKey env qc) []
  pure (sigs.verifySecureAggregated qc.membersSig memberPubKeys commitmentHash &&
    sigs.verifyInsecure qc.quorumSig qc.quorumPublicKey commitmentHash)

def verifyFields (params : LLMQParams) : Bool :=
  decide (params.minSize ≤ qc.validMembers.count true) &&
    decide (params.minSize ≤ qc.signers.count true) &&
    qc.quorumPublicKey.isSome && decide (qc.quorumVvecHash ≠ 0) &&
    qc.membersSig.isSome && qc.quorumSig.isSome

def verifyBits (params : LLMQParams) (members : List CDeterministicMN) (checkSigs : Bool) :
    Traced BitRead Bool := do
  if ← unusedBitsClear env qc (List.range' members.length (params.size - members.length)) then
    if checkSigs then verifySigs env sigs qc members else pure true
  else pure false

def verify (members : List CDeterministicMN) (checkSigs : Bool) : Traced BitRead Bool :=
  if qc.nVersion = 0 ∨ 1 < qc.nVersion then pure false
  else
    match env.llmqs qc.llmqType with
    | none => pure false
    | some params =>
      if verifySizes qc params = false then pure false
      else if verifyFields qc params = false then pure false
      else verifyBits env sigs qc params members checkSigs

def verifyNull : Bool :=
  match env.llmqs qc.llmqType with
  | none => false
  | some params => isNullCommitment qc && verifySizes qc params

end

section

variable (env : Env) (qc : CFinalCommitment)

/-- `PoSePunish` is what one round of the loop of `HandleQuorumCommitment` may do. -/
def punishRound (list : Except Fault CDeterministicMNList) (member : Uint256 × ℕ) :
    Traced BitRead (Except Fault CDeterministicMNList) :=
  match list with
  | .error e => pure (.error e)
  | .ok list =>
    if list.hasMN member.1 = false then pure (.ok list)
    else do
      if ← readValidMember env qc member.2 then pure (.ok list)
      else pure (do list.poSePunish member.1 (← list.calcPenalty 66))

def handleQuorumCommitmentT (members : List Uint256) (list : CDeterministicMNList) :
    Traced BitRead (Except Fault CDeterministicMNList) :=
  members.zipIdx.foldlM (punishRound env qc) (.ok list)

structure CQuorum where
  members : List CDeterministicMN
  quorumVvec : Option (List CBLSPublicKey)
  buildPubKeyShare : Uint256 → List CBLSPublicKey → CBLSPublicKey

def isValidMember (quorum : CQuorum) (proTxHash : Uint256) : Traced BitRead Bool :=
  match quorum.members.findIdx? fun dmn => dmn.proTxHash == proTxHash with
  | none => pure false
  | some i => readValidMember env qc i

def getPubKeyShare (quorum : CQuorum) (memberIdx : ℕ) : Traced BitRead CBLSPublicKey :=
  match quorum.quorumVvec, quorum.members[memberIdx]? with
  | some quorumVvec, some m => do
    if ← readValidMember env qc memberIdx then pure (quorum.buildPubKeyShare m.proTxHash quorumVvec)
    else pure none
  | _, _ => pure none

end

variable {params : LLMQParams}

section

variable {env : Env} {sigs : Signatures} {qc : CFinalCommitment}

theorem value_unusedBitsClear (l : List ℕ) :
    (unusedBitsClear env qc l).value =
      l.all fun i => !readBit env qc.validMembers i && !readBit env qc.signers i := by
  induction l with
  | nil => rfl
  | cons i rest ih =>
    rw [unusedBitsClear, value_bind, List.all_cons, ← ih]
    cases hv : readBit env qc.validMembers i <;> cases hs : readBit env qc.signers i <;>
      simp [readValidMember, readSigner, hv, hs]

theorem value_verify (hparams : env.llmqs qc.llmqType = some params)
    (members : List CDeterministicMN) (checkSigs : Bool) :
    (verify env sigs qc members checkSigs).value =
      (decide (qc.nVersion = 1) && (verifySizes qc params && (verifyFields qc params &&
        (verifyBits env sigs qc params members checkSigs).value))) := by
  simp only [verify, hparams]
  by_cases hversion : qc.nVersion = 1
  · rw [if_neg (by omega)]
    cases verifySizes qc params <;> cases verifyFields qc params <;> simp [hversion]
  · rw [if_pos (by omega)]
    simp [hversion]

theorem value_verify_false (members : List CDeterministicMN) :
    (verify env sigs qc members false).value =
      verifyCommitment env qc (members.map CDeterministicMN.proTxHash) := by
  cases hparams : env.llmqs qc.llmqType with
  | none =>
    simp only [verify, verifyCommitment, hparams]
    split <;> simp
  | some params =>
    have hbits : (verifyBits env sigs qc params members false).value =
        (unusedBitsClear env qc
          (List.range' members.length (params.size - members.length))).value := by
      rw [verifyBits, value_bind]
      split <;> simp_all
    simp only [value_verify hparams, hbits, value_unusedBitsClear, verifyCommitment, hparams,
      verifyFields, Bool.and_assoc, List.length_map]

theorem value_handleQuorumCommitmentT (list : CDeterministicMNList) :
    (handleQuorumCommitmentT env qc (env.getAllQuorumMembers qc.llmqType qc.quorumHash) list).value =
      handleQuorumCommitment env qc list := by
  unfold handleQuorumCommitmentT handleQuorumCommitment
  generalize (env.getAllQuorumMembers qc.llmqType qc.quorumHash).zipIdx = l
  have stopped : ∀ (l : List (Uint256 × ℕ)) (e : Fault),
      (l.foldlM (punishRound env qc) (.error e)).value = .error e := by
    intro l e
    induction l with
    | nil => rfl
    | cons member l ih => exact ih
  induction l generalizing list with
  | nil => rfl
  | cons member l ih =>
    rw [List.foldlM_cons, List.foldlM_cons, value_bind]
    have hround : (punishRound env qc (.ok list) member).value = punishMember env qc list member := by
      simp only [punishRound, punishMember]
      by_cases hmn : list.hasMN member.1 = false
      · rw [if_pos hmn, if_pos hmn]
        rfl
      · rw [if_neg hmn, if_neg hmn]
        cases hbit : readBit env qc.validMembers member.2 with
        | false => simp [readValidMember, hbit]
        | true =>
          simp only [readValidMember, hbit, value_bind, value_emit, if_true]
          rfl
    rw [hround]
    cases punishMember env qc list member with
    | error e => exact stopped l e
    | ok list' => exact ih list'

end

variable {members : List CDeterministicMN}

section

variable {env : Env} {sigs : Signatures} {qc : CFinalCommitment} {size : ℕ}

structure Sized (qc : CFinalCommitment) (size : ℕ) : Prop where
  signers : qc.signers.length = size
  validMembers : qc.validMembers.length = size

variable {i : ℕ}

theorem Sized.readSigner (sized : Sized qc size) (hi : i < size) :
    Within (BitRead.InRange qc) (readSigner env qc i) :=
  within_emit _ (show i < qc.signers.length from sized.signers ▸ hi)

theorem Sized.readValidMember (sized : Sized qc size) (hi : i < size) :
    Within (BitRead.InRange qc) (readValidMember env qc i) :=
  within_emit _ (show i < qc.validMembers.length from sized.validMembers ▸ hi)

theorem Sized.unusedBitsClear (sized : Sized qc size) {l : List ℕ} (hl : ∀ i ∈ l, i < size) :
    Within (BitRead.InRange qc) (unusedBitsClear env qc l) := by
  induction l with
  | nil => exact within_pure true
  | cons i rest ih =>
    rw [List.forall_mem_cons] at hl
    apply (sized.readValidMember hl.1).bind
    refine within_ite (fun _ => within_pure false) ?_
    intro _
    apply (sized.readSigner hl.1).bind
    exact within_ite (fun _ => within_pure false) (fun _ => ih hl.2)

theorem lt_of_mem_zipIdx {α : Type} {l : List α} {p : α × ℕ} (hp : p ∈ l.zipIdx)
    (hl : l.length ≤ size) : p.2 < size :=
  (List.snd_lt_of_mem_zipIdx hp).trans_le hl

theorem Sized.verifySigs (sized : Sized qc size) (hmembers : members.length ≤ size) :
    Within (BitRead.InRange qc) (verifySigs env sigs qc members) := by
  unfold FinalCommitment.verifySigs
  refine Within.bind ?_ (within_pure _)
  apply within_foldlM
  intro keys member hmember
  apply (sized.readSigner (lt_of_mem_zipIdx hmember hmembers)).bind
  exact within_ite (fun _ => within_pure _) (fun _ => within_pure _)

theorem Sized.verify (sized : Sized qc params.size) (hparams : env.llmqs qc.llmqType = some params)
    (hmembers : members.length ≤ params.size) (checkSigs : Bool) :
    Within (BitRead.InRange qc) (verify env sigs qc members checkSigs) := by
  unfold FinalCommitment.verify
  refine within_ite (fun _ => within_pure false) ?_
  intro _
  simp only [hparams]
  refine within_ite (fun _ => within_pure false) ?_
  intro _
  refine within_ite (fun _ => within_pure false) ?_
  intro _
  apply (sized.unusedBitsClear ?_).bind
  · refine within_ite ?_ (fun _ => within_pure false)
    intro _
    exact within_ite (fun _ => sized.verifySigs hmembers) (fun _ => within_pure true)
  · intro i hi
    rw [List.mem_range'_1] at hi
    omega

theorem Sized.handleQuorumCommitmentT (sized : Sized qc size) {members : List Uint256}
    (hmembers : members.length ≤ size) (list : CDeterministicMNList) :
    Within (BitRead.InRange qc) (handleQuorumCommitmentT env qc members list) := by
  apply within_foldlM
  intro list member hmember
  cases list with
  | error e => exact within_pure _
  | ok list =>
    refine within_ite (fun _ => within_pure _) ?_
    intro _
    apply (sized.readValidMember (lt_of_mem_zipIdx hmember hmembers)).bind
    exact within_ite (fun _ => within_pure _) (fun _ => within_pure _)

variable {quorum : CQuorum}

theorem Sized.isValidMember (sized : Sized qc size) (hmembers : quorum.members.length ≤ size)
    (proTxHash : Uint256) :
    Within (BitRead.InRange qc) (isValidMember env qc quorum proTxHash) := by
  unfold FinalCommitment.isValidMember
  split
  · exact within_pure false
  · next i hi =>
      obtain ⟨hlt, -⟩ := List.findIdx?_eq_some_iff_getElem.mp hi
      exact sized.readValidMember (hlt.trans_le hmembers)

theorem Sized.getPubKeyShare (sized : Sized qc size) (hmembers : quorum.members.length ≤ size)
    (memberIdx : ℕ) :
    Within (BitRead.InRange qc) (getPubKeyShare env qc quorum memberIdx) := by
  unfold FinalCommitment.getPubKeyShare
  split
  · next m hvvec hm =>
      obtain ⟨hlt, -⟩ := List.getElem?_eq_some_iff.mp hm
      apply (sized.readValidMember (hlt.trans_le hmembers)).bind
      exact within_ite (fun _ => within_pure _) (fun _ => within_pure _)
  · exact within_pure none

end

/-- What an accepted commitment is relied upon for. -/
structure SafeToIndex (env : Env) (sigs : Signatures) (qc : CFinalCommitment) (params : LLMQParams)
    (members : List CDeterministicMN) (checkSigs : Bool) : Prop where
  sized : Sized qc params.size
  verify : Within (BitRead.InRange qc) (verify env sigs qc members checkSigs)
  punish : ∀ list, Within (BitRead.InRange qc)
    (handleQuorumCommitmentT env qc (members.map CDeterministicMN.proTxHash) list)
  isValidMember : ∀ vvec build proTxHash, Within (BitRead.InRange qc)
    (isValidMember env qc ⟨members, vvec, build⟩ proTxHash)
  getPubKeyShare : ∀ vvec build memberIdx, Within (BitRead.InRange qc)
    (getPubKeyShare env qc ⟨members, vvec, build⟩ memberIdx)

theorem Sized.safeToIndex {env : Env} (sigs : Signatures) {qc : CFinalCommitment}
    (sized : Sized qc params.size) (hparams : env.llmqs qc.llmqType = some params)
    (hmembers : members.length ≤ params.size) (checkSigs : Bool) :
    SafeToIndex env sigs qc params members checkSigs where
  sized := sized
  verify := sized.verify hparams hmembers checkSigs
  punish := sized.handleQuorumCommitmentT (by rwa [List.length_map])
  isValidMember _ _ := sized.isValidMember hmembers
  getPubKeyShare _ _ := sized.getPubKeyShare hmembers

/-- A wrong size of `signers` is reported and let through: the commitment is then accepted when it
is null, or when it passes the checks of `Verify` that do not look at the sizes. -/
theorem verify_safeToIndex_iff (env : Env) (sigs : Signatures) (qc : CFinalCommitment)
    (params : LLMQParams) (members : List CDeterministicMN) (checkSigs : Bool)
    (hparams : env.llmqs qc.llmqType = some params) (hmembers : members.length ≤ params.size) :
    ((verify env sigs qc members checkSigs).value = true ∨ verifyNull env qc = true →
        SafeToIndex env sigs qc params members checkSigs) ↔
      qc.signers.length = params.size ∨
      isNullCommitment qc = false ∧
        ¬ (qc.nVersion = 1 ∧ verifyFields qc params = true ∧
          (verifyBits env sigs qc params members checkSigs).value = true) := by
  have hnull : verifyNull env qc = (isNullCommitment qc && verifySizes qc params) := by
    simp only [verifyNull, hparams]
  have hverify : (verify env sigs qc members checkSigs).value = true ↔
      qc.nVersion = 1 ∧ verifySizes qc params = true ∧ verifyFields qc params = true ∧
        (verifyBits env sigs qc params members checkSigs).value = true := by
    simp only [value_verify hparams, Bool.and_eq_true, decide_eq_true_eq]
  rw [hverify, hnull]
  by_cases hsigners : qc.signers.length = params.size
  · refine iff_of_true ?_ (Or.inl hsigners)
    intro haccepted
    have hsizes : verifySizes qc params = true := by
      rcases haccepted with h | h
      · exact h.2.1
      · exact (Bool.and_eq_true_iff.mp h).2
    rw [verifySizes, if_neg (not_not.mpr hsigners), decide_eq_true_eq] at hsizes
    exact Sized.safeToIndex sigs ⟨hsigners, hsizes⟩ hparams hmembers checkSigs
  · have hsizes : verifySizes qc params = true := if_pos hsigners
    have notSafe : ¬ SafeToIndex env sigs qc params members checkSigs :=
      fun h => hsigners h.sized.signers
    simp only [hsizes, hsigners, notSafe, imp_false, not_or, true_and, Bool.and_true, false_or,
      Bool.not_eq_true]
    exact and_comm

def toyParams : LLMQParams := ⟨50, 40, 24⟩

def toyQuorumOf50 : Env := { toyEnv with llmqs := fun _ => some toyParams }

def toySigs : Signatures := ⟨fun _ => 0, fun _ _ _ => true, fun _ _ _ => true⟩

def toyNull (size : ℕ) : CFinalCommitment :=
  ⟨1, 1, 0, List.replicate size false, List.replicate size false, none, 0, none, none⟩

def toySigned (size : ℕ) : CFinalCommitment :=
  ⟨1, 1, 0, List.replicate size true, List.replicate size true, some 1, 1, some 1, some 1⟩

theorem verify_safeToIndex_signedBy50 :
    (verify toyQuorumOf50 toySigs (toySigned 50) (List.replicate 50 (toyMN 1 0)) true).value = true ∧
      SafeToIndex toyQuorumOf50 toySigs (toySigned 50) toyParams (List.replicate 50 (toyMN 1 0))
        true := by
  have haccepted : (verify toyQuorumOf50 toySigs (toySigned 50) (List.replicate 50 (toyMN 1 0))
      true).value = true := by
    decide +kernel
  exact ⟨haccepted, (verify_safeToIndex_iff toyQuorumOf50 toySigs (toySigned 50) toyParams
    (List.replicate 50 (toyMN 1 0)) true rfl (by decide)).mpr (Or.inl (by decide)) (Or.inl haccepted)⟩

abbrev toyShort : CFinalCommitment := toySigned 40

/-- A null commitment with empty bitsets is accepted, and so is one with short bitsets, after a
read past the end of both. -/
theorem verify_accepts_wrongSizes :
    verifyNull toyQuorumOf50 (toyNull 0) = true ∧ (toyNull 0).signers.length ≠ toyParams.size ∧
      (verify toyQuorumOf50 toySigs toyShort (List.replicate 40 (toyMN 1 0)) true).value = true ∧
      toyShort.signers.length ≠ toyParams.size ∧ toyShort.validMembers.length ≠ toyParams.size ∧
      ¬ Within (BitRead.InRange toyShort)
        (verify toyQuorumOf50 toySigs toyShort (List.replicate 40 (toyMN 1 0)) true) := by
  refine ⟨by decide, by decide, by decide +kernel, by decide, by decide, ?_⟩
  intro within
  have hread : BitRead.validMembers 40 ∈
      (verify toyQuorumOf50 toySigs toyShort (List.replicate 40 (toyMN 1 0)) true).trace := by
    decide +kernel
  exact absurd (within _ hread) (by decide +kernel : ¬ 40 < toyShort.validMembers.length)

end ButCore.Llmq.FinalCommitment
