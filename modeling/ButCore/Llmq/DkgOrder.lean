import ButCore.Llmq.DkgSession

/-!
# The verdict of a DKG session does not depend on the order of its messages

Contributions do not commute as they stand, because their shares wait for a batch; they do once
every waiting share is taken as verified.
-/
namespace ButCore.Llmq.DkgSession

open Deliveries

inductive ContributionEvent where
  | receive (hash : Uint256) (qc : CDKGContribution)
  | verifyPending

def ContributionEvent.message : ContributionEvent → Option (Uint256 × CDKGContribution)
  | receive hash qc => some (hash, qc)
  | verifyPending => none

/-- Besides the batches of 32, the pending shares may be verified at any time. -/
def contributionStep (w : CBLSWorker) (q : Quorum) (s : CDKGSession) :
    ContributionEvent → Option CDKGSession
  | .receive hash qc => receiveContribution w q s hash qc
  | .verifyPending =>
    match q.me with
    | none => some s
    | some me => some (verifyPendingContributions w me s)

structure Outcome where
  complaint : Option CDKGComplaint
  justifyFor : List Uint256
  badMembers : List ℕ
  validMembers : List Bool
  deriving DecidableEq

section

variable (w : CBLSWorker) (q : Quorum)

def badMembers (s : CDKGSession) : List ℕ :=
  (List.range q.members.length).filter fun i => (s.members i).bad

def justifyPhase (s : CDKGSession) (justifications : List (Uint256 × CDKGJustification)) :
    Option CDKGSession :=
  (justifications.foldlM (fun s p => receiveJustification w q s p.1 p.2) s).map (verifyAndCommit q)

def complainPhase (s : CDKGSession) (complaints : List (Uint256 × CDKGComplaint)) :
    Option (CDKGSession × List Uint256) :=
  (complaints.foldlM (fun s p => receiveComplaint q s p.1 p.2) s).map (verifyAndJustify q)

def conclude (complaints : List (Uint256 × CDKGComplaint))
    (justifications : List (Uint256 × CDKGJustification)) (s : CDKGSession) : Option Outcome :=
  let complained := verifyAndComplain w q s
  (complainPhase q complained.1 complaints).bind fun justified =>
    (justifyPhase w q justified.1 justifications).map fun s =>
      ⟨complained.2, justified.2, badMembers q s, validMembers q s⟩

def runSession (contributions : List ContributionEvent)
    (complaints : List (Uint256 × CDKGComplaint))
    (justifications : List (Uint256 × CDKGJustification)) : Option Outcome :=
  (contributions.foldlM (contributionStep w q) .new).bind (conclude w q complaints justifications)

end

variable {w : CBLSWorker} {q : Quorum}

@[simp] theorem setMember_members (s : CDKGSession) (idx : ℕ) (m : CDKGMember) :
    (s.setMember idx m).members = Function.update s.members idx m := rfl

variable {i j : ℕ}

theorem setMember_comm (s : CDKGSession) (h : i ≠ j) (a b : CDKGMember) :
    (s.setMember i a).setMember j b = (s.setMember j b).setMember i a := by
  rw [CDKGSession.setMember, setMember_members, Function.update_comm h]
  rfl

/-! ### Contributions -/

variable {s : CDKGSession}

section

theorem foldl_update_apply {β : Type} (v : ℕ → β) (l : List ℕ) (f : ℕ → β) (i : ℕ) :
    (l.foldl (fun f i => Function.update f i (v i)) f) i = if i ∈ l then v i else f i := by
  induction l generalizing f with
  | nil => rfl
  | cons j l ih =>
    rw [List.foldl_cons, ih]
    by_cases hij : i = j
    · subst hij
      simp
    · simp [hij]

variable (w) in
/-- A waiting share is verified unless the member is bad or already complained about. -/
def CDKGMember.verified (m : CDKGMember) (me : Me) : CDKGMember :=
  if m.bad || m.weComplain then m else m.recordShare w me

theorem verifyPending_members (me : Me) (s : CDKGSession) (i : ℕ) :
    (verifyPendingContributions w me s).members i =
      if i ∈ s.pendingContributionVerifications then (s.members i).verified w me
      else s.members i := by
  rw [verifyPendingContributions]
  dsimp only
  rw [foldl_update_apply fun i => (s.members i).recordShare w me]
  rw [CDKGMember.verified]
  by_cases hpend : i ∈ s.pendingContributionVerifications
  · cases hbad : (s.members i).bad <;> cases hwe : (s.members i).weComplain <;>
      simp [hpend, hbad, hwe]
  · simp [hpend]

variable (w q) in
def settle (s : CDKGSession) : CDKGSession :=
  match q.me with
  | none => s
  | some me => verifyPendingContributions w me s

variable {me : Me}

theorem settle_some (hme : q.me = some me) (s : CDKGSession) :
    settle w q s = verifyPendingContributions w me s := by
  rw [settle, hme]

theorem settle_verifyPending (hme : q.me = some me) (s : CDKGSession) :
    settle w q (verifyPendingContributions w me s) = settle w q s := by
  rw [settle_some hme, settle_some hme]
  rfl

variable {idx : ℕ}

theorem settle_members_of_not_pending (h : idx ∉ s.pendingContributionVerifications) :
    (settle w q s).members idx = s.members idx := by
  rw [settle]
  split
  · rfl
  · rw [verifyPending_members, if_neg h]

theorem settle_setMember (m : CDKGMember) (h : idx ∉ s.pendingContributionVerifications) :
    settle w q (s.setMember idx m) = (settle w q s).setMember idx m := by
  cases hme : q.me with
  | none =>
    rw [settle, settle, hme]
  | some me =>
    rw [settle_some hme, settle_some hme]
    refine CDKGSession.ext (funext fun i => ?_) rfl rfl rfl
    rw [verifyPending_members, setMember_members, setMember_members]
    by_cases hi : i = idx
    · subst hi
      rw [Function.update_self, Function.update_self]
      exact if_neg h
    · rw [Function.update_of_ne hi, Function.update_of_ne hi, verifyPending_members]
      rfl

theorem settle_push (hme : q.me = some me) (m : CDKGMember)
    (h : idx ∉ s.pendingContributionVerifications) :
    settle w q { s.setMember idx m with
        pendingContributionVerifications := s.pendingContributionVerifications ++ [idx] } =
      (settle w q s).setMember idx (m.verified w me) := by
  rw [settle_some hme, settle_some hme]
  refine CDKGSession.ext (funext fun i => ?_) rfl rfl rfl
  rw [verifyPending_members, setMember_members]
  dsimp only
  rw [setMember_members]
  by_cases hi : i = idx
  · subst hi
    rw [Function.update_self, Function.update_self]
    exact if_pos (List.mem_append_right _ (List.mem_singleton_self i))
  · rw [Function.update_of_ne hi, Function.update_of_ne hi, verifyPending_members]
    simp only [List.mem_append, List.mem_singleton, hi, or_false]

variable (w q) in
/-- What a contribution makes of its sender when its share does not wait. -/
def CDKGMember.receiveContribution (m : CDKGMember) (p : Uint256 × CDKGContribution) :
    CDKGMember :=
  if 2 ≤ m.contributions.card then m
  else
    let m := { m with contributions := insert p.1 m.contributions }
    if 1 < m.contributions.card then m.markBad
    else
      let m := { m with receivedVvec := some p.2.vvec }
      match q.me with
      | none => m
      | some me =>
        let m := { m with verifiedVvec := some p.2.vvec }
        match w.decrypt p.2.contributions me.idx with
        | none => { m with weComplain := true }
        | some sk => { m with receivedSkContribution := sk }.verified w me

variable (w q) in
def contribute (t : CDKGSession) (p : Uint256 × CDKGContribution) : Option CDKGSession :=
  (q.getMember p.2.proTxHash).map fun idx =>
    t.setMember idx ((t.members idx).receiveContribution w q p)

def NotPending (q : Quorum) (s : CDKGSession) (proTxHash : Uint256) : Prop :=
  ∀ idx, q.getMember proTxHash = some idx → idx ∉ s.pendingContributionVerifications

theorem receiveContribution_settle (s : CDKGSession) (p : Uint256 × CDKGContribution)
    (fresh : NotPending q s p.2.proTxHash) :
    (receiveContribution w q s p.1 p.2).map (settle w q) = contribute w q (settle w q s) p := by
  rw [receiveContribution, contribute]
  cases hidx : q.getMember p.2.proTxHash with
  | none => rfl
  | some idx =>
    have hpend := fresh idx hidx
    rw [Option.map_some, settle_members_of_not_pending hpend]
    dsimp only
    rw [CDKGMember.receiveContribution]
    by_cases htwo : 2 ≤ (s.members idx).contributions.card
    · rw [if_pos htwo, if_pos htwo, Option.map_some, ← settle_setMember _ hpend]
      rw [CDKGSession.setMember, Function.update_eq_self]
    · rw [if_neg htwo, if_neg htwo]
      dsimp only
      by_cases hmany : 1 < (insert p.1 (s.members idx).contributions).card
      · rw [if_pos hmany, if_pos hmany, Option.map_some, settle_setMember _ hpend]
      · rw [if_neg hmany, if_neg hmany]
        cases hme : q.me with
        | none =>
          dsimp only
          rw [Option.map_some, settle_setMember _ hpend]
        | some me =>
          dsimp only
          cases hdec : w.decrypt p.2.contributions me.idx with
          | none =>
            dsimp only
            rw [Option.map_some, settle_setMember _ hpend]
          | some sk =>
            dsimp only
            rw [← settle_push hme _ hpend]
            split_ifs
            · rw [Option.map_some, settle_verifyPending hme]
            · rfl

theorem receiveContribution_pending {s' : CDKGSession} {hash : Uint256} {qc : CDKGContribution}
    (h : receiveContribution w q s hash qc = some s') (hi : i ∈ s'.pendingContributionVerifications) :
    i ∈ s.pendingContributionVerifications ∨ q.getMember qc.proTxHash = some i := by
  rw [receiveContribution] at h
  split at h
  · cases h
  · next idx hidx =>
      dsimp only at h
      split at h
      · cases h
        exact Or.inl hi
      · split at h
        · cases h
          exact Or.inl hi
        · split at h
          · cases h
            exact Or.inl hi
          · split at h
            · cases h
              exact Or.inl hi
            · split at h
              · cases h
                exact absurd hi List.not_mem_nil
              · cases h
                rcases List.mem_append.mp hi with hi | hi
                · exact Or.inl hi
                · rw [List.mem_singleton.mp hi]
                  exact Or.inr hidx

theorem contributionStep_simulates : Simulates (contributionStep w q) (contribute w q)
    (settle w q) ContributionEvent.message (fun p => p.2.proTxHash) (NotPending q) where
  silent s e he := by
    cases e with
    | receive hash qc => cases he
    | verifyPending =>
      rw [contributionStep]
      cases hme : q.me with
      | none => exact ⟨s, rfl, rfl, fun _ hk => hk⟩
      | some me =>
        refine ⟨_, rfl, settle_verifyPending hme s, fun k _ idx _ => ?_⟩
        exact List.not_mem_nil
  spoken s e p he fresh := by
    cases e with
    | receive hash qc =>
      cases he
      exact receiveContribution_settle s (hash, qc) fresh
    | verifyPending => cases he
  fresh s e p s' he hstep k hk fresh idx hidx hmem := by
    cases e with
    | receive hash qc =>
      cases he
      rcases receiveContribution_pending hstep hmem with hold | hsender
      · exact fresh idx hidx hold
      · exact hk (Quorum.getMember_inj hidx hsender)
    | verifyPending => cases he

theorem contribute_comm {a b : Uint256 × CDKGContribution}
    (hne : a.2.proTxHash ≠ b.2.proTxHash) (t : CDKGSession) :
    (contribute w q t a).bind (contribute w q · b) =
      (contribute w q t b).bind (contribute w q · a) := by
  simp only [contribute]
  cases ha : q.getMember a.2.proTxHash with
  | none => cases q.getMember b.2.proTxHash <;> rfl
  | some i =>
    cases hb : q.getMember b.2.proTxHash with
    | none => rfl
    | some j =>
      have hij : i ≠ j := fun heq => hne (Quorum.getMember_inj ha (heq ▸ hb))
      simp only [Option.map_some, Option.bind_some, setMember_members,
        Function.update_of_ne hij, Function.update_of_ne hij.symm, setMember_comm t hij]

end

def CDKGMember.withComplaints (m : CDKGMember) (l : List (Uint256 × CDKGComplaint)) :
    CDKGMember := { m with complaints := l }

variable (q) in
def complainer (qc : CDKGComplaint) : Option ℕ :=
  if qc.badMembers.length < q.members.length ∨ qc.complainForMembers.length < q.members.length
  then none else q.getMember qc.proTxHash

variable (q) in
def CDKGMember.complained (m : CDKGMember) (idx : ℕ) (p : Uint256 × CDKGComplaint) (i : ℕ) :
    CDKGMember :=
  let m := if i = idx then m.withComplaints [p] else m
  if i < q.members.length then m.hearComplaint p.2 i else m

variable (q) in
def complain (t : CDKGSession) (p : Uint256 × CDKGComplaint) : Option CDKGSession :=
  (complainer q p.2).map fun idx =>
    { t with members := fun i => (t.members i).complained q idx p i }

def NoComplaint (q : Quorum) (s : CDKGSession) (proTxHash : Uint256) : Prop :=
  ∀ idx, q.getMember proTxHash = some idx → (s.members idx).complaints = []

theorem receiveComplaint_eq (s : CDKGSession) (p : Uint256 × CDKGComplaint)
    (fresh : NoComplaint q s p.2.proTxHash) :
    receiveComplaint q s p.1 p.2 = complain q s p := by
  rw [receiveComplaint, complain, complainer]
  cases hidx : q.getMember p.2.proTxHash with
  | none =>
    split_ifs <;> rfl
  | some idx =>
    have hnone := fresh idx hidx
    have hmember : (s.members idx).emplaceComplaint p.1 p.2 =
        (s.members idx).withComplaints [p] := by
      rw [CDKGMember.emplaceComplaint, hnone]
      rfl
    have hone : ¬ 1 < ((s.members idx).withComplaints [p]).complaints.length := by
      exact lt_irrefl 1
    dsimp only
    rw [hnone, hmember, if_neg (by decide), if_neg hone]
    split_ifs
    · rfl
    · refine congrArg some (CDKGSession.ext (funext fun i => ?_) rfl rfl rfl)
      dsimp only
      rw [setMember_members, CDKGMember.complained]
      by_cases hi : i = idx
      · subst hi
        rw [Function.update_self, if_pos rfl]
      · rw [Function.update_of_ne hi, if_neg hi]

@[simp] theorem hearComplaint_complaints (m : CDKGMember) (qc : CDKGComplaint) (i : ℕ) :
    (m.hearComplaint qc i).complaints = m.complaints := by
  rw [CDKGMember.hearComplaint]
  split_ifs <;> rfl

theorem hearComplaint_withComplaints (m : CDKGMember) (qc : CDKGComplaint) (i : ℕ)
    (l : List (Uint256 × CDKGComplaint)) :
    (m.withComplaints l).hearComplaint qc i = (m.hearComplaint qc i).withComplaints l := by
  rw [CDKGMember.hearComplaint, CDKGMember.hearComplaint]
  split_ifs <;> rfl

theorem hearComplaint_comm (m : CDKGMember) (a b : CDKGComplaint) (i : ℕ) :
    (m.hearComplaint a i).hearComplaint b i = (m.hearComplaint b i).hearComplaint a i := by
  simp only [CDKGMember.hearComplaint]
  split_ifs <;> simp only [Finset.insert_comm]

theorem complained_comm (m : CDKGMember) (hij : i ≠ j) (a b : Uint256 × CDKGComplaint) (n : ℕ) :
    (m.complained q i a n).complained q j b n = (m.complained q j b n).complained q i a n := by
  by_cases hi : n = i
  · have hj : n ≠ j := fun heq => hij (hi.symm.trans heq)
    simp only [CDKGMember.complained, if_pos hi, if_neg hj]
    split_ifs
    · rw [hearComplaint_comm, hearComplaint_withComplaints, hearComplaint_withComplaints]
    · rfl
  · simp only [CDKGMember.complained, if_neg hi]
    split_ifs
    · rw [hearComplaint_withComplaints, hearComplaint_withComplaints, hearComplaint_comm,
        hearComplaint_withComplaints]
    · exact hearComplaint_comm _ _ _ _
    · rfl
    · rfl

theorem complain_comm {a b : Uint256 × CDKGComplaint} (hne : a.2.proTxHash ≠ b.2.proTxHash)
    (t : CDKGSession) :
    (complain q t a).bind (complain q · b) = (complain q t b).bind (complain q · a) := by
  simp only [complain]
  cases ha : complainer q a.2 with
  | none => cases complainer q b.2 <;> rfl
  | some i =>
    cases hb : complainer q b.2 with
    | none => rfl
    | some j =>
      have hij : i ≠ j := by
        rintro rfl
        rw [complainer] at ha hb
        split_ifs at ha hb
        exact hne (Quorum.getMember_inj ha hb)
      simp only [Option.map_some, Option.bind_some, complained_comm _ hij]

theorem receiveComplaint_simulates : Simulates
    (fun s (p : Uint256 × CDKGComplaint) => receiveComplaint q s p.1 p.2) (complain q) id some
    (fun p => p.2.proTxHash) (NoComplaint q) where
  silent s e he := by cases he
  spoken s e p he fresh := by
    cases he
    rw [Option.map_id]
    exact receiveComplaint_eq s e fresh
  fresh s e p s' he hstep k hk fresh idx hidx := by
    cases he
    rw [receiveComplaint] at hstep
    split at hstep
    · cases hstep
    · next j hj =>
        have hne : idx ≠ j := fun heq => hk (Quorum.getMember_inj hidx (heq ▸ hj))
        dsimp only at hstep
        split_ifs at hstep
        · cases hstep
          exact fresh idx hidx
        · cases hstep
          rw [setMember_members, Function.update_of_ne hne]
          exact fresh idx hidx
        · cases hstep
          dsimp only
          rw [setMember_members, Function.update_of_ne hne]
          split_ifs
          · rw [hearComplaint_complaints]
            exact fresh idx hidx
          · exact fresh idx hidx

/-! ### Justifications -/

theorem receiveJustification_comm {a b : Uint256 × CDKGJustification}
    (hne : a.2.proTxHash ≠ b.2.proTxHash) (t : CDKGSession) :
    (receiveJustification w q t a.1 a.2).bind (fun t => receiveJustification w q t b.1 b.2) =
      (receiveJustification w q t b.1 b.2).bind
        fun t => receiveJustification w q t a.1 a.2 := by
  simp only [receiveJustification]
  cases ha : q.getMember a.2.proTxHash with
  | none =>
    cases q.getMember b.2.proTxHash with
    | none => rfl
    | some j =>
      dsimp only
      cases (t.members j).receiveJustification w q b.1 b.2 <;> rfl
  | some i =>
    cases hb : q.getMember b.2.proTxHash with
    | none =>
      dsimp only
      cases (t.members i).receiveJustification w q a.1 a.2 <;> rfl
    | some j =>
      have hij : i ≠ j := fun heq => hne (Quorum.getMember_inj ha (heq ▸ hb))
      dsimp only
      cases hma : (t.members i).receiveJustification w q a.1 a.2 with
      | none =>
        cases hmb : (t.members j).receiveJustification w q b.1 b.2 with
        | none => rfl
        | some mb =>
          simp only [Option.map_none, Option.map_some, Option.bind_none, Option.bind_some,
            setMember_members, Function.update_of_ne hij, hma]
      | some ma =>
        cases hmb : (t.members j).receiveJustification w q b.1 b.2 with
        | none =>
          simp only [Option.map_none, Option.map_some, Option.bind_none, Option.bind_some,
            setMember_members, Function.update_of_ne hij.symm, hmb]
        | some mb =>
          simp only [Option.map_some, Option.bind_some, setMember_members,
            Function.update_of_ne hij, Function.update_of_ne hij.symm, hma, hmb,
            setMember_comm t hij]

section

theorem verified_complaints (m : CDKGMember) (me : Me) :
    (m.verified w me).complaints = m.complaints := by
  rw [CDKGMember.verified, CDKGMember.recordShare]
  split_ifs <;> rfl

theorem receiveContribution_complaints (m : CDKGMember) (p : Uint256 × CDKGContribution) :
    (m.receiveContribution w q p).complaints = m.complaints := by
  rw [CDKGMember.receiveContribution]
  dsimp only
  split_ifs
  · rfl
  · rfl
  · split
    · rfl
    · split
      · rfl
      · rw [verified_complaints]

theorem requireContribution_complaints (m : CDKGMember) :
    m.requireContribution.complaints = m.complaints := by
  rw [CDKGMember.requireContribution]
  split_ifs <;> rfl

def Uncomplained (s : CDKGSession) : Prop := ∀ i, (s.members i).complaints = []

variable {t : CDKGSession}

theorem Uncomplained.contribute {t' : CDKGSession} {p : Uint256 × CDKGContribution}
    (h : Uncomplained t) (hstep : contribute w q t p = some t') : Uncomplained t' := by
  obtain ⟨idx, -, rfl⟩ := Option.map_eq_some_iff.mp hstep
  intro i
  rw [setMember_members]
  by_cases hi : i = idx
  · subst hi
    rw [Function.update_self, receiveContribution_complaints]
    exact h i
  · rw [Function.update_of_ne hi]
    exact h i

theorem Uncomplained.verifyAndComplain (h : Uncomplained s) :
    Uncomplained (verifyAndComplain w q s).1 := by
  intro i
  rw [DkgSession.verifyAndComplain]
  split
  · exact h i
  · dsimp only [CDKGSession.mapMembers]
    rw [requireContribution_complaints, verifyPending_members]
    split_ifs
    · rw [verified_complaints]
      exact h i
    · exact h i

theorem verifyAndComplain_settle (s : CDKGSession) :
    verifyAndComplain w q (settle w q s) = verifyAndComplain w q s := by
  cases hme : q.me with
  | none => rw [settle, hme]
  | some me =>
    have hsettle := settle_verifyPending hme s (w := w)
    rw [settle_some hme, settle_some hme] at hsettle
    rw [verifyAndComplain, verifyAndComplain, hme, settle_some hme]
    dsimp only
    rw [hsettle]

variable {complaints : List (Uint256 × CDKGComplaint)}

theorem receiveComplaints_eq (senders : (complaints.map fun p => p.2.proTxHash).Nodup)
    (fresh : Uncomplained s) :
    complaints.foldlM (fun s p => receiveComplaint q s p.1 p.2) s =
      complaints.foldlM (complain q) s := by
  have hmessages : complaints.filterMap some = complaints := List.filterMap_some
  have hview := (receiveComplaint_simulates (q := q)).foldlM (hmessages.symm ▸ senders)
    fun p _ idx _ => fresh idx
  rw [Option.map_id, hmessages] at hview
  exact hview

variable {complaints' : List (Uint256 × CDKGComplaint)}

theorem complainPhase_perm (hperm : complaints.Perm complaints')
    (senders : (complaints.map fun p => p.2.proTxHash).Nodup) (fresh : Uncomplained s) : complainPhase q s complaints = complainPhase q s complaints' := by
  have senders' := (hperm.map fun p => p.2.proTxHash).nodup_iff.mp senders
  rw [complainPhase, complainPhase, receiveComplaints_eq senders fresh,
    receiveComplaints_eq senders' fresh]
  refine congrArg _ (foldlM_perm hperm (fun a ha b hb hab t => ?_) s)
  exact complain_comm (fun heq => hab (List.inj_on_of_nodup_map senders ha hb heq)) t

variable {justifications' justifications : List (Uint256 × CDKGJustification)}

theorem justifyPhase_perm (hperm : justifications.Perm justifications')
    (senders : (justifications.map fun p => p.2.proTxHash).Nodup) (s : CDKGSession) :
    justifyPhase w q s justifications = justifyPhase w q s justifications' := by
  refine congrArg (Option.map (verifyAndCommit q)) (foldlM_perm hperm (fun a ha b hb hab t => ?_) s)
  exact receiveJustification_comm
    (fun heq => hab (List.inj_on_of_nodup_map senders ha hb heq)) t

theorem conclude_settle (complaints : List (Uint256 × CDKGComplaint))
    (justifications : List (Uint256 × CDKGJustification)) (s : CDKGSession) :
    conclude w q complaints justifications (settle w q s) =
      conclude w q complaints justifications s := by
  rw [conclude, conclude, verifyAndComplain_settle]

theorem conclude_perm (hcomplaints : complaints.Perm complaints')
    (complainers : (complaints.map fun p => p.2.proTxHash).Nodup)
    (hjustifications : justifications.Perm justifications')
    (justifiers : (justifications.map fun p => p.2.proTxHash).Nodup) (fresh : Uncomplained s) :
    conclude w q complaints justifications s = conclude w q complaints' justifications' s := by
  rw [conclude, conclude, complainPhase_perm hcomplaints complainers fresh.verifyAndComplain]
  simp only [justifyPhase_perm hjustifications justifiers]

variable {contributions : List ContributionEvent}

theorem contributions_perm {contributions' : List ContributionEvent}
    (hperm : (contributions.filterMap ContributionEvent.message).Perm (contributions'.filterMap ContributionEvent.message))
    (senders : ((contributions.filterMap ContributionEvent.message).map fun p => p.2.proTxHash).Nodup) :
    (contributions.foldlM (contributionStep w q) .new).map (settle w q) =
      (contributions'.foldlM (contributionStep w q) .new).map (settle w q) := by
  refine contributionStep_simulates.view_eq hperm senders
    (fun p _ idx _ => List.not_mem_nil) fun a ha b hb hab t => ?_
  exact contribute_comm (fun heq => hab (List.inj_on_of_nodup_map senders ha hb heq)) t

theorem uncomplained_of_contributions
    (senders : ((contributions.filterMap ContributionEvent.message).map fun p => p.2.proTxHash).Nodup)
    (h : (contributions.foldlM (contributionStep w q) .new).map (settle w q) = some t) :
    Uncomplained t := by
  rw [contributionStep_simulates.foldlM senders fun p _ idx _ => List.not_mem_nil] at h
  refine foldlM_inv (fun t p t' => Uncomplained.contribute) (fun i => ?_) h
  rw [settle_members_of_not_pending List.not_mem_nil]
  rfl

/-- What a member sends and which members it holds bad do not depend on the order in which the
messages of a phase arrive, nor on when the waiting shares are verified. -/
theorem runSession_order_independent (w : CBLSWorker) (q : Quorum)
    (contributions contributions' : List ContributionEvent)
    (complaints complaints' : List (Uint256 × CDKGComplaint))
    (justifications justifications' : List (Uint256 × CDKGJustification))
    (hcontributions : (contributions.filterMap ContributionEvent.message).Perm
      (contributions'.filterMap ContributionEvent.message))
    (hcomplaints : complaints.Perm complaints')
    (hjustifications : justifications.Perm justifications')
    (contributors : ((contributions.filterMap ContributionEvent.message).map
      fun p => p.2.proTxHash).Nodup)
    (complainers : (complaints.map fun p => p.2.proTxHash).Nodup)
    (justifiers : (justifications.map fun p => p.2.proTxHash).Nodup) :
    runSession w q contributions complaints justifications =
      runSession w q contributions' complaints' justifications' := by
  have hview : ∀ events cs js, runSession w q events cs js =
      ((events.foldlM (contributionStep w q) .new).map (settle w q)).bind (conclude w q cs js) := by
    intro events cs js
    rw [runSession, Option.bind_map]
    exact congrArg _ (funext fun s => (conclude_settle cs js s).symm)
  rw [hview, hview, ← contributions_perm hcontributions contributors]
  cases ht : (contributions.foldlM (contributionStep w q) .new).map (settle w q) with
  | none => rfl
  | some t =>
    exact conclude_perm hcomplaints complainers hjustifications justifiers
      (uncomplained_of_contributions contributors ht)

def toyWorker : CBLSWorker where
  decrypt objects idx := objects.blobs[idx]?.map fun blob => some (BitVec.ofNat 256 blob.length)
  verifyVerificationVector _ := true
  verifyContributionShare _ _ sk := decide (sk = some 1)

def toyContribution (proTxHash : Uint256) (blob : List (BitVec 8)) : Uint256 × CDKGContribution :=
  (proTxHash, ⟨1, proTxHash, [some 1, some 2], ⟨some 1, 0, [blob, blob, blob]⟩⟩)

def toyContributions : List (Uint256 × CDKGContribution) :=
  [toyContribution 10 [0], toyContribution 11 [], toyContribution 12 []]

def toyComplaints : List (Uint256 × CDKGComplaint) :=
  [(20, ⟨1, 10, [false, false, false], [false, true, true]⟩),
    (21, ⟨1, 12, [false, false, false], [false, true, false]⟩)]

theorem runSession_toyOrders :
    runSession toyWorker toyQuorum
        (toyContributions.map fun p => .receive p.1 p.2) toyComplaints
        [(30, ⟨1, 11, [(0, some 1), (2, some 1)]⟩)] =
      runSession toyWorker toyQuorum
        (.verifyPending :: toyContributions.reverse.flatMap fun p =>
          [.receive p.1 p.2, .verifyPending])
        toyComplaints.reverse [(30, ⟨1, 11, [(0, some 1), (2, some 1)]⟩)] ∧
    runSession toyWorker toyQuorum
        (toyContributions.map fun p => .receive p.1 p.2) toyComplaints
        [(30, ⟨1, 11, [(0, some 1), (2, some 1)]⟩)] =
      some ⟨some ⟨1, 10, [false, false, false], [false, true, true]⟩, [], [2],
        [true, true, false]⟩ := by
  refine ⟨runSession_order_independent _ _ _ _ _ _ _ _ ?_ ?_ (List.Perm.refl _) ?_ ?_ ?_, ?_⟩
  · exact (List.reverse_perm toyContributions).symm
  · exact (List.reverse_perm toyComplaints).symm
  · decide
  · decide
  · decide
  · decide

end

end ButCore.Llmq.DkgSession
