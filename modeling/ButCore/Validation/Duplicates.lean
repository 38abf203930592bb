import ButCore.Validation.BestChain
import ButCore.Validation.ChainRules

/-!
# Headers that are already known

The block index is keyed by `GetHash`, and `AcceptBlockHeader` looks for a duplicate by
`GetPOWHash`.
-/
namespace ButCore.Validation

/-- `ppindex` is `none` where the pointer is not assigned. -/
structure HeaderCall where
  state : ChainState
  ppindex : Option Uint256
  checked : Bool
  result : Except Fault Unit

section

variable (env : Env) (call : CallEnv) (s : ChainState) (header : CBlockHeader)

def HeaderCall.ofChecked : ChainState × Except Fault Uint256 → HeaderCall
  | (s, .ok hash) => ⟨s, some hash, true, .ok ()⟩
  | (s, .error e) => ⟨s, none, true, .error e⟩

def acceptBlockHeaderCall : HeaderCall :=
  let hash := env.getPOWHash header
  if hash = env.hashGenesisBlock then
    ⟨addToBlockIndex env s header false, some (env.getHash header), false, .ok ()⟩
  else
    match s.mapBlockIndex[hash]? with
    | some pindex =>
      -- the pointer is assigned before the flags are looked at
      ⟨s, some hash, false,
        if pindex.failed then .error (.invalid ⟨0, .zero, "duplicate", false⟩) else .ok ()⟩
    | none =>
      match checkNewHeader env call s header with
      | .error r => ⟨s, none, true, .error (.invalid r)⟩
      | .ok pindexPrev => .ofChecked (acceptNewHeader env call s header pindexPrev)

/-- What the call returns to a caller that only reads the pointer after a success. -/
def HeaderCall.outcome (c : HeaderCall) : ChainState × Except Fault Uint256 :=
  (c.state, c.result.map fun _ => c.ppindex.getD 0)

theorem HeaderCall.outcome_ofChecked (r : ChainState × Except Fault Uint256) :
    (HeaderCall.ofChecked r).outcome = r := by
  obtain ⟨t, result⟩ := r
  cases result with
  | ok hash => rfl
  | error e => rfl

theorem acceptBlockHeaderCall_outcome :
    (acceptBlockHeaderCall env call s header).outcome = acceptBlockHeader env call s header := by
  unfold acceptBlockHeaderCall acceptBlockHeader
  dsimp only
  split
  · rfl
  · cases s.mapBlockIndex[env.getPOWHash header]? with
    | some pindex =>
      dsimp only
      cases pindex.failed with
      | true => rfl
      | false => rfl
    | none =>
      cases checkNewHeader env call s header with
      | error r => rfl
      | ok pindexPrev => exact HeaderCall.outcome_ofChecked _

/-- The call answers from the entry `e` of the header: it hands that entry out, fails exactly when
the entry is marked failed and does not check the header again. -/
structure AnswersFrom (e : BlockIndex) (c : HeaderCall) : Prop where
  ppindex : c.ppindex = some (env.getHash header)
  result : c.result.isOk = false ↔ e.failed = true
  unchecked : c.checked = false

variable {env call s header}

theorem HeaderCall.checked_ofChecked (r : ChainState × Except Fault Uint256) :
    (HeaderCall.ofChecked r).checked = true := by
  obtain ⟨t, result⟩ := r
  cases result with
  | ok hash => rfl
  | error e => rfl

theorem acceptBlockHeaderCall_checked (hgenesis : env.getPOWHash header ≠ env.hashGenesisBlock)
    (hnew : s.mapBlockIndex[env.getPOWHash header]? = none) :
    (acceptBlockHeaderCall env call s header).checked = true := by
  unfold acceptBlockHeaderCall
  simp only [if_neg hgenesis, hnew]
  cases checkNewHeader env call s header with
  | error r => rfl
  | ok pindexPrev => exact HeaderCall.checked_ofChecked _

theorem answersFrom_genesis_iff (e : BlockIndex)
    (hgenesis : env.getPOWHash header = env.hashGenesisBlock) :
    AnswersFrom env header e (acceptBlockHeaderCall env call s header) ↔ e.failed = false := by
  unfold acceptBlockHeaderCall
  simp only [if_pos hgenesis]
  constructor
  · intro h
    exact Bool.eq_false_iff.mpr fun hfailed => Bool.noConfusion (h.result.mpr hfailed)
  · intro hfailed
    refine ⟨rfl, ?_, rfl⟩
    rw [hfailed]
    exact ⟨fun h => Bool.noConfusion h, fun h => Bool.noConfusion h⟩

theorem answersFrom_pow_iff {e : BlockIndex} (known : s.mapBlockIndex[env.getHash header]? = some e)
    (hgenesis : env.getPOWHash header ≠ env.hashGenesisBlock) :
    AnswersFrom env header e (acceptBlockHeaderCall env call s header) ↔
      env.getPOWHash header = env.getHash header := by
  constructor
  · intro h
    cases hfound : s.mapBlockIndex[env.getPOWHash header]? with
    | none =>
      have checked : (acceptBlockHeaderCall env call s header).checked = true :=
        acceptBlockHeaderCall_checked hgenesis hfound
      exact Bool.noConfusion (h.unchecked.symm.trans checked)
    | some pindex =>
      have handed := h.ppindex
      unfold acceptBlockHeaderCall at handed
      simp only [if_neg hgenesis, hfound] at handed
      exact Option.some.inj handed
  · intro heq
    have hfound : s.mapBlockIndex[env.getPOWHash header]? = some e := heq ▸ known
    unfold acceptBlockHeaderCall
    simp only [if_neg hgenesis, hfound]
    refine ⟨congrArg some heq, ?_, rfl⟩
    cases e.failed with
    | true => exact ⟨fun _ => rfl, fun _ => rfl⟩
    | false => exact ⟨fun h => Bool.noConfusion h, fun h => Bool.noConfusion h⟩

end

/-- A known header is answered from its entry exactly when its proof-of-work hash is its identity
hash, or is the hash of genesis while the entry is not marked failed. -/
theorem acceptBlockHeader_answersFrom_iff (env : Env) (call : CallEnv) (s : ChainState)
    (header : CBlockHeader) (e : BlockIndex)
    (known : s.mapBlockIndex[env.getHash header]? = some e) :
    AnswersFrom env header e (acceptBlockHeaderCall env call s header) ↔
      if env.getPOWHash header = env.hashGenesisBlock then e.failed = false
      else env.getPOWHash header = env.getHash header := by
  split
  · next hgenesis => exact answersFrom_genesis_iff e hgenesis
  · next hgenesis => exact answersFrom_pow_iff known hgenesis

/-! ### A header mined with Ghostrider -/

def ghostEnv : Env := { toyEnv with hashGR := fun header => header.nNonce.setWidth 256 + 100 }

def ghostHeader (prev : Uint256) (nonce : BitVec 32) : CBlockHeader :=
  { toyHeader prev nonce with nVersion := 0x20000000 ||| BLOCK_VERSION_GHOSTRIDER }

def validNode (calls : List NodeCall) : Option NodeState :=
  Steps.runWhile (exec ghostEnv) (fun _ _ => True) (startNode ghostEnv) calls

theorem acceptBlockHeader_answersFrom_sha256d :
    ∃ n e, validNode [.acceptBlockHeader toyCall (toyHeader 1 2)] = some n ∧
      n.mapBlockIndex[ghostEnv.getHash (toyHeader 1 2)]? = some e ∧
      AnswersFrom ghostEnv (toyHeader 1 2) e
        (acceptBlockHeaderCall ghostEnv toyCall n.toChainState (toyHeader 1 2)) := by
  have hrun : ((validNode [.acceptBlockHeader toyCall (toyHeader 1 2)]).bind fun n =>
      n.mapBlockIndex[ghostEnv.getHash (toyHeader 1 2)]?).isSome = true := by
    decide +kernel
  obtain ⟨e, he⟩ := Option.isSome_iff_exists.mp hrun
  obtain ⟨n, hn, known⟩ := Option.bind_eq_some_iff.mp he
  refine ⟨n, e, hn, known, ?_⟩
  rw [acceptBlockHeader_answersFrom_iff ghostEnv toyCall n.toChainState _ e known,
    if_neg (by decide +kernel)]
  decide +kernel

/-- The header is accepted, its block is marked invalid, and the header is checked and accepted once
more. -/
theorem acceptBlockHeader_accepts_failed :
    ∃ n e, validNode [.acceptBlockHeader toyCall (ghostHeader 1 2), .invalidateBlock toyCall 2] =
        some n ∧
      n.mapBlockIndex[ghostEnv.getHash (ghostHeader 1 2)]? = some e ∧ e.failed = true ∧
      (acceptBlockHeaderCall ghostEnv toyCall n.toChainState (ghostHeader 1 2)).checked = true ∧
      (acceptBlockHeaderCall ghostEnv toyCall n.toChainState (ghostHeader 1 2)).result.isOk =
        true := by
  have hrun : ((validNode [.acceptBlockHeader toyCall (ghostHeader 1 2),
      .invalidateBlock toyCall 2]).bind fun n =>
        n.mapBlockIndex[ghostEnv.getHash (ghostHeader 1 2)]?.map fun e =>
          (e.failed,
            (acceptBlockHeaderCall ghostEnv toyCall n.toChainState (ghostHeader 1 2)).checked,
            (acceptBlockHeaderCall ghostEnv toyCall n.toChainState (ghostHeader 1 2)).result.isOk)) =
      some (true, true, true) := by
    decide +kernel
  obtain ⟨n, hn, hmap⟩ := Option.bind_eq_some_iff.mp hrun
  obtain ⟨e, he, heq⟩ := Option.map_eq_some_iff.mp hmap
  simp only [Prod.mk.injEq] at heq
  exact ⟨n, e, hn, he, heq⟩

end ButCore.Validation
