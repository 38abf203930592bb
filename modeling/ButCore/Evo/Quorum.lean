import ButCore.ArithUint256
import ButCore.Evo.ActiveChain
import ButCore.Evo.BuildSafety
import ButCore.Lib.Ranking

/-!
# Quorum members

The members of a quorum are taken from the list at the quorum block, filtered by `IsMNValid`, which
looks at the coins and the height of the active tip.
-/
namespace ButCore.Evo

open CDeterministicMNList

/-- The single SHA-256 of a score and the hash of a quorum's type and block. -/
structure QuorumHashes where
  score : Uint256 → Uint256 → ArithUint256
  modifier : LLMQType → Uint256 → Uint256

section

variable (env : Env) (hashes : QuorumHashes) (list : CDeterministicMNList)

def isConfirmed (dmn : CDeterministicMN) : Bool := decide (dmn.pdmnState.confirmedHash ≠ 0)

def scored (modifier : Uint256) (dmn : CDeterministicMN) : ArithUint256 × CDeterministicMN :=
  (hashes.score dmn.pdmnState.confirmedHashWithProRegTxHash modifier, dmn)

def calculateScores (modifier : Uint256) : List (ArithUint256 × CDeterministicMN) :=
  ((list.validMNs env).filter isConfirmed).map (scored hashes modifier)

def compareScores (a b : ArithUint256 × CDeterministicMN) : Bool :=
  if a.1 = b.1 then COutPoint.lt a.2.collateralOutpoint b.2.collateralOutpoint else decide (a.1 < b.1)

/-- The scores are sorted from the reverse end, so in descending order. -/
def calculateQuorum (maxSize : ℕ) (modifier : Uint256) : List CDeterministicMN :=
  let scores := (calculateScores env hashes list modifier).insertionSort
    (fun a b => compareScores a b = false)
  (scores.take maxSize).map Prod.snd

/-- `getListForBlock` is the list that the stored diffs of a block lead to. -/
def getAllQuorumMembers (getListForBlock : Uint256 → CDeterministicMNList) (llmqType : LLMQType)
    (pindexQuorum : ConnectedBlock) : Except Fault (List CDeterministicMN) := do
  let params ← deref (env.llmqs llmqType) .llmqs
  pure (calculateQuorum env hashes (getListForBlock pindexQuorum.hash) params.size
    (hashes.modifier llmqType pindexQuorum.hash))

end

section

variable {ownerOf : Uint256 → CKeyID} {list : CDeterministicMNList} {hashes : QuorumHashes}
  {modifier : Uint256}

variable (hashes modifier) in
def scoreKey (dmn : CDeterministicMN) : (ℕ ×ₗ ℕ ×ₗ ℕ)ᵒᵈ :=
  OrderDual.toDual (toLex ((scored hashes modifier dmn).1.toNat,
    toLex (dmn.collateralOutpoint.hash.toNat, dmn.collateralOutpoint.n.toNat)))

theorem compareScores_iff (a b : CDeterministicMN) :
    compareScores (scored hashes modifier a) (scored hashes modifier b) = true ↔
      scoreKey hashes modifier b < scoreKey hashes modifier a := by
  rw [scoreKey, scoreKey, OrderDual.toDual_lt_toDual, Prod.Lex.toLex_lt_toLex,
    Prod.Lex.toLex_lt_toLex]
  by_cases hscore : (scored hashes modifier a).1 = (scored hashes modifier b).1
  · rw [compareScores, if_pos hscore, hscore]
    simp [COutPoint.lt, BitVec.lt_def, BitVec.toNat_inj, scored]
  · have hne : (scored hashes modifier a).1.toNat ≠ (scored hashes modifier b).1.toNat :=
      fun e => hscore (BitVec.eq_of_toNat_eq e)
    simp [compareScores, hscore, hne, BitVec.lt_def]

theorem not_compareScores_iff (a b : CDeterministicMN) :
    compareScores (scored hashes modifier a) (scored hashes modifier b) = false ↔
      scoreKey hashes modifier a ≤ scoreKey hashes modifier b := by
  rw [← not_lt, ← compareScores_iff, Bool.not_eq_true]

theorem pairwise_scoreKey (inv : list.UniqueInvariant ownerOf) :
    list.allMNs.Pairwise fun a b => scoreKey hashes modifier a ≠ scoreKey hashes modifier b := by
  have nodup : list.allMNs.Pairwise fun a b => a.proTxHash ≠ b.proTxHash := by
    simpa [List.Nodup, List.pairwise_map] using nodup_allMNs inv
  refine List.Pairwise.imp_of_mem ?_ nodup
  intro a b ha hb hne hkey
  apply hne
  apply inv.collateral_inj ha hb
  simp only [scoreKey, scored, OrderDual.toDual_inj, toLex_inj, Prod.mk.injEq,
    BitVec.toNat_inj] at hkey
  cases hca : a.collateralOutpoint
  cases hcb : b.collateralOutpoint
  simp_all

theorem calculateQuorum_eq (env : Env) (maxSize : ℕ) :
    calculateQuorum env hashes list maxSize modifier =
      (((list.allMNs.filter isConfirmed).filter (isMNValid env)).insertionSort
        (fun a b => compareScores (scored hashes modifier a) (scored hashes modifier b) = false)).take
        maxSize := by
  rw [calculateQuorum, calculateScores, ← List.map_insertionSort _ _ (scored hashes modifier) _
    (fun _ _ _ _ => Iff.rfl), ← List.map_take, List.map_map, validMNs, List.filter_comm]
  exact List.map_id _

end

def toyMember : CDeterministicMN :=
  { toyMN 1 0 with pdmnState := { (toyMN 1 0).pdmnState with confirmedHash := 7 } }

def toyMembers : CDeterministicMNList := toyAdd (empty 0) toyMember

theorem toyMembers_inv : toyMembers.UniqueInvariant toyOwner := by
  apply toyAdd_inv (uniqueInvariant_empty toyOwner 0) <;> decide +kernel

def toyQuorumEnv : Env := { toyEnv with llmqs := fun _ => some ⟨3, 2, 24⟩ }

def toyHashes : QuorumHashes := ⟨fun h _ => h, fun _ h => h⟩

def toyQuorumBlock : ConnectedBlock := ⟨1, [⟨1001, 1, .normal, [], [⟨1000, toyScript⟩], 0, .undecodable, 0⟩]⟩

def toyChain : ActiveChain := [toyQuorumBlock, ⟨0, []⟩]

def toySpender : ConnectedBlock := ⟨2, [⟨1002, 1, .normal, [⟨⟨1001, 0⟩, [], 0⟩], [], 0, .undecodable, 0⟩]⟩

end ButCore.Evo
