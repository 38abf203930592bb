import ButCore.Llmq.BlockProcessor

/-!
# DKG sessions on a chain

What the commitments of a chain have to obey, stated over the blocks alone: in the mining window of
a session one commitment in each block until the first one that is not null, and none after it.
-/
namespace ButCore

/-! ### Heights -/

variable {h : ℕ}

namespace ActiveChain

def atHeight (chain : ActiveChain) (h : ℕ) : Option ConnectedBlock := chain.reverse[h]?

theorem at?_natCast (chain : ActiveChain) (h : ℕ) : chain.at? h = chain.atHeight h := by
  unfold at? atHeight
  rw [if_pos (Int.natCast_nonneg h), Int.toNat_natCast]

variable {chain : ActiveChain} {b : ConnectedBlock}

theorem atHeight_lt (hb : chain.atHeight h = some b) : h < chain.length := by
  obtain ⟨hlt, -⟩ := List.getElem?_eq_some_iff.mp hb
  rwa [List.length_reverse] at hlt

theorem atHeight_of_lt (hlt : h < chain.length) :
    ∃ b, chain.atHeight h = some b :=
  ⟨_, List.getElem?_eq_getElem (by rwa [List.length_reverse])⟩

theorem mem_of_atHeight (hb : chain.atHeight h = some b) : b ∈ chain :=
  List.mem_reverse.mp (List.mem_of_getElem? hb)

theorem atHeight_cons_length (b : ConnectedBlock) (chain : ActiveChain) :
    atHeight (b :: chain) chain.length = some b := by
  unfold atHeight
  rw [List.reverse_cons, List.getElem?_append_right (by simp)]
  simp

theorem atHeight_cons_of_lt (b : ConnectedBlock) (hlt : h < chain.length) : atHeight (b :: chain) h = chain.atHeight h := by
  unfold atHeight
  rw [List.reverse_cons, List.getElem?_append_left (by rwa [List.length_reverse])]

variable {b' : ConnectedBlock}

theorem atHeight_cons_cases (hb : atHeight (b :: chain) h = some b') :
    h = chain.length ∧ b' = b ∨ h < chain.length ∧ chain.atHeight h = some b' := by
  obtain hlt | rfl := Nat.lt_succ_iff_lt_or_eq.mp (atHeight_lt hb)
  · rw [atHeight_cons_of_lt b hlt] at hb
    exact .inr ⟨hlt, hb⟩
  · rw [atHeight_cons_length] at hb
    exact .inl ⟨rfl, (Option.some.inj hb).symm⟩

theorem atHeight_inj (distinct : (chain.map ConnectedBlock.hash).Nodup) {h' : ℕ}
    (hb : chain.atHeight h = some b) (hb' : chain.atHeight h' = some b') (same : b.hash = b'.hash) : h = h' := by
  have distinct' : (chain.reverse.map ConnectedBlock.hash).Nodup := by
    rwa [List.map_reverse, List.nodup_reverse]
  have len : h < (chain.reverse.map ConnectedBlock.hash).length := by
    simpa using atHeight_lt hb
  refine (List.getElem?_inj len distinct').mp ?_
  unfold atHeight at hb hb'
  rw [List.getElem?_map, List.getElem?_map, hb, hb', Option.map_some, Option.map_some, same]

end ActiveChain

namespace Llmq.BlockProcessor

open ActiveChain ButCore.Evo

section

variable (params : Consensus.LLMQParams)

def sessionStart (h : ℕ) : ℕ := h - h % params.dkgInterval

theorem sessionStart_le (h : ℕ) : sessionStart params h ≤ h := Nat.sub_le _ _

theorem quorumStartHeight_natCast (h : ℕ) :
    quorumStartHeight params h = (sessionStart params h : ℕ) := by
  unfold quorumStartHeight sessionStart
  rw [← Int.ofNat_tmod, Nat.cast_sub (Nat.mod_le _ _)]

theorem isMiningPhase_natCast (h : ℕ) :
    Consensus.isMiningPhase params h = true ↔
      params.dkgMiningWindowStart ≤ h % params.dkgInterval ∧
        h % params.dkgInterval ≤ params.dkgMiningWindowEnd := by
  unfold Consensus.isMiningPhase
  rw [← Int.ofNat_tmod]
  simp only [Bool.and_eq_true, decide_eq_true_eq, Nat.cast_le]

theorem sessionStart_eq {j : ℕ} (lower : sessionStart params h ≤ j) (upper : j ≤ h) :
    sessionStart params j = sessionStart params h := by
  unfold sessionStart at *
  obtain hn | hn := Nat.eq_zero_or_pos params.dkgInterval
  · simp [hn]
  · have hh := Nat.div_add_mod h params.dkgInterval
    have hj := Nat.div_add_mod j params.dkgInterval
    have hdiv : j / params.dkgInterval = h / params.dkgInterval := by
      refine le_antisymm (Nat.div_le_div_right upper) ?_
      rw [Nat.le_div_iff_mul_le hn, mul_comm]
      omega
    rw [hdiv] at hj
    omega

end

def typedCommitments (block : ConnectedBlock) (type : LLMQType) : List CFinalCommitment :=
  (blockCommitments block).filter (·.llmqType = type)

def mined (qcs : List CFinalCommitment) : List CFinalCommitment :=
  qcs.filter (fun qc => !isNullCommitment qc)

theorem mem_mined {qcs : List CFinalCommitment} {qc : CFinalCommitment} :
    qc ∈ mined qcs ↔ qc ∈ qcs ∧ isNullCommitment qc = false := by
  simp [mined]

structure MinedAt (chain : ActiveChain) (h : ℕ) (b : ConnectedBlock) (qc : CFinalCommitment) :
    Prop where
  block : chain.atHeight h = some b
  mem : qc ∈ blockCommitments b
  notNull : isNullCommitment qc = false

def MinedBefore (chain : ActiveChain) (type : LLMQType) (params : Consensus.LLMQParams) (h : ℕ) :
    Prop :=
  ∃ j b qc, sessionStart params h ≤ j ∧ j < h ∧ MinedAt chain j b qc ∧ qc.llmqType = type

structure SessionRule (chain : ActiveChain) (h : ℕ) (b : ConnectedBlock) (type : LLMQType)
    (params : Consensus.LLMQParams) : Prop where
  once : Consensus.isMiningPhase params h = true → ¬ MinedBefore chain type params h →
    (typedCommitments b type).length = 1
  afterwards : MinedBefore chain type params h → typedCommitments b type = []
  outside : Consensus.isMiningPhase params h = false → typedCommitments b type = []
  names : ∀ qc ∈ typedCommitments b type, ∃ first,
    chain.atHeight (sessionStart params h) = some first ∧ qc.quorumHash = first.hash

structure SessionRules (llmqs : Consensus.LLMQs) (chain : ActiveChain) : Prop where
  sessions : ∀ entry ∈ llmqs, ∀ h b, chain.atHeight h = some b →
    SessionRule chain h b entry.1 entry.2
  unique : ∀ h h' b b' qc qc', MinedAt chain h b qc → MinedAt chain h' b' qc' →
    quorumKey qc = quorumKey qc' → h = h' ∧ qc = qc'

section

variable {b b' : ConnectedBlock} {chain : ActiveChain} {h : ℕ} {type : LLMQType}
  {params : Consensus.LLMQParams} {qc : CFinalCommitment}

theorem minedAt_cons_of_lt (hlt : h < chain.length) :
    MinedAt (b :: chain) h b' qc ↔ MinedAt chain h b' qc := by
  constructor
  · intro mined
    exact ⟨(atHeight_cons_of_lt b hlt).symm.trans mined.block, mined.mem, mined.notNull⟩
  · intro mined
    exact ⟨(atHeight_cons_of_lt b hlt).trans mined.block, mined.mem, mined.notNull⟩

theorem minedAt_cons :
    MinedAt (b :: chain) h b' qc ↔
      (h = chain.length ∧ b' = b ∧ qc ∈ blockCommitments b ∧ isNullCommitment qc = false) ∨
        MinedAt chain h b' qc := by
  constructor
  · intro mined
    obtain ⟨rfl, rfl⟩ | ⟨hlt, -⟩ := atHeight_cons_cases mined.block
    · exact .inl ⟨rfl, rfl, mined.mem, mined.notNull⟩
    · exact .inr ((minedAt_cons_of_lt hlt).mp mined)
  · intro mined
    obtain ⟨rfl, rfl, mem, notNull⟩ | mined := mined
    · exact ⟨atHeight_cons_length _ _, mem, notNull⟩
    · exact (minedAt_cons_of_lt (atHeight_lt mined.block)).mpr mined

theorem exists_minedAt_cons {P : ℕ → ConnectedBlock → CFinalCommitment → Prop} :
    (∃ h b' qc, MinedAt (b :: chain) h b' qc ∧ P h b' qc) ↔
      (∃ qc ∈ mined (blockCommitments b), P chain.length b qc) ∨
        ∃ h b' qc, MinedAt chain h b' qc ∧ P h b' qc := by
  constructor
  · intro ⟨h, b', qc, mined, hP⟩
    obtain ⟨rfl, rfl, mem, notNull⟩ | mined := minedAt_cons.mp mined
    · exact .inl ⟨qc, mem_mined.mpr ⟨mem, notNull⟩, hP⟩
    · exact .inr ⟨h, b', qc, mined, hP⟩
  · intro h
    obtain ⟨qc, mem, hP⟩ | ⟨h, b', qc, mined, hP⟩ := h
    · obtain ⟨mem, notNull⟩ := mem_mined.mp mem
      exact ⟨chain.length, b, qc, minedAt_cons.mpr (.inl ⟨rfl, rfl, mem, notNull⟩), hP⟩
    · exact ⟨h, b', qc, minedAt_cons.mpr (.inr mined), hP⟩

theorem minedBefore_cons (hle : h ≤ chain.length) :
    MinedBefore (b :: chain) type params h ↔ MinedBefore chain type params h := by
  refine exists_congr fun j => exists_congr fun b' => exists_congr fun qc => ?_
  constructor
  · intro ⟨lower, upper, mined, htype⟩
    exact ⟨lower, upper, (minedAt_cons_of_lt (upper.trans_le hle)).mp mined, htype⟩
  · intro ⟨lower, upper, mined, htype⟩
    exact ⟨lower, upper, (minedAt_cons_of_lt (upper.trans_le hle)).mpr mined, htype⟩

theorem sessionRule_cons (hlt : h < chain.length) :
    SessionRule (b :: chain) h b' type params ↔ SessionRule chain h b' type params := by
  have before : MinedBefore (b :: chain) type params h ↔ MinedBefore chain type params h :=
    minedBefore_cons hlt.le
  have first := atHeight_cons_of_lt b ((sessionStart_le params h).trans_lt hlt)
  constructor
  · intro rule
    refine ⟨?_, ?_, rule.outside, ?_⟩
    · exact fun phase fresh => rule.once phase (mt before.mp fresh)
    · exact fun mined => rule.afterwards (before.mpr mined)
    · simpa only [first] using rule.names
  · intro rule
    refine ⟨?_, ?_, rule.outside, ?_⟩
    · exact fun phase fresh => rule.once phase (mt before.mpr fresh)
    · exact fun mined => rule.afterwards (before.mp mined)
    · simpa only [first] using rule.names

end

end Llmq.BlockProcessor

end ButCore
