import ButCore.Evo.ActiveChain
import ButCore.Evo.SpecialTx

/-!
# The destination of a script

`ExtractDestination` with the part of `Solver` that it uses. The shortcut for data outputs and the
template for several signers lead to types without a destination, so they are left out.
-/
namespace ButCore

def OP_PUSHDATA1 : BitVec 8 := 0x4c
def OP_PUSHDATA2 : BitVec 8 := 0x4d
def OP_PUSHDATA4 : BitVec 8 := 0x4e

def readSize (width : ℕ) (pc : CScript) : Option (ℕ × CScript) :=
  if pc.length < width then none else some (readLE (pc.take width), pc.drop width)

def pushSize (opcode : BitVec 8) (pc : CScript) : Option (ℕ × CScript) :=
  if opcode < OP_PUSHDATA1 then some (opcode.toNat, pc)
  else if opcode = OP_PUSHDATA1 then readSize 1 pc
  else if opcode = OP_PUSHDATA2 then readSize 2 pc
  else readSize 4 pc

def getOp : CScript → Option (BitVec 8 × List (BitVec 8) × CScript)
  | [] => none
  | opcode :: pc =>
    if opcode ≤ OP_PUSHDATA4 then do
      let (nSize, pc) ← pushSize opcode pc
      if pc.length < nSize then none else some (opcode, pc.take nSize, pc.drop nSize)
    else some (opcode, [], pc)

inductive TemplateOp where
  | pubkey
  | pubkeyHash
  | opcode (op : BitVec 8)

namespace TemplateOp

def accepts : TemplateOp → BitVec 8 → List (BitVec 8) → Bool
  | pubkey, _, vch => decide (33 ≤ vch.length) && decide (vch.length ≤ 65)
  | pubkeyHash, _, vch => decide (vch.length = 20)
  | opcode op, op', vch => decide (op' = op) && decide (vch = [])

def solution : TemplateOp → List (BitVec 8) → List (List (BitVec 8))
  | opcode _, _ => []
  | _, vch => [vch]

end TemplateOp

def matchTemplate : List TemplateOp → CScript → Option (List (List (BitVec 8)))
  | [], [] => some []
  | [], _ :: _ => none
  | op :: ops, script => do
    let (opcode, vch, pc) ← getOp script
    if op.accepts opcode vch then
      let vSolutions ← matchTemplate ops pc
      some (op.solution vch ++ vSolutions)
    else none

def pubkeyTemplate : List TemplateOp := [.pubkey, .opcode OP_CHECKSIG]

def pubkeyHashTemplate : List TemplateOp :=
  [.opcode OP_DUP, .opcode OP_HASH160, .pubkeyHash, .opcode OP_EQUALVERIFY, .opcode OP_CHECKSIG]

def isValidPubKey (vch : List (BitVec 8)) : Bool :=
  match vch.head? with
  | none => false
  | some header =>
    if header = 2 ∨ header = 3 then decide (vch.length = 33)
    else if header = 4 ∨ header = 6 ∨ header = 7 then decide (vch.length = 65)
    else false

def extractDestination (hash160 : List (BitVec 8) → CKeyID) (script : CScript) :
    Option CTxDestination :=
  if isPayToScriptHash script then some (.scriptID (uint160 ((script.drop 2).take 20)))
  else
    match matchTemplate pubkeyTemplate script with
    | some vSolutions =>
      let vch := vSolutions.headD []
      if isValidPubKey vch then some (.keyID (hash160 vch)) else none
    | none => (matchTemplate pubkeyHashTemplate script).map fun vSolutions =>
      .keyID (uint160 (vSolutions.headD []))

variable {pc rest : CScript} {nSize : ℕ}

theorem readSize_length {width : ℕ} (h : readSize width pc = some (nSize, rest)) : pc.length = width + rest.length := by
  unfold readSize at h
  split_ifs at h with hshort
  obtain ⟨-, rfl⟩ := Prod.mk.inj (Option.some.inj h)
  rw [List.length_drop]
  omega

variable {opcode : BitVec 8}

theorem pushSize_length (h : pushSize opcode pc = some (nSize, rest)) : pc.length ≤ 4 + rest.length := by
  unfold pushSize at h
  split_ifs at h
  · obtain ⟨-, rfl⟩ := Prod.mk.inj (Option.some.inj h)
    omega
  all_goals
    have hlen := readSize_length h
    omega

variable {script : CScript} {vch : List (BitVec 8)}

theorem getOp_length (h : getOp script = some (opcode, vch, pc)) : script.length ≤ 5 + vch.length + pc.length := by
  cases script with
  | nil => cases h
  | cons op rest =>
    simp only [getOp] at h
    split_ifs at h
    · obtain ⟨⟨nSize, tail⟩, hsize, h⟩ := Option.bind_eq_some_iff.mp h
      have hlen := pushSize_length hsize
      simp only at h
      split_ifs at h with hshort
      cases h
      simp only [List.length_cons, List.length_take, List.length_drop]
      omega
    · cases h
      simp only [List.length_cons, List.length_nil]
      omega

variable {op : TemplateOp}

theorem TemplateOp.accepts_length (h : op.accepts opcode vch = true) : vch.length ≤ 65 := by
  cases op <;> simp_all [accepts]

variable {vSolutions : List (List (BitVec 8))} {ops : List TemplateOp}

theorem matchTemplate_some (h : matchTemplate ops script = some vSolutions) :
    script.length ≤ 70 * ops.length ∧ ∀ op ∈ ops.head?, ∃ opcode vch pc,
      getOp script = some (opcode, vch, pc) ∧ op.accepts opcode vch = true := by
  induction ops generalizing script vSolutions with
  | nil =>
    cases script with
    | nil => simp
    | cons _ _ => cases h
  | cons op ops ih =>
    obtain ⟨⟨opcode, vch, pc⟩, hget, h⟩ := Option.bind_eq_some_iff.mp h
    simp only at h
    split_ifs at h with haccepts
    obtain ⟨rest, hrest, -⟩ := Option.bind_eq_some_iff.mp h
    have hlen := getOp_length hget
    have hvch := TemplateOp.accepts_length haccepts
    have hpc := (ih hrest).1
    refine ⟨?_, ?_⟩
    · rw [List.length_cons]
      omega
    · intro op' hop
      obtain rfl : op = op' := by simpa using hop
      exact ⟨opcode, vch, pc, hget, haccepts⟩

theorem matchTemplate_spendable (hops : ops.length ≤ 100) (hop : op.accepts OP_RETURN [] = false)
    (h : matchTemplate (op :: ops) script = some vSolutions) : isUnspendable script = false := by
  obtain ⟨hlen, hfirst⟩ := matchTemplate_some h
  rw [List.length_cons] at hlen
  have hmax : ¬ MAX_SCRIPT_SIZE < script.length := by
    rw [MAX_SCRIPT_SIZE]
    omega
  have hreturn : script.head? ≠ some OP_RETURN := by
    intro hhead
    obtain ⟨pc, rfl⟩ : ∃ pc, script = OP_RETURN :: pc := by
      cases script with
      | nil => cases hhead
      | cons b pc => exact ⟨pc, by simpa using hhead⟩
    obtain ⟨opcode, vch, pc', hget, haccepts⟩ := hfirst op rfl
    rw [getOp, if_neg (by decide)] at hget
    cases hget
    rw [hop] at haccepts
    cases haccepts
  simp [isUnspendable, hreturn, hmax]

theorem isPayToScriptHash_spendable (h : isPayToScriptHash script = true) : isUnspendable script = false := by
  simp only [isPayToScriptHash, Bool.and_eq_true, beq_iff_eq] at h
  obtain ⟨⟨hlen, hstart⟩, -⟩ := h
  have hreturn : script.head? ≠ some OP_RETURN := by
    intro hhead
    cases script with
    | nil => cases hhead
    | cons b pc =>
      have hb : b = OP_HASH160 := by
        have := congrArg List.head? hstart
        simpa using this
      rw [hb, List.head?_cons] at hhead
      exact absurd hhead (by decide)
  simp [isUnspendable, hreturn, hlen, MAX_SCRIPT_SIZE]

theorem extractDestination_spendable {hash160 : List (BitVec 8) → CKeyID} {dest : CTxDestination}
    (h : extractDestination hash160 script = some dest) :
    isUnspendable script = false := by
  unfold extractDestination at h
  split_ifs at h with hp2sh
  · exact isPayToScriptHash_spendable hp2sh
  · cases hkey : matchTemplate pubkeyTemplate script with
    | some vSolutions => exact matchTemplate_spendable (by decide) (by decide) hkey
    | none =>
      rw [hkey] at h
      obtain ⟨vSolutions, hhash, -⟩ := Option.map_eq_some_iff.mp h
      exact matchTemplate_spendable (by decide) (by decide) hhash

end ButCore
