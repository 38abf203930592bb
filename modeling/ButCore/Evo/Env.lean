import ButCore.Lib.Checked
import ButCore.Primitives

/-!
# What the smartnode code reads

Chain parameters, the UTXO set and the tip of the active chain, the branch that `pindexPrev` ends,
and the primitives of scripts, addresses, hashes and signatures.
-/
namespace ButCore.Evo

inductive Network where
  | main | test | devnet | regtest
  deriving DecidableEq

structure LLMQParams where
  size : ℕ
  minSize : ℕ
  dkgInterval : ℕ

def INT_MAX : ℤ := 2147483647

/-- `getAncestor` gives the hash of the ancestor of `pindexPrev` at a height, `blockHeight` the
entry of `mapBlockIndex`. A read of `validMembers` or `signers` past its end finds `strayBit`. -/
structure Env where
  network : Network
  mainnetDefaultPort : BitVec 16
  dip0003Enabled : Bool
  dip0008Enabled : Bool
  nSmartnodeMinimumConfirmations : ℤ
  collaterals : List (ℤ × CAmount)
  llmqs : LLMQType → Option LLMQParams
  spork21Active : Bool
  getUTXOCoin : COutPoint → Option CTxOut
  tipHeight : ℤ
  prevHeight : ℤ
  prevBlockHash : Uint256
  getAncestor : ℤ → Option Uint256
  blockHeight : Uint256 → Option ℤ
  getAllQuorumMembers : LLMQType → Uint256 → List Uint256
  strayBit : ℕ → Bool
  isValid : CService → Bool
  isRoutable : CService → Bool
  isIPv4 : CService → Bool
  extractDestination : CScript → Option CTxDestination
  confirmedHashWith : Uint256 → Uint256 → Uint256
  calcTxInputsHash : CTransaction → Uint256
  verifyHash : CKeyID → ExtraPayload → Bool
  verifyMessage : CKeyID → ExtraPayload → Bool
  verifyInsecure : CBLSPublicKey → ExtraPayload → Bool

inductive RejectCode where
  | invalid | duplicate
  deriving DecidableEq

structure Reject where
  dos : ℕ
  code : RejectCode
  reason : String
  deriving DecidableEq

inductive AssertSite where
  | addMN | updateMN | removeMN | addUniqueProperty | deleteUniqueProperty
  | poSePunish | poSeDecrease | calcPenalty | applyDiff
  /-- the `assert(false)` after a payload that does not decode -/
  | payload
  /-- a null pointer that is dereferenced -/
  | nullPointer
  /-- `llmqs.at` of a missing type -/
  | llmqs
  deriving DecidableEq

/-- How a function ends early: it returns false with a reject reason, or an assertion fails. -/
inductive Fault where
  | reject (r : Reject)
  | assertion (site : AssertSite)
  deriving DecidableEq

def rejectIf (c : Prop) [Decidable c] (dos : ℕ) (code : RejectCode) (reason : String) :
    Except Fault Unit :=
  Checked.failIf c (.reject ⟨dos, code, reason⟩)

def assertThat (c : Prop) [Decidable c] (site : AssertSite) : Except Fault Unit :=
  Checked.require c (.assertion site)

def deref {α : Type} (p : Option α) (site : AssertSite) : Except Fault α :=
  Checked.expect p (.assertion site)

@[simp] theorem rejectIf_eq_ok {c : Prop} [Decidable c] {dos : ℕ} {code : RejectCode}
    {reason : String} {u : Unit} : rejectIf c dos code reason = .ok u ↔ ¬ c :=
  Checked.failIf_eq_ok

@[simp] theorem rejectIf_eq_assertion {c : Prop} [Decidable c] {dos : ℕ} {code : RejectCode}
    {reason : String} {site : AssertSite} :
    rejectIf c dos code reason ≠ .error (.assertion site) := by
  simp [rejectIf]

theorem rejectIf_pos {c : Prop} [Decidable c] (hc : c) (dos : ℕ) (code : RejectCode)
    (reason : String) : rejectIf c dos code reason = .error (.reject ⟨dos, code, reason⟩) :=
  if_pos hc

theorem rejectIf_neg {c : Prop} [Decidable c] (hc : ¬ c) (dos : ℕ) (code : RejectCode)
    (reason : String) : rejectIf c dos code reason = .ok () :=
  if_neg hc

@[simp] theorem assertThat_eq_ok {c : Prop} [Decidable c] {site : AssertSite} {u : Unit} :
    assertThat c site = .ok u ↔ c :=
  Checked.require_eq_ok

@[simp] theorem assertThat_eq_error {c : Prop} [Decidable c] {site : AssertSite} {e : Fault} :
    assertThat c site = .error e ↔ ¬ c ∧ .assertion site = e :=
  Checked.require_eq_error

@[simp] theorem deref_eq_ok {α : Type} {p : Option α} {site : AssertSite} {a : α} :
    deref p site = .ok a ↔ p = some a :=
  Checked.expect_eq_ok

@[simp] theorem deref_eq_error {α : Type} {p : Option α} {site : AssertSite} {e : Fault} :
    deref p site = .error e ↔ p = none ∧ .assertion site = e :=
  Checked.expect_eq_error

theorem reject_of_ne {α : Type} {x : Except Fault α} (noAssertion : ∀ site, x ≠ .error (.assertion site))
    (notOk : ∀ a, x ≠ .ok a) : ∃ r, x = .error (.reject r) := by
  cases x with
  | ok a => exact absurd rfl (notOk a)
  | error e =>
    cases e with
    | reject r => exact ⟨r, rfl⟩
    | assertion site => exact absurd rfl (noAssertion site)

theorem deref_some {α : Type} {p : Option α} {a : α} (h : p = some a) (site : AssertSite) :
    deref p site = .ok a :=
  deref_eq_ok.mpr h

namespace Env

variable (env : Env)

def isValidCollateral (amount : CAmount) : Bool := env.collaterals.any (·.2 == amount)

/-- `collateralsHeightMap` keeps the first height inserted for an amount. -/
def isPayableCollateral (height : ℤ) (amount : CAmount) : Bool :=
  match env.collaterals.find? (·.2 == amount) with
  | none => false
  | some (endHeight, _) => endHeight == INT_MAX || decide (height ≤ endHeight)

end Env

end ButCore.Evo
