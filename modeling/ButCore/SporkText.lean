import ButCore.Spork

/-!
# The text that a spork key signs

Outside testnet the signed text is the id, the value and the time written one after another, with
nothing between them.
-/
namespace ButCore.Spork

def decimal (n : ℤ) : String := n.repr

def strMessage (spork : CSporkMessage) : String :=
  decimal spork.nSporkID.toInt ++ decimal spork.nValue ++ decimal spork.nTimeSigned

/-- `GetSignerKeyID` outside testnet: `hashMessage` puts the magic in front and hashes. -/
def signerKeyID (hashMessage : String → Uint256)
    (recoverCompact : Uint256 → List (BitVec 8) → Option CKeyID) (spork : CSporkMessage) :
    Option CKeyID :=
  recoverCompact (hashMessage (strMessage spork)) spork.vchSig

/-- What a signature is meant to authorise. -/
def content (spork : CSporkMessage) : SporkId × ℤ × ℤ :=
  (spork.nSporkID, spork.nValue, spork.nTimeSigned)

def SameWidths (a b : CSporkMessage) : Prop :=
  (decimal a.nSporkID.toInt).length = (decimal b.nSporkID.toInt).length ∧
    (decimal a.nValue).length = (decimal b.nValue).length

theorem string_append_inj {a a' b b' : String} (h : a ++ b = a' ++ b')
    (hlen : a.length = a'.length) : a = a' ∧ b = b' := by
  have hlist := congrArg String.toList h
  rw [String.toList_append, String.toList_append] at hlist
  have split := List.append_inj hlist (by rwa [String.length_toList, String.length_toList])
  exact ⟨String.toList_inj.mp split.1, String.toList_inj.mp split.2⟩

theorem content_eq_of_sameWidths {a b : CSporkMessage} (text : strMessage a = strMessage b)
    (widths : SameWidths a b) : content a = content b := by
  obtain ⟨heads, time⟩ := string_append_inj text (by
    rw [String.length_append, String.length_append, widths.1, widths.2])
  obtain ⟨id, value⟩ := string_append_inj heads widths.1
  rw [content, content, BitVec.toInt_inj.mp (Int.repr_injective id), Int.repr_injective value,
    Int.repr_injective time]

/-- Two messages with one text have one content exactly when their parts have the same widths. -/
theorem content_eq_iff_sameWidths (a b : CSporkMessage) :
    (strMessage a = strMessage b → content a = content b) ↔
      (strMessage a = strMessage b → SameWidths a b) := by
  constructor
  · intro inj text
    have same := inj text
    rw [content, content, Prod.mk.injEq, Prod.mk.injEq] at same
    rw [SameWidths, same.1, same.2.1]
    exact ⟨rfl, rfl⟩
  · intro widths text
    exact content_eq_of_sameWidths text (widths text)

def toyOff (vchSig : List (BitVec 8)) : CSporkMessage := ⟨10001, 4070908800, 1600000000, vchSig⟩

def toyMoved (vchSig : List (BitVec 8)) : CSporkMessage := ⟨10001, 40709088001, 600000000, vchSig⟩

/-- A digit moves from the time to the value; every signature stays good. -/
theorem strMessage_movedDigit :
    content (toyOff []) ≠ content (toyMoved []) ∧ strMessage (toyOff []) = strMessage (toyMoved []) ∧
      ∀ (hashMessage : String → Uint256) (recoverCompact : Uint256 → List (BitVec 8) → Option CKeyID)
        (vchSig : List (BitVec 8)), signerKeyID hashMessage recoverCompact (toyOff vchSig) =
          signerKeyID hashMessage recoverCompact (toyMoved vchSig) := by
  have text : strMessage (toyOff []) = strMessage (toyMoved []) := by
    show decimal (BitVec.toInt 10001#32) ++ decimal 4070908800 ++ decimal 1600000000 =
      decimal (BitVec.toInt 10001#32) ++ decimal 40709088001 ++ decimal 600000000
    decide +kernel
  refine ⟨by simp [content, toyOff, toyMoved], text, fun hashMessage recoverCompact vchSig => ?_⟩
  have same : strMessage (toyOff vchSig) = strMessage (toyMoved vchSig) := text
  rw [signerKeyID, signerKeyID, same]
  rfl

end ButCore.Spork
