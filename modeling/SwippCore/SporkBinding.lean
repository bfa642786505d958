import SwippCore.Spork
import SwippCore.Lib.DecimalText

/-!
# What a spork signature binds

The signed text is the id, the value and the time without anything between them.
The ids are all of five digits, but digits can move from the front of the time to
the end of the value, and the text stays the same.
-/

set_option autoImplicit false

namespace SwippCore.SporkBinding
open Spork DecimalText

/-- The ids of the enumeration, but for `SPORK_UNDEFINED`. -/
def sporkIds : List ℤ :=
  [sporkMasternodePaymentsEnforcement,sporkMaxInstantXValue,sporkMasternodeAdaptiveNetwork,
    sporkMasternodeCollateral]

/-- `strMessage` of `CheckSignature` and `Sign` -/
def strMessage (spork : CSporkMessage) : String :=
  toString spork.nSporkID ++ toString spork.nValue ++ toString spork.nTimeSigned

def signedWith (vchSig : List UInt8) (spork : CSporkMessage) : CSporkMessage :=
  { spork with vchSig := vchSig }

theorem check_signature_text (node : Node) (vchSig : List UInt8) (m : CSporkMessage) :
    Spork.checkSignature node (signedWith vchSig m) =
      node.verifyMessage strMainPubKey vchSig (strMessage m) := rfl

section Pair
variable (m m' : CSporkMessage)

def SameSetting : Prop :=
  m.nSporkID = m'.nSporkID ∧ m.nValue = m'.nValue ∧ m.nTimeSigned = m'.nTimeSigned

structure Binds : Prop where
  text : strMessage m = strMessage m' → SameSetting m m'
  signature : (∀ node vchSig, Spork.checkSignature node (signedWith vchSig m) = true →
    Spork.checkSignature node (signedWith vchSig m') = true) → SameSetting m m'

def signs (text : String) : Node :=
  ⟨false,true,fun _ _ _ _ => 0,fun _ _ msg => msg == text⟩

/-- A signature serves for both messages on every node exactly where the texts are the same. -/
theorem signature_shared_iff :
    (∀ node vchSig, Spork.checkSignature node (signedWith vchSig m) = true →
      Spork.checkSignature node (signedWith vchSig m') = true) ↔ strMessage m = strMessage m' := by
  constructor
  · intro h
    have hone := h (signs (strMessage m)) []
    simp only [check_signature_text, signs, beq_iff_eq, forall_const] at hone
    exact hone.symm
  · intro h node vchSig hm
    rwa [check_signature_text, ← h]

theorem binds_iff_text : Binds m m' ↔ (strMessage m = strMessage m' → SameSetting m m') :=
  ⟨fun h => h.text,fun h => ⟨h,fun hs => h ((signature_shared_iff m m').mp hs)⟩⟩

theorem message_text :
    (strMessage m).toList = text m.nSporkID++(text m.nValue++text m.nTimeSigned) := by
  rw [strMessage, String.toList_append, String.toList_append, text_to_string, text_to_string,
    text_to_string, List.append_assoc]

theorem id_text_length {id : ℤ} (h : id ∈ sporkIds) : (text id).length = 5 := by
  revert id
  decide

theorem same_text_iff (h : m.nSporkID ∈ sporkIds) (h' : m'.nSporkID ∈ sporkIds) :
    strMessage m = strMessage m' ↔ m.nSporkID = m'.nSporkID ∧
      text m.nValue++text m.nTimeSigned = text m'.nValue++text m'.nTimeSigned := by
  rw [← String.toList_inj, message_text, message_text]
  constructor
  · intro heq
    have hlen : (text m.nSporkID).length = (text m'.nSporkID).length :=
      (id_text_length h).trans (id_text_length h').symm
    obtain ⟨hid,hrest⟩ := List.append_inj heq hlen
    exact ⟨text_injective hid,hrest⟩
  · rintro ⟨hid,hrest⟩
    rw [hid, hrest]

/-- A signature binds the setting exactly where no digits can have moved between the value
and the time of the one message and those of the other. -/
theorem signature_binds_iff (h : m.nSporkID ∈ sporkIds) (h' : m'.nSporkID ∈ sporkIds) :
    Binds m m' ↔ m.nSporkID = m'.nSporkID →
      ¬ ∃ d, Moved m.nValue m.nTimeSigned m'.nValue m'.nTimeSigned d ∨
        Moved m'.nValue m'.nTimeSigned m.nValue m.nTimeSigned d := by
  rw [binds_iff_text, same_text_iff m m' h h', SameSetting, ← readings_same_iff]
  constructor
  · intro hb hid hrest
    exact (hb ⟨hid,hrest⟩).2
  · rintro hb ⟨hid,hrest⟩
    exact ⟨hid,hb hid hrest⟩

end Pair

section Samples

def published : CSporkMessage := ⟨[1],10002,0,15,1500000000⟩
def altered : CSporkMessage := ⟨[1],10002,0,151,500000000⟩

/-- Two messages with one value and different times are told apart. -/
theorem signature_binds_sample :
    Binds published { published with nTimeSigned := 1500000001 } ↔ (10002:ℤ) = 10002 →
      ¬ ∃ d, Moved 15 1500000000 15 1500000001 d ∨ Moved 15 1500000001 15 1500000000 d :=
  signature_binds_iff published { published with nTimeSigned := 1500000001 } (by decide) (by decide)

/-- The signature of one setting lets a node take another one, with a higher value. -/
theorem signature_serves_another :
    published.nSporkID ∈ sporkIds ∧ altered.nSporkID ∈ sporkIds ∧
    strMessage published = strMessage altered ∧ ¬ Binds published altered ∧
    getSporkValue (processSpork (signs (strMessage published)) altered State.empty).1
      sporkMaxInstantXValue = 151 := by
  have hsame : strMessage published = strMessage altered := by decide +kernel
  refine ⟨by decide,by decide,hsame,fun hb => ?_,by decide +kernel⟩
  exact absurd (hb.text hsame).2.1 (by decide)

end Samples

end SwippCore.SporkBinding
