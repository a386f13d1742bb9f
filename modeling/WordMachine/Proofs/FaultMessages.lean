/-
WordMachine/Proofs/FaultMessages.lean

What the message of a fault says about the fault.

All messages of one kind of fault begin with the same words, and no kind has an opening
that another one's begins with (`Kind.eq_of_prefix`).  So the kind is told by the opening,
whatever stands behind it, and no input text that is quoted can imitate another kind.

Behind the opening stand the fields.  A number is followed by words or by nothing, never by
a digit, and an opcode has two digits, so that one field after the other can be told
(`Alike.of_details`).  The one field that no message tells is the opcode of a jump.

Main result: `message_eq_iff`.
-/
import WordMachine.Proofs.Decimals
import WordMachine.Proofs.HexText

namespace WordMachine

namespace Fault

open Text Text.Hex

/-! ### The two parts of a message -/

inductive Kind
  | stackUnderflow
  | unsupportedOpcode
  | invalidJump
  | copyTooLarge
  | memoryLimitExceeded
  | halted
  | stepLimitExceeded
  | invalidHex
  deriving DecidableEq

def kind : Fault → Kind
  | stackUnderflow _ _ => .stackUnderflow
  | unsupportedOpcode _ _ => .unsupportedOpcode
  | invalidJump _ _ _ => .invalidJump
  | copyTooLarge _ _ _ => .copyTooLarge
  | memoryLimitExceeded _ _ _ => .memoryLimitExceeded
  | halted _ => .halted
  | stepLimitExceeded _ => .stepLimitExceeded
  | invalidHex _ => .invalidHex

/-- The words in front of the first field. -/
def Kind.opening : Kind → String
  | stackUnderflow => "stack underflow: needed "
  | unsupportedOpcode => "unsupported opcode 0x"
  | invalidJump => "invalid jump from pc "
  | copyTooLarge => "copy of "
  | memoryLimitExceeded => "memory access at offset "
  | halted => "vm already halted at pc "
  | stepLimitExceeded => "step limit of "
  | invalidHex => "invalid hex input: "

/-- The fields in the order of the message, with the words between them. -/
def details : Fault → List Char
  | stackUnderflow requested depth =>
    (toString requested).toList ++ (" element(s), depth is ".toList ++ (toString depth).toList)
  | unsupportedOpcode opcode pc => pair opcode ++ (" at pc ".toList ++ (toString pc).toList)
  | invalidJump _ pc destination =>
    (toString pc).toList ++ (" to ".toList ++ (toString destination.toNat).toList)
  | copyTooLarge opcode size limit =>
    (toString size.toNat).toList ++ (" bytes exceeds the ".toList
      ++ ((toString limit).toList ++ ("-byte limit (opcode 0x".toList ++ (pair opcode ++ [')']))))
  | memoryLimitExceeded offset size limit =>
    (toString offset.toNat).toList ++ (" with size ".toList
      ++ ((toString size).toList ++ (" exceeds ".toList
        ++ ((toString limit).toList ++ (" bytes".toList ++ [])))))
  | halted pc => (toString pc).toList
  | stepLimitExceeded limit => (toString limit).toList ++ (" reached".toList ++ [])
  | invalidHex input => input.toList

theorem toList_message (f : Fault) : f.message.toList = f.kind.opening.toList ++ f.details := by
  cases f <;> unfold message kind details Kind.opening
  all_goals simp [opcodeText]

/-- No opening begins with another one. -/
theorem Kind.eq_of_prefix {k l : Kind} (h : k.opening.toList <+: l.opening.toList) : k = l := by
  rw [← List.isPrefixOf_iff_prefix] at h
  revert h
  cases k <;> cases l <;> decide

/-- The kind of a fault is told by the opening of its message. -/
theorem kind_eq_of_message {e f : Fault} (h : e.message = f.message) : e.kind = f.kind := by
  have he : e.kind.opening.toList <+: f.message.toList := by
    rw [← h, toList_message]
    exact List.prefix_append _ _
  have hf : f.kind.opening.toList <+: f.message.toList := by
    rw [toList_message]
    exact List.prefix_append _ _
  rcases List.prefix_or_prefix_of_prefix he hf with hprefix | hprefix
  · exact Kind.eq_of_prefix hprefix
  · exact (Kind.eq_of_prefix hprefix).symm

/-! ### The fields -/

/-- Faults that are the same up to the opcode of a jump. -/
inductive Alike : Fault → Fault → Prop
  | refl (f : Fault) : Alike f f
  | jump (opcode opcode' : UInt8) (pc : Nat) (destination : Word) :
      Alike (.invalidJump opcode pc destination) (.invalidJump opcode' pc destination)

/-- An opcode takes two digits, whatever follows. -/
theorem pair_append_inj {x y : UInt8} {s t : List Char} (h : pair x ++ s = pair y ++ t) :
    x = y ∧ s = t := by
  obtain ⟨hpair, hrest⟩ := List.append_inj h rfl
  exact ⟨pair_inj hpair, hrest⟩

/-- The fields are told one after the other. -/
theorem Alike.of_details {e f : Fault} (hkind : e.kind = f.kind) (h : e.details = f.details) :
    Alike e f := by
  cases e with
  | stackUnderflow requested depth =>
    cases f with
    | stackUnderflow requested' depth' =>
      obtain ⟨rfl, hdepth⟩ := toString_append_inj (by decide) h
      obtain rfl := toString_inj hdepth
      exact .refl _
    | _ => cases hkind
  | unsupportedOpcode opcode pc =>
    cases f with
    | unsupportedOpcode opcode' pc' =>
      obtain ⟨rfl, hrest⟩ := pair_append_inj h
      obtain rfl := toString_inj (List.append_cancel_left hrest)
      exact .refl _
    | _ => cases hkind
  | invalidJump opcode pc destination =>
    cases f with
    | invalidJump opcode' pc' destination' =>
      obtain ⟨rfl, hdestination⟩ := toString_append_inj (by decide) h
      obtain rfl := BitVec.eq_of_toNat_eq (toString_inj hdestination)
      exact .jump opcode opcode' pc destination
    | _ => cases hkind
  | copyTooLarge opcode size limit =>
    cases f with
    | copyTooLarge opcode' size' limit' =>
      obtain ⟨hsize, hrest⟩ := toString_append_inj (by decide) h
      obtain rfl := BitVec.eq_of_toNat_eq hsize
      obtain ⟨rfl, hopcode⟩ := toString_append_inj (by decide) hrest
      obtain ⟨rfl, _⟩ := pair_append_inj hopcode
      exact .refl _
    | _ => cases hkind
  | memoryLimitExceeded offset size limit =>
    cases f with
    | memoryLimitExceeded offset' size' limit' =>
      obtain ⟨hoffset, hrest⟩ := toString_append_inj (by decide) h
      obtain rfl := BitVec.eq_of_toNat_eq hoffset
      obtain ⟨rfl, hlimit⟩ := toString_append_inj (by decide) hrest
      obtain ⟨rfl, _⟩ := toString_append_inj (by decide) hlimit
      exact .refl _
    | _ => cases hkind
  | halted pc =>
    cases f with
    | halted pc' =>
      obtain rfl := toString_inj h
      exact .refl _
    | _ => cases hkind
  | stepLimitExceeded limit =>
    cases f with
    | stepLimitExceeded limit' =>
      obtain ⟨rfl, _⟩ := toString_append_inj (by decide) h
      exact .refl _
    | _ => cases hkind
  | invalidHex input =>
    cases f with
    | invalidHex input' =>
      obtain rfl := String.toList_inj.mp h
      exact .refl _
    | _ => cases hkind

/-- **Messages tell faults apart.**  Two faults have the same message just if they are of the
same kind and have the same fields, but for the opcode of a jump. -/
theorem message_eq_iff (e f : Fault) : e.message = f.message ↔ Alike e f := by
  constructor
  · intro h
    have hkind := kind_eq_of_message h
    have htexts := congrArg String.toList h
    rw [toList_message, toList_message, hkind] at htexts
    exact .of_details hkind (List.append_cancel_left htexts)
  · rintro (_ | _)
    · rfl
    · rfl

/-- The opcode of a jump is left out, and a quoted text does not make another message. -/
theorem message_eq_iff_quoted :
    (invalidJump 0x56 3 9).message = (invalidJump 0x57 3 9).message ∧
      (invalidHex "jump from pc 3 to 9").message ≠ (invalidJump 0x56 3 9).message := by
  constructor
  · exact (message_eq_iff _ _).mpr (.jump 0x56 0x57 3 9)
  · intro h
    cases (message_eq_iff _ _).mp h

end Fault

end WordMachine
