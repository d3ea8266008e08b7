import ByteMachine.Hex
import ByteMachine.Opcode

/-!
# Decode faults

A fetched byte that is no opcode is a fault.  It is the only way in which an
operation of the machine can fail.

**Results.**
* `message_inj`: different faults have different texts.
* `decode_eq_ok_iff`, `decode_eq_error_iff`: decoding succeeds exactly on
  the bytes of the opcodes, and a fault names the byte and its address.
-/

namespace ByteMachine

/-- A byte was fetched that is no opcode. -/
structure DecodeFault where
  opcode : UInt8
  /-- The program counter at the fetch. -/
  pc : UInt8
  deriving DecidableEq, Repr

/-- The text of a decode fault. -/
def DecodeFault.message (e : DecodeFault) : String :=
  "invalid instruction " ++ Hex.byte e.opcode ++ " at PC " ++ Hex.byte e.pc

/-- The text of a fault in its parts, of which the bytes have a fixed length. -/
theorem DecodeFault.toList_message (e : DecodeFault) :
    e.message.toList =
      "invalid instruction ".toList ++ (Hex.byte e.opcode).toList ++ " at PC ".toList ++
        (Hex.byte e.pc).toList := by
  have happend : ∀ a b c d : String,
      (a ++ b ++ c ++ d).toList = a.toList ++ b.toList ++ c.toList ++ d.toList := by
    intro a b c d
    simp only [String.toList_append]
  exact happend _ _ _ _

/-- The opcode and the program counter can be read off the text of a fault. -/
theorem DecodeFault.message_inj {e f : DecodeFault} (h : e.message = f.message) : e = f := by
  have hlist := congrArg String.toList h
  rw [toList_message, toList_message] at hlist
  have hlength : (Hex.byte e.pc).toList.length = (Hex.byte f.pc).toList.length := by
    rw [Hex.length_byte, Hex.length_byte]
  obtain ⟨hfront, hpc⟩ := List.append_inj' hlist hlength
  have hopcode := List.append_cancel_left (List.append_cancel_right hfront)
  have hopcode' := Hex.byte_inj (String.toList_injective hopcode)
  have hpc' := Hex.byte_inj (String.toList_injective hpc)
  cases e
  cases f
  rw [mk.injEq]
  exact ⟨hopcode', hpc'⟩

namespace Opcode

/-- Decode the byte fetched at `pc`. -/
def decode (b pc : UInt8) : Except DecodeFault Opcode :=
  match ofByte? b with
  | some op => .ok op
  | none => .error ⟨b, pc⟩

@[simp]
theorem decode_byte (op : Opcode) (pc : UInt8) :
    decode op.byte pc = .ok op := by
  simp [decode]

theorem decode_eq_ok_iff {b pc : UInt8} {op : Opcode} :
    decode b pc = .ok op ↔ op.byte = b := by
  rw [← ofByte?_eq_some_iff]
  cases h : ofByte? b <;> simp [decode, h]

theorem decode_eq_error_iff {b pc : UInt8} {e : DecodeFault} :
    decode b pc = .error e ↔ ofByte? b = none ∧ e = ⟨b, pc⟩ := by
  cases h : ofByte? b <;> simp [decode, h, eq_comm]

end Opcode
end ByteMachine
