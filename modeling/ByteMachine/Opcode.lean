/-!
# The instruction set

Fifteen bytes are opcodes; every other byte is not an instruction.  An opcode
fixes the mnemonic of its instruction, the number of operand bytes that follow
it in memory, and the way in which the instruction moves the program counter.

**Results.**
* `ofByte?_eq_some_iff`: a byte is decoded to an opcode exactly when it is the
  byte of that opcode.
* `ofByte?_eq_none_iff`: a byte is refused exactly when no opcode has it.
* `size_eq_add_one`: an instruction is one byte longer than its operands.
-/

namespace ByteMachine

/-- An instruction of the machine, without its operands. -/
inductive Opcode
  /-- Stop the machine. -/
  | halt
  /-- Select register 0. -/
  | init
  /-- Select the register named by the operand. -/
  | set
  /-- Put the operand into the current register. -/
  | save
  /-- Put the product of two registers into the current register. -/
  | mul
  /-- Emit the current register. -/
  | prn
  /-- Load the current register from memory. -/
  | ld
  /-- Store the current register to memory. -/
  | st
  /-- Push the current register. -/
  | push
  /-- Pop into the current register. -/
  | pop
  /-- Put the sum of two registers into the current register. -/
  | add
  /-- Jump. -/
  | jmp
  /-- Jump if the last comparison found its operands equal. -/
  | jeq
  /-- Jump if the last comparison found its operands different. -/
  | jne
  /-- Compare the current register with another one. -/
  | cmp
  deriving DecidableEq, Repr

/-- How an instruction moves the program counter. -/
inductive Advance
  /-- To the instruction that follows in memory. -/
  | sequential
  /-- To a jump target, or past the instruction where no jump is taken. -/
  | jump
  /-- Not at all, because the machine stops. -/
  | halt
  deriving DecidableEq, Repr

namespace Opcode

/-- All opcodes in the order of their bytes. -/
def all : List Opcode :=
  [halt, init, set, save, mul, prn, ld, st, push, pop, add, jmp, jeq, jne, cmp]

/-- The byte that stands for an opcode in memory. -/
def byte : Opcode → UInt8
  | halt => 0x00
  | init => 0x01
  | set => 0x02
  | save => 0x04
  | mul => 0x05
  | prn => 0x06
  | ld => 0x08
  | st => 0x09
  | push => 0x0A
  | pop => 0x0B
  | add => 0x0C
  | jmp => 0x11
  | jeq => 0x13
  | jne => 0x14
  | cmp => 0x16

/-- The opcode that a byte stands for, if it is one. -/
def ofByte? (b : UInt8) : Option Opcode :=
  all.find? fun op => op.byte == b

/-- The name of an opcode in listings. -/
def mnemonic : Opcode → String
  | halt => "HALT"
  | init => "INIT"
  | set => "SET"
  | save => "SAVE"
  | mul => "MUL"
  | prn => "PRN"
  | ld => "LD"
  | st => "ST"
  | push => "PUSH"
  | pop => "POP"
  | add => "ADD"
  | jmp => "JMP"
  | jeq => "JEQ"
  | jne => "JNE"
  | cmp => "CMP"

/-- The number of operand bytes that follow an opcode. -/
def operandCount : Opcode → Nat
  | halt | init | prn | push | pop => 0
  | set | save | ld | st | jmp | jeq | jne | cmp => 1
  | mul | add => 2

/-- The number of bytes of an instruction, opcode and operands. -/
def size (op : Opcode) : Nat :=
  op.operandCount + 1

/-- How the instruction of an opcode moves the program counter. -/
def advance : Opcode → Advance
  | halt => .halt
  | jmp | jeq | jne => .jump
  | init | set | save | mul | prn | ld | st | push | pop | add | cmp => .sequential

theorem mem_all (op : Opcode) : op ∈ all := by
  cases op <;> decide

@[simp]
theorem ofByte?_byte (op : Opcode) : ofByte? op.byte = some op := by
  cases op <;> rfl

/-- Different opcodes have different bytes. -/
theorem byte_inj {a b : Opcode} (h : a.byte = b.byte) : a = b := by
  have hab : ofByte? a.byte = ofByte? b.byte := by
    rw [h]
  rw [ofByte?_byte, ofByte?_byte] at hab
  exact Option.some.inj hab

theorem ofByte?_eq_some_iff {b : UInt8} {op : Opcode} :
    ofByte? b = some op ↔ op.byte = b := by
  constructor
  · intro h
    simpa using List.find?_some h
  · rintro rfl
    exact ofByte?_byte op

theorem ofByte?_eq_none_iff {b : UInt8} :
    ofByte? b = none ↔ ∀ op : Opcode, op.byte ≠ b := by
  simp [ofByte?, mem_all]

theorem size_eq_add_one (op : Opcode) : op.size = op.operandCount + 1 := rfl

theorem size_pos (op : Opcode) : 1 ≤ op.size :=
  Nat.le_add_left 1 _

theorem size_le (op : Opcode) : op.size ≤ 3 := by
  cases op <;> decide

end Opcode
end ByteMachine
