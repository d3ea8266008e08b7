import ByteMachine.Machine.Core

/-!
# The effect of an instruction

Each instruction changes the core by a short sequence of steps.  The order of
the steps shows where two of them meet in the same register or cell: a push
moves the stack pointer before it reads the current register, and a pop fills
the current register before it moves the stack pointer.

What an instruction tells the outside is not part of its effect.

**Results.**
* `memory_effect`: only a store and a push write to memory, and each of them
  writes once.
* `current_effect`, `flags_effect`: only the instructions that say so change
  the current register and the flag.
* `state_effect`, `ticks_effect`: only a halt instruction stops the machine,
  and no effect counts a tick.
-/

namespace ByteMachine
namespace Core

section

variable {μ : Type} [Bus μ]

/-- Combine the two registers named by the operands, and put the result into
the current register. -/
def combine (c : Core μ) (f : Registers → UInt8 → UInt8 → UInt8) : Core μ :=
  let a := (c.operand 1).regs.mdr
  let c := (c.operand 1).operand 2
  c.assign (f c.regs a c.regs.mdr)

/-- Jump to the operand if `taken`, and past the instruction otherwise, in which
case the operand is not read. -/
def branch (c : Core μ) (op : Opcode) (taken : Bool) : Core μ :=
  if taken then (c.operand 1).jump (c.operand 1).regs.mdr else c.advance op

/-- Move the stack pointer down and write the current register there. -/
def push (c : Core μ) : Core μ :=
  let c := { c with regs := Alu.dec (.register Registers.spIndex) c.regs }
  ((c.address c.regs.sp).data c.value).store

/-- Read the cell at the stack pointer into the current register and move the
stack pointer up. -/
def pop (c : Core μ) : Core μ :=
  let c := (c.address c.regs.sp).load
  let c := c.assign c.regs.mdr
  { c with regs := Alu.inc (.register Registers.spIndex) c.regs }

/-- The effect of an instruction on the core.  The program counter is at its
first byte before, and at the next instruction after. -/
def effect (op : Opcode) (c : Core μ) : Core μ :=
  match op with
  | .halt => c.halt
  | .init => (c.select 0).advance op
  | .set =>
      let c := c.operand 1
      (c.select c.regs.mdr).advance op
  | .save =>
      let c := c.operand 1
      (c.assign c.regs.mdr).advance op
  | .mul => (c.combine Alu.mul).advance op
  | .prn => c.advance op
  | .ld =>
      let c := c.operand 1
      let c := (c.address c.regs.mdr).load
      (c.assign c.regs.mdr).advance op
  | .st =>
      let c := c.operand 1
      ((c.address c.regs.mdr).data c.value).store.advance op
  | .push => c.push.advance op
  | .pop => c.pop.advance op
  | .add => (c.combine Alu.add).advance op
  | .jmp =>
      let c := c.operand 1
      c.jump c.regs.mdr
  | .jeq => c.branch op c.flags.equal
  | .jne => c.branch op !c.flags.equal
  | .cmp =>
      let c := c.operand 1
      ({ c with flags := Alu.cmp c.regs c.current c.regs.mdr }).advance op

/-- The write that an instruction makes, address and byte, if it makes one. -/
def writeOf (op : Opcode) (c : Core μ) : Option (UInt8 × UInt8) :=
  match op with
  | .st => some (Bus.read c.memory (c.regs.pc + 1), c.value)
  | .push =>
      let r := Alu.dec (.register Registers.spIndex) c.regs
      some (r.sp, r.get c.current)
  | _ => none

/-! ### A jump changes nothing but registers -/

section

variable (c : Core μ) (op : Opcode) (taken : Bool)

@[simp]
theorem memory_branch : (c.branch op taken).memory = c.memory := by
  cases taken with
  | false => rfl
  | true => rfl

@[simp]
theorem current_branch : (c.branch op taken).current = c.current := by
  cases taken with
  | false => rfl
  | true => rfl

@[simp]
theorem flags_branch : (c.branch op taken).flags = c.flags := by
  cases taken with
  | false => rfl
  | true => rfl

@[simp]
theorem state_branch : (c.branch op taken).state = c.state := by
  cases taken with
  | false => rfl
  | true => rfl

@[simp]
theorem ticks_branch : (c.branch op taken).ticks = c.ticks := by
  cases taken with
  | false => rfl
  | true => rfl

end

/-! ### What an effect changes and what it leaves alone -/

variable (op : Opcode) (c : Core μ)

/-- The memory after an instruction is the memory before it with the one write
of a store or a push carried out. -/
theorem memory_effect :
    (effect op c).memory = Bus.replay c.memory (writeOf op c).toList := by
  cases op with
  | jeq => exact memory_branch c .jeq c.flags.equal
  | jne => exact memory_branch c .jne !c.flags.equal
  | _ => rfl

/-- Only the two selecting instructions change the current register. -/
theorem current_effect :
    (effect op c).current =
      match op with
      | .init => 0
      | .set => Bus.read c.memory (c.regs.pc + 1)
      | _ => c.current := by
  cases op with
  | jeq => exact current_branch c .jeq c.flags.equal
  | jne => exact current_branch c .jne !c.flags.equal
  | _ => rfl

/-- Only a comparison changes the flag. -/
theorem flags_effect :
    (effect op c).flags =
      match op with
      | .cmp => Alu.cmp c.regs c.current (Bus.read c.memory (c.regs.pc + 1))
      | _ => c.flags := by
  cases op with
  | jeq => exact flags_branch c .jeq c.flags.equal
  | jne => exact flags_branch c .jne !c.flags.equal
  | _ => rfl

/-- Only a halt instruction stops the machine. -/
theorem state_effect :
    (effect op c).state = if op = .halt then .halted else c.state := by
  cases op with
  | jeq => exact state_branch c .jeq c.flags.equal
  | jne => exact state_branch c .jne !c.flags.equal
  | _ => rfl

/-- No effect counts a tick. -/
theorem ticks_effect : (effect op c).ticks = c.ticks := by
  cases op with
  | jeq => exact ticks_branch c .jeq c.flags.equal
  | jne => exact ticks_branch c .jne !c.flags.equal
  | _ => rfl

end

end Core
end ByteMachine
