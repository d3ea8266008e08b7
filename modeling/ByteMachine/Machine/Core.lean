import ByteMachine.Alu
import ByteMachine.Bus.Basic
import ByteMachine.Fault
import ByteMachine.Listing

/-!
# The core of the machine

The core is the machine without its sink: registers, flags, the current
register, the run state, the tick counter, and the memory on its bus.  The
current register is the implicit source and destination of most instructions.
Memory is reached through the address register and the data register only, and
every operand is fetched through that pair.

**Results.**
* `get_assign`: assigning to the current register leaves the others alone.
* `memory_store`: a store is the write of the data register at the address
  register, and no other step of an instruction touches the memory.
* `reset_eq`: a reset keeps the memory and nothing else.
-/

namespace ByteMachine

/-- Whether the machine takes ticks. -/
inductive RunState
  | running
  | halted
  deriving DecidableEq, Repr

/-- The state of the machine without its sink. -/
structure Core (μ : Type) where
  regs : Registers
  flags : Flags
  /-- The number of the current register. -/
  current : UInt8
  state : RunState
  /-- The number of instructions executed since power-on or the last reset. -/
  ticks : Nat
  memory : μ
  deriving DecidableEq

namespace Core

section

variable {μ : Type}

def powerOn (memory : μ) : Core μ :=
  ⟨Registers.zero, Flags.clear, 0, .running, 0, memory⟩

/-- Whether the machine ignores ticks. -/
def isHalted (c : Core μ) : Bool :=
  c.state == .halted

/-- Back to power-on, with the memory as it is. -/
def reset (c : Core μ) : Core μ :=
  powerOn c.memory

def value (c : Core μ) : UInt8 :=
  c.regs.get c.current

/-! ### Changing one part -/

/-- Put `x` into the program counter. -/
def jump (c : Core μ) (x : UInt8) : Core μ :=
  { c with regs := { c.regs with pc := x } }

def setSp (c : Core μ) (x : UInt8) : Core μ :=
  { c with regs := c.regs.setSp x }

def setRegister (c : Core μ) (i x : UInt8) : Core μ :=
  { c with regs := c.regs.set i x }

/-- Make register `i` the current one. -/
def select (c : Core μ) (i : UInt8) : Core μ :=
  { c with current := i }

def setEqual (c : Core μ) (b : Bool) : Core μ :=
  { c with flags := ⟨b⟩ }

/-- Put `x` into the current register. -/
def assign (c : Core μ) (x : UInt8) : Core μ :=
  c.setRegister c.current x

def address (c : Core μ) (a : UInt8) : Core μ :=
  { c with regs := { c.regs with mar := a } }

def data (c : Core μ) (x : UInt8) : Core μ :=
  { c with regs := { c.regs with mdr := x } }

/-- Move the program counter past an instruction. -/
def advance (c : Core μ) (op : Opcode) : Core μ :=
  c.jump (c.regs.pc + UInt8.ofNat op.size)

def count (c : Core μ) : Core μ :=
  { c with ticks := c.ticks + 1 }

def halt (c : Core μ) : Core μ :=
  { c with state := .halted }

def resume (c : Core μ) : Core μ :=
  { c with state := .running }

end

/-! ### Reaching the memory -/

section

variable {μ : Type} [Bus μ]

/-- Read the cell named by the address register into the data register. -/
def load (c : Core μ) : Core μ :=
  c.data (Bus.read c.memory c.regs.mar)

/-- Write the data register to the cell named by the address register. -/
def store (c : Core μ) : Core μ :=
  { c with memory := Bus.write c.memory c.regs.mar c.regs.mdr }

/-- Read the byte at distance `n` from the program counter. -/
def operand (c : Core μ) (n : UInt8) : Core μ :=
  (c.address (c.regs.pc + n)).load

/-- Read the byte at the program counter. -/
def fetch (c : Core μ) : Core μ :=
  (c.address c.regs.pc).load

/-- Write `x` to memory at `a`, past the address and data registers. -/
def poke (c : Core μ) (a x : UInt8) : Core μ :=
  { c with memory := Bus.write c.memory a x }

/-- Write a program to memory from address 0 on. -/
def loadProgram (c : Core μ) (program : List UInt8) : Core μ :=
  { c with memory := Bus.load c.memory program }

end

/-! ### What the steps do -/

section

variable {μ : Type} (c : Core μ)

@[simp]
theorem isHalted_eq_true_iff : c.isHalted = true ↔ c.state = .halted := by
  simp [isHalted]

@[simp]
theorem isHalted_eq_false_iff : c.isHalted = false ↔ c.state = .running := by
  rcases h : c.state with _ | _ <;> simp [isHalted, h]

theorem reset_eq : c.reset = powerOn c.memory := rfl

theorem get_assign (i x : UInt8) :
    (c.assign x).regs.get i = if c.current = i then x else c.regs.get i :=
  c.regs.get_set _ _ _

@[simp]
theorem value_assign (x : UInt8) : (c.assign x).value = x :=
  c.regs.get_set_self _ _

@[simp]
theorem pc_jump (x : UInt8) : (c.jump x).regs.pc = x := rfl

@[simp]
theorem pc_advance (op : Opcode) :
    (c.advance op).regs.pc = c.regs.pc + UInt8.ofNat op.size := rfl

@[simp]
theorem memory_assign (x : UInt8) : (c.assign x).memory = c.memory := rfl

@[simp]
theorem memory_advance (op : Opcode) : (c.advance op).memory = c.memory := rfl

variable [Bus μ]

theorem fetch_eq :
    c.fetch =
      { c with
        regs := { c.regs with mar := c.regs.pc, mdr := Bus.read c.memory c.regs.pc } } :=
  rfl

theorem operand_eq (n : UInt8) :
    c.operand n =
      { c with
        regs :=
          { c.regs with
            mar := c.regs.pc + n
            mdr := Bus.read c.memory (c.regs.pc + n) } } :=
  rfl

@[simp]
theorem memory_fetch : c.fetch.memory = c.memory := rfl

@[simp]
theorem memory_operand (n : UInt8) : (c.operand n).memory = c.memory := rfl

@[simp]
theorem memory_load : c.load.memory = c.memory := rfl

theorem memory_store :
    c.store.memory = Bus.write c.memory c.regs.mar c.regs.mdr := rfl

end

end Core
end ByteMachine
