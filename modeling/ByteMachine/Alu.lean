import ByteMachine.Registers

/-!
# Arithmetic on the register file

The arithmetic unit adds and multiplies two general registers, steps a register
or the program counter up or down by one, and compares two registers.  Its
operands are the numbers of registers, not values, and its arithmetic is modulo
256.

**Results.**
* `Target.get_set_self`, `Target.get_set_of_ne`: a target holds what was last
  put into it, and the other targets are left alone.
* `dec_inc`, `inc_dec`: stepping up and stepping down undo each other.
-/

namespace ByteMachine
namespace Alu

/-- What can be stepped up and down in place. -/
inductive Target
  /-- A general register; 255 is the stack pointer. -/
  | register (i : UInt8)
  | pc
  deriving DecidableEq, Repr

/-- An operation of the arithmetic unit. -/
inductive Op
  | add (a b : UInt8)
  | mul (a b : UInt8)
  | inc (t : Target)
  | dec (t : Target)
  | cmp (a b : UInt8)
  deriving DecidableEq, Repr

def Target.get (t : Target) (r : Registers) : UInt8 :=
  match t with
  | .register i => r.get i
  | .pc => r.pc

/-- The register file with `x` in a target. -/
def Target.set (t : Target) (r : Registers) (x : UInt8) : Registers :=
  match t with
  | .register i => r.set i x
  | .pc => { r with pc := x }

def add (r : Registers) (a b : UInt8) : UInt8 :=
  r.get a + r.get b

def mul (r : Registers) (a b : UInt8) : UInt8 :=
  r.get a * r.get b

def inc (t : Target) (r : Registers) : Registers :=
  t.set r (t.get r + 1)

def dec (t : Target) (r : Registers) : Registers :=
  t.set r (t.get r - 1)

def cmp (r : Registers) (a b : UInt8) : Flags :=
  ⟨r.get a == r.get b⟩

structure State where
  regs : Registers
  flags : Flags
  deriving DecidableEq

/-- Carry out an operation.  A sum or a product is returned and the state is
kept; the other operations change the state and return nothing. -/
def apply (op : Op) (s : State) : Option UInt8 × State :=
  match op with
  | .add a b => (some (add s.regs a b), s)
  | .mul a b => (some (mul s.regs a b), s)
  | .inc t => (none, { s with regs := inc t s.regs })
  | .dec t => (none, { s with regs := dec t s.regs })
  | .cmp a b => (none, { s with flags := cmp s.regs a b })

section

variable (r : Registers)

@[simp]
theorem Target.get_set_self (t : Target) (x : UInt8) :
    t.get (t.set r x) = x := by
  cases t <;> simp [Target.get, Target.set]

theorem Target.get_set_of_ne {t u : Target} (x : UInt8) (h : t ≠ u) :
    u.get (t.set r x) = u.get r := by
  cases t <;> cases u <;>
    simp_all [Target.get, Target.set, Registers.get, Registers.set,
      Bank.get_set_of_ne]

@[simp]
theorem Target.set_set_self (t : Target) (x y : UInt8) :
    t.set (t.set r x) y = t.set r y := by
  cases t <;> simp [Target.set, Registers.set]

@[simp]
theorem Target.set_get_self (t : Target) : t.set r (t.get r) = r := by
  cases t <;> simp [Target.get, Target.set, Registers.get, Registers.set]

/-- Stepping down undoes stepping up. -/
@[simp]
theorem dec_inc (t : Target) : dec t (inc t r) = r := by
  simp [dec, inc]

/-- Stepping up undoes stepping down. -/
@[simp]
theorem inc_dec (t : Target) : inc t (dec t r) = r := by
  simp [dec, inc]

end

end Alu
end ByteMachine
