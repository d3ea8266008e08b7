import ByteMachine.Bank

/-!
# Registers and flags

The register file has 256 general registers, the program counter, and the pair
of registers through which memory is reached: an address register and a data
register.  The stack pointer is general register 255, not a cell of its own.

**Results.**
* `get_set`: a general register keeps what was last put into it, and a write to
  one register leaves the others alone.
* `sp_set`: writing general register 255 is writing the stack pointer.
-/

namespace ByteMachine

structure Registers where
  general : Bank
  pc : UInt8
  mar : UInt8
  mdr : UInt8
  deriving DecidableEq

structure Flags where
  /-- Whether the last comparison found its operands equal. -/
  equal : Bool
  deriving DecidableEq

def Flags.clear : Flags :=
  ⟨false⟩

namespace Registers

/-- The register file at power-on: every register is zero. -/
def zero : Registers :=
  ⟨Bank.zero, 0, 0, 0⟩

/-- The general register that serves as the stack pointer. -/
def spIndex : UInt8 := 255

def get (r : Registers) (i : UInt8) : UInt8 :=
  r.general.get i

def set (r : Registers) (i x : UInt8) : Registers :=
  { r with general := r.general.set i x }

def sp (r : Registers) : UInt8 :=
  r.get spIndex

def setSp (r : Registers) (x : UInt8) : Registers :=
  r.set spIndex x

section

variable (r : Registers)

@[simp]
theorem get_zero (i : UInt8) : zero.get i = 0 :=
  Bank.get_zero i

theorem get_set (i j x : UInt8) :
    (r.set i x).get j = if i = j then x else r.get j :=
  Bank.get_set _ _ _ _

@[simp]
theorem get_set_self (i x : UInt8) : (r.set i x).get i = x :=
  Bank.get_set_self _ _ _

theorem get_set_of_ne {i j : UInt8} (x : UInt8) (h : i ≠ j) :
    (r.set i x).get j = r.get j :=
  Bank.get_set_of_ne _ _ h

@[simp]
theorem set_set_self (i x y : UInt8) : (r.set i x).set i y = r.set i y := by
  simp [set]

theorem set_comm {i j : UInt8} (x y : UInt8) (h : i ≠ j) :
    (r.set i x).set j y = (r.set j y).set i x := by
  simp [set, r.general.set_comm x y h]

theorem sp_set (i x : UInt8) :
    (r.set i x).sp = if i = spIndex then x else r.sp :=
  r.get_set _ _ _

@[simp]
theorem sp_setSp (x : UInt8) : (r.setSp x).sp = x :=
  r.get_set_self _ _

@[simp]
theorem pc_set (i x : UInt8) : (r.set i x).pc = r.pc := rfl

@[simp]
theorem mar_set (i x : UInt8) : (r.set i x).mar = r.mar := rfl

@[simp]
theorem mdr_set (i x : UInt8) : (r.set i x).mdr = r.mdr := rfl

end

end Registers
end ByteMachine
