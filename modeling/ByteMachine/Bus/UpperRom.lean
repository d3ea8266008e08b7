import ByteMachine.Bus.Basic

/-!
# A memory whose upper half is read-only

**Results.**
* `read_write`: a write below address 128 takes effect, and a write from there
  on is ignored.
-/

namespace ByteMachine

/-- A bank of which only the lower 128 cells can be written over the bus. -/
structure UpperRom where
  /-- The cells, the read-only ones included. -/
  bank : Bank
  deriving DecidableEq

namespace UpperRom

/-- The first read-only address. -/
def firstReadOnly : UInt8 := 0x80

/-- A memory that starts with `image`, which fills the read-only half too. -/
def ofImage (image : List UInt8) : UpperRom :=
  ⟨Bank.ofImage image⟩

instance : Bus UpperRom where
  read m a := m.bank.get a
  write m a x := if a < firstReadOnly then ⟨m.bank.set a x⟩ else m

theorem read_eq (m : UpperRom) (a : UInt8) : Bus.read m a = m.bank.get a := rfl

theorem read_write (m : UpperRom) (a x i : UInt8) :
    Bus.read (Bus.write m a x) i =
      if a < firstReadOnly ∧ a = i then x else Bus.read m i := by
  by_cases h : a < firstReadOnly
  · simp [Bus.read, Bus.write, h, Bank.get_set]
  · simp [Bus.read, Bus.write, h]

end UpperRom
end ByteMachine
