import ByteMachine.Binary64
import ByteMachine.Machine.Command
import ByteMachine.Sink.Callback

/-!
# The emulator

The emulator is the machine as it is offered to an embedding host: over a flat
memory, with a callback for printed values, with 32-bit budgets, with errors
that are texts, and with counts in double precision.

**Results.**
* `tickCount_of_lt`: a tick count below 2⁵³ is shown exactly.
* `toNat_ofNat_of_le`: a number that does not exceed a 32-bit budget is not cut
  by its width.
-/

namespace ByteMachine

/-- The machine over a flat memory, with a callback for printed values. -/
abbrev Emulator (σ : Type) := Machine Bank (Callback σ)

namespace Emulator

/-- An error as the host sees it. -/
structure Error where
  message : String
  deriving DecidableEq, Repr

/-- A decode fault as the host sees it. -/
def Error.ofFault (e : DecodeFault) : Error :=
  ⟨e.message⟩

/-- The state of the emulator as the host reads it, the memory and the general registers
apart. -/
structure Display where
  pc : UInt8
  sp : UInt8
  mar : UInt8
  mdr : UInt8
  current : UInt8
  equal : Bool
  halted : Bool
  /-- The number that the double for the tick counter denotes. -/
  ticks : Nat
  deriving DecidableEq, Repr

section

variable {σ : Type}

def create (callback : Callback σ) : Emulator σ :=
  Machine.powerOn Bank.zero callback

def tick (v : Verbosity) (m : Emulator σ) :
    Outcome (Except Error Unit) Bank (Callback σ) :=
  (Machine.tick v m).map fun r _ => r.mapError Error.ofFault

def runFor (v : Verbosity) (budget : UInt32) (m : Emulator σ) :
    Outcome (Except Error UInt32) Bank (Callback σ) :=
  (Machine.runFor v budget.toNat m).map fun r _ =>
    (r.map UInt32.ofNat).mapError Error.ofFault

def tickCount (m : Emulator σ) : Nat :=
  Binary64.nearest m.core.ticks

def display (m : Emulator σ) : Display where
  pc := m.core.regs.pc
  sp := m.core.regs.sp
  mar := m.core.regs.mar
  mdr := m.core.regs.mdr
  current := m.core.current
  equal := m.core.flags.equal
  halted := m.isHalted
  ticks := tickCount m

def disassemble (m : Emulator σ) (a : UInt8) : String :=
  (Line.decodeAt m.core.memory a).text

theorem tickCount_of_lt {m : Emulator σ} (h : m.core.ticks < 1 <<< Binary64.precision) :
    m.tickCount = m.core.ticks :=
  Binary64.nearest_of_lt h

/-- A count that stays within a 32-bit budget is not cut by its width. -/
theorem toNat_ofNat_of_le {n : Nat} {budget : UInt32} (h : n ≤ budget.toNat) :
    (UInt32.ofNat n).toNat = n := by
  exact UInt32.toNat_ofNat_of_lt' (Nat.lt_of_le_of_lt h budget.toNat_lt)

end

end Emulator
end ByteMachine
