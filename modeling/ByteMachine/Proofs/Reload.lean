import ByteMachine.Machine.Command
import ByteMachine.Sink.Buffer
import Mathlib.Data.List.GetD

/-!
# Starting over with another program

A reset puts everything but the memory and the sink back to power-on, and a program that is
loaded overlays the memory from address 0 on.  Together they make a machine that has no past
but the cells that the program does not reach and whatever the sink has kept.  A program as
long as the memory, or longer, reaches all the cells.

A memory that is built from an image and a memory that a program is loaded into are filled in
two different ways.  They agree on programs of every length, since neither goes past the last
address.

**Results.**
* `getD_append_drop`: one list laid over another.
* `load_eq_ofImage`, `load_zero`, `load_take`, `load_load`: a loaded program is an image, its
  bytes past the last address do not count, and of two programs the second lies on top.
* `performAll_reset_loadProgram`: a session with a reset and a load in it goes on as on a
  machine that has just been switched on.
* `reload_is_a_fresh_start`: all of this, after any history.
-/

namespace ByteMachine

/-- One list laid over another from the start: where the first ends, the second shows. -/
theorem getD_append_drop {α : Type} (top below : List α) (i : Nat) (d : α) :
    (top ++ below.drop top.length).getD i d = top.getD i (below.getD i d) := by
  simp only [List.getD_eq_getElem?_getD]
  by_cases h : i < top.length
  · rw [List.getElem?_append_left h, List.getElem?_eq_getElem h]
    rfl
  · have hle : top.length ≤ i := Nat.le_of_not_lt h
    rw [List.getElem?_append_right hle, List.getElem?_drop, Nat.add_sub_cancel' hle,
      List.getElem?_eq_none hle]
    rfl

namespace Bus

section

variable (b : Bank) (program : List UInt8)

/-- A loaded program is an image that ends with the cells behind the program. -/
theorem load_eq_ofImage :
    load b program = Bank.ofImage (program ++ b.toList.drop program.length) := by
  apply Bank.ext_get
  intro a
  have hbelow : b.toList.getD a.toNat 0 = b.get a := by
    rw [List.getD_eq_getElem?_getD, Bank.getElem?_toList]
    rfl
  rw [get_load, Bank.get_ofImage, getD_append_drop, hbelow]

/-- Where all cells are zero, loading a program and building an image are the same. -/
theorem load_zero : load Bank.zero program = Bank.ofImage program :=
  load_eq_fill Bank.zero program

/-- Bytes past the last address are ignored. -/
theorem load_take : load b (program.take Bank.size) = load b program := by
  apply Bank.ext_get
  intro a
  have hlt : a.toNat < Bank.size := a.toNat_lt
  rw [get_load, get_load, List.getD_eq_getElem?_getD, List.getElem?_take_of_lt hlt,
    List.getD_eq_getElem?_getD]

/-- A second program lies on top of the first. -/
theorem load_load (second : List UInt8) :
    load (load b program) second = load b (second ++ program.drop second.length) :=
  Bank.ext_get fun a => by rw [get_load, get_load, get_load, getD_append_drop]

end

end Bus

namespace Machine

section

variable {ω : Type} [Sink ω] (v : Verbosity)

/-- A session with a reset and a load in it goes on as on a machine that has just been
switched on, with the loaded memory and with the sink as it is. -/
theorem performAll_reset_loadProgram (program : List UInt8) (later : List Command)
    (m : Machine Bank ω) :
    let resumed := performAll v later (powerOn (Bus.load m.core.memory program) m.output)
    performAll v (.reset :: .loadProgram program :: later) m =
      ⟨.done :: .done :: resumed.result, resumed.machine, resumed.log⟩ := rfl

end

end Machine

namespace Reload

section

variable {ω : Type} [Sink ω] (v : Verbosity)

/-- **A reload is a fresh start.**  After any history, a reset and the load of a program make
the machine that is switched on with an image of the program and of the cells behind it, and
with the sink as it is.  All that is done later returns, does and logs the same as on that
machine.  A program that fills the memory leaves nothing else of the history.  On the memory
alone, a load puts the bytes of the program into the cells from address 0 on, ignores those
past the last address, and keeps the cells that the program does not reach.  It is the image
of the program where all cells are zero, and the second of two loads lies on top. -/
theorem reload_is_a_fresh_start (m : Machine Bank ω) (history : List Command)
    (program : List UInt8) :
    let past := Machine.performAll v history m
    let cells := past.machine.core.memory.toList
    let fresh := Machine.powerOn (Bank.ofImage (program ++ cells.drop program.length))
      past.machine.output
    (∀ later,
      let resumed := Machine.performAll v later fresh
      Machine.performAll v (history ++ .reset :: .loadProgram program :: later) m =
        ⟨past.result ++ .done :: .done :: resumed.result, resumed.machine,
          past.log ++ resumed.log⟩) ∧
    (256 ≤ program.length →
      fresh = Machine.powerOn (Bank.ofImage program) past.machine.output) ∧
    ∀ b : Bank,
      (∀ a, (Bus.load b program).get a = program.getD a.toNat (b.get a)) ∧
      Bus.load b (program.take 256) = Bus.load b program ∧
      Bus.load Bank.zero program = Bank.ofImage program ∧
      ∀ second,
        Bus.load (Bus.load b program) second =
          Bus.load b (second ++ program.drop second.length) := by
  intro past cells fresh
  refine ⟨?_, ?_, ?_⟩
  · intro later resumed
    rw [Machine.performAll_append]
    simp only [Outcome.andThen, Outcome.map, Machine.performAll_reset_loadProgram,
      Bus.load_eq_ofImage]
    rfl
  · intro hlength
    have hcells : cells.drop program.length = [] := by
      apply List.drop_eq_nil_of_le
      rw [Bank.length_toList]
      exact hlength
    simp only [fresh, hcells, List.append_nil]
  · intro b
    exact ⟨Bus.get_load b program, Bus.load_take b program, Bus.load_zero program,
      Bus.load_load b program⟩

end

/-- A program one byte longer than the memory. -/
def overlong : List UInt8 :=
  List.replicate 256 0x01 ++ [0xFF]

/-- A history that leaves its marks on the sink, the registers, the flag, the memory, the tick
counter and the run state. -/
def marking : List Command :=
  [.print 5, .setRegister 7 9, .setEqual true, .poke 200 0xAB, .poke 0 0x01, .tick, .stop]

theorem reload_is_a_fresh_start_overlong :
    256 ≤ overlong.length ∧
      (Machine.performAll .off (marking ++ [.reset, .loadProgram overlong])
          (Machine.powerOn Bank.zero Buffer.empty)).machine =
        Machine.powerOn (Bank.ofImage overlong) ⟨#[5], #[]⟩ ∧
      (Bus.load Bank.zero overlong).get 0 = 0x01 := by
  have hlength : 256 ≤ overlong.length := by decide +kernel
  obtain ⟨hsession, hfull, hmemory⟩ :=
    reload_is_a_fresh_start .off (Machine.powerOn Bank.zero Buffer.empty) marking overlong
  refine ⟨hlength, ?_, (hmemory Bank.zero).1 0⟩
  exact (congrArg Outcome.machine (hsession [])).trans (hfull hlength)

end Reload
end ByteMachine
