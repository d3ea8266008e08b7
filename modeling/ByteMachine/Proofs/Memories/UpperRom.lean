import ByteMachine.Bus.UpperRom
import ByteMachine.Proofs.Memories.Simulation
import ByteMachine.Sink.Buffer

/-!
# Running from a half that cannot be written

A memory whose upper half is read-only drops every write to that half.  Beside a bank
with the same image it drifts apart with the first such write, be it a store, a poke, a
long program, or a push onto the stack, which starts at the top of the memory.  Nobody
notices as long as nobody reads a cell of the upper half that has changed in the bank.

**Invariant.**  The lower half is that of the bank, and the upper half is the image.

**Results.**
* `read_replay`: what the memory holds after any writes.
* `simulation`: the invariant is kept by every write, and a read agrees unless it is one
  of a changed cell in the upper half.
* `upper_rom_keeps_the_image_and_runs_alike`: the memory after a history, and the
  agreement with a bank.
-/

namespace ByteMachine
namespace UpperRom

/-- A cell of the lower half holds the byte last written to it, and a cell of the upper
half is never written. -/
theorem read_replay (u : UpperRom) (ws : List (UInt8 × UInt8)) (a : UInt8) :
    Bus.read (Bus.replay u ws) a =
      if a < firstReadOnly then Bus.latest (Bus.read u) ws a else Bus.read u a := by
  induction ws using List.reverseRecOn with
  | nil =>
      split
      · rfl
      · rfl
  | append_singleton ws w ih =>
      rw [Bus.replay_append, Bus.replay_cons, Bus.replay_nil, read_write, ih,
        Bus.latest_concat]
      by_cases hw : w.1 = a
      · subst hw
        by_cases ha : w.1 < firstReadOnly
        · rw [if_pos ⟨ha, rfl⟩, if_pos ha, if_pos rfl]
        · rw [if_neg fun h => ha h.1, if_neg ha, if_neg ha]
      · rw [if_neg fun h => hw h.2, if_neg hw]

/-- The lower half is that of a bank, and the upper half is an image. -/
def Follows (image b : Bank) (u : UpperRom) : Prop :=
  ∀ a, Bus.read u a = if a < firstReadOnly then b.get a else image.get a

theorem follows_image (image : Bank) : Follows image image ⟨image⟩ := by
  intro a
  rw [read_eq, ite_self]

/-- A read agrees with that of the bank unless it is one of a changed cell in the upper
half. -/
theorem simulation (image : Bank) :
    Bus.Simulation (fun r => r.1 < firstReadOnly ∨ r.2 = image.get r.1)
      (Follows image) where
  read {b u} h a hsafe := by
    rw [h a]
    by_cases ha : a < firstReadOnly
    · rw [if_pos ha]
      rfl
    · rw [if_neg ha]
      exact (hsafe.resolve_left ha).symm
  write {b u} h a x i := by
    rw [read_write, h i, Bus.write_bank, Bank.get_set]
    by_cases hi : i < firstReadOnly
    · rw [if_pos hi, if_pos hi]
      by_cases ha : a = i
      · rw [if_pos ⟨ha ▸ hi, ha⟩, if_pos ha]
      · rw [if_neg fun h => ha h.2, if_neg ha]
    · rw [if_neg hi, if_neg hi, if_neg]
      rintro ⟨ha, rfl⟩
      exact hi ha

end UpperRom

namespace Memories

section

variable {ω : Type} [Sink ω] (v : Verbosity)

/-- **A memory with a read-only half keeps its image there.**  After every history, and
at every moment of its runs, the upper half is as it was, whatever has been written to
it, and a cell of the lower half holds the byte last written to it.  A machine that runs
on a bank with the same image returns, prints and logs the same, and differs in the upper
half of the memory only, as long as neither a tick nor the host has read a cell of the
upper half that has changed in the bank. -/
theorem upper_rom_keeps_the_image_and_runs_alike (c : Core Bank) (o : ω)
    (cmds : List Command) :
    let steps := cmds.flatMap Command.unroll
    let onRom : Machine UpperRom ω := ⟨c.withMemory ⟨c.memory⟩, o⟩
    let flat ops := Machine.performAll v ops ⟨c, o⟩
    let rom ops := Machine.performAll v ops onRom
    ∀ n, ∀ ops ∈ [cmds.take n, steps.take n],
      (∀ a, Bus.read (rom ops).machine.core.memory a =
        if a < UpperRom.firstReadOnly then
          Bus.latest c.memory.get (Machine.chronicle v Command.written ops onRom) a
        else c.memory.get a) ∧
      ((∀ r ∈ Machine.chronicle v Command.reads ops ⟨c, o⟩,
          r.1 < UpperRom.firstReadOnly ∨ r.2 = c.memory.get r.1) →
        (flat ops).Alike
          (fun b u => ∀ a, a < UpperRom.firstReadOnly → Bus.read u a = b.get a)
          (rom ops)) := by
  intro steps onRom flat rom n ops _
  let start : Machine Bank ω := ⟨c, o⟩
  constructor
  · intro a
    have hmemory : (rom ops).machine.core.memory = _ := Machine.memory_performAll v ops onRom
    rw [hmemory]
    exact UpperRom.read_replay ⟨c.memory⟩ _ a
  · intro hsafe
    obtain ⟨hresult, hlog, houtput, hcore, hmemory⟩ :=
      (UpperRom.simulation c.memory).alike_performAll v (m := start) ops
        (UpperRom.follows_image c.memory) hsafe
    refine ⟨hresult, hlog, houtput, hcore, ?_⟩
    intro a ha
    exact (hmemory a).trans (if_pos ha)

end

/-- A program that pushes 7 onto the empty stack, at the top of the memory, and stores it
to cell 0x40. -/
def dropping : Core Bank :=
  Core.powerOn (Bank.ofImage [0x04, 7, 0x0A, 0x09, 0x40])

theorem upper_rom_keeps_the_image_and_runs_alike_dropping :
    let cmds : List Command := [.runFor 3]
    let flat := Machine.performAll .off cmds ⟨dropping, Buffer.empty⟩
    let rom := Machine.performAll .off cmds
      ⟨dropping.withMemory (UpperRom.mk dropping.memory), Buffer.empty⟩
    rom.result = flat.result ∧ rom.machine.core.regs = flat.machine.core.regs ∧
      Bus.read rom.machine.core.memory 0x40 = flat.machine.core.memory.get 0x40 ∧
      flat.machine.core.memory.get 0xFF = 7 ∧
      Bus.read rom.machine.core.memory 0xFF = 0 := by
  intro cmds flat rom
  have hreads : Machine.chronicle .off Command.reads cmds ⟨dropping, Buffer.empty⟩ =
      [(0, 0x04), (1, 7), (2, 0x0A), (3, 0x09), (4, 0x40)] := by
    decide +kernel
  have hsafe : ∀ r ∈ Machine.chronicle .off Command.reads cmds ⟨dropping, Buffer.empty⟩,
      r.1 < UpperRom.firstReadOnly ∨ r.2 = dropping.memory.get r.1 := by
    rw [hreads]
    simp [UpperRom.firstReadOnly]
  have hwritten : Machine.chronicle .off Command.written cmds ⟨dropping, Buffer.empty⟩ =
      [(0xFF, 7), (0x40, 7)] := by
    decide +kernel
  have hpushed : flat.machine.core.memory.get 0xFF = 7 := by
    simp only [flat]
    rw [Machine.memory_performAll, Bus.get_replay, hwritten]
    rfl
  obtain ⟨hcells, halike⟩ :=
    upper_rom_keeps_the_image_and_runs_alike .off dropping Buffer.empty cmds 1 cmds
      List.mem_cons_self
  have hagree := halike hsafe
  refine ⟨hagree.result, ?_, ?_, hpushed, ?_⟩
  · rw [hagree.core, Core.regs_withMemory]
  · rw [hagree.memory 0x40 (by decide)]
  · have hupper : ¬ (0xFF : UInt8) < UpperRom.firstReadOnly := by
      decide
    rw [hcells 0xFF, if_neg hupper]
    exact Bank.get_ofImage _ _

end Memories
end ByteMachine
