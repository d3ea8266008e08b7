import ByteMachine.Bus.Recorder
import ByteMachine.Proofs.Effect
import ByteMachine.Proofs.Footprint.Cells
import ByteMachine.Proofs.History.Basic
import Mathlib.Data.List.Induction
import Mathlib.Data.Nat.Init

/-!
# The memory is its history

Every command makes a list of writes, which its definition below names: a store and a
push write once, a program is written byte by byte, and nothing else writes.  On a
bank, what has been written is all there is to the memory.  Each cell holds the byte
last written to it, or the byte of the image, and so each tick takes every byte that
it reads from the history.

**Invariant.**  The memory after a history is the memory before it with the writes of
the history carried out in order.

**Results.**
* `memory_performAll`: the invariant, for any bus.
* `get_replay`: a cell of a bank holds the byte last written to it.
* `readsFrom_of_read_eq`: a tick takes its bytes from what the bus reads.
* `memory_is_its_history`: the writes of a history, the memory they leave behind, and
  what the ticks read from it.
-/

namespace ByteMachine

/-! ### The writes of a command -/

/-- The writes of a command, address and byte, in the order in which they are made. -/
def Command.written {μ : Type} [Bus μ] (cmd : Command) (c : Core μ) :
    List (UInt8 × UInt8) :=
  match cmd with
  | .tick => c.written
  | .runFor budget => c.gather Core.written budget
  | .runUntilHalt budget => c.gather Core.written budget
  | .clock k patience => c.resume.gather Core.written (k.limit.getD patience)
  | .poke a x => [(a, x)]
  | .loadProgram program =>
      (List.range (min program.length 256)).map fun i =>
        (UInt8.ofNat i, program.getD i 0)
  | .start | .stop | .reset | .setPc _ | .setSp _ | .setRegister _ _ | .select _
  | .setEqual _ | .read _ | .register _ | .print _ | .fault _ | .drain | .listing _ _
  | .dump => []

namespace Bus

/-- A program is placed byte by byte, from address 0 on up to the last address. -/
theorem placement_eq_map (program : List UInt8) :
    placement program =
      (List.range (min program.length 256)).map fun i =>
        (UInt8.ofNat i, program.getD i 0) := by
  apply List.ext_getElem
  · rw [length_placement, List.length_map, List.length_range, Nat.min_comm]
  · intro i hi _
    rw [length_placement] at hi
    have hlt : i < program.length := by omega
    simp [placement, Bank.indices, List.getElem?_eq_getElem hlt]

/-- The byte last written to an address, or its first byte if there is no write. -/
def latest (first : UInt8 → UInt8) (writes : List (UInt8 × UInt8)) (a : UInt8) : UInt8 :=
  match writes.reverse.find? fun w => w.1 == a with
  | some w => w.2
  | none => first a

section

variable (first : UInt8 → UInt8) (ws : List (UInt8 × UInt8))

theorem latest_concat (w : UInt8 × UInt8) (a : UInt8) :
    latest first (ws ++ [w]) a = if w.1 = a then w.2 else latest first ws a := by
  by_cases h : w.1 = a
  · simp [latest, h]
  · simp [latest, h]

/-- Writes to other addresses leave the last written byte as it was. -/
theorem latest_append_of_ne {us : List (UInt8 × UInt8)} {a : UInt8}
    (h : ∀ w ∈ us, w.1 ≠ a) : latest first (ws ++ us) a = latest first ws a := by
  have hnone : us.reverse.find? (fun w => w.1 == a) = none := by
    rw [List.find?_eq_none]
    intro w hw
    simpa using h w (List.mem_reverse.1 hw)
  simp only [latest, List.reverse_append, List.find?_append, hnone, Option.none_or]

/-- A cell of a bank holds the byte last written to it. -/
theorem get_replay (b : Bank) (a : UInt8) :
    (replay b ws).get a = latest b.get ws a := by
  induction ws using List.reverseRecOn with
  | nil => rfl
  | append_singleton ws w ih =>
      rw [replay_append, latest_concat, ← ih]
      exact Bank.get_set _ _ _ _

end

end Bus

namespace Core

section

variable {μ : Type} [Bus μ]

theorem memory_iterate (n : Nat) (c : Core μ) :
    (next^[n] c).memory = Bus.replay c.memory (c.gather written n) := by
  induction n generalizing c with
  | zero => rfl
  | succ n ih =>
      rw [Function.iterate_succ_apply, ih, memory_next, gather_succ, Bus.replay_append]

theorem memory_apply (cmd : Command) (c : Core μ) :
    (cmd.apply c).memory = Bus.replay c.memory (cmd.written c) := by
  cases cmd with
  | tick => exact memory_next c
  | runFor budget => exact memory_iterate budget c
  | runUntilHalt budget => exact memory_iterate budget c
  | clock k patience => exact memory_iterate (k.limit.getD patience) c.resume
  | loadProgram program =>
      rw [Command.written, ← Bus.placement_eq_map]
      rfl
  | _ => rfl

/-! ### What a tick reads -/

/-- A tick takes every byte that it reads from `look`. -/
structure ReadsFrom (look : UInt8 → UInt8) (c : Core μ) : Prop where
  fetch : c.opcodeByte = look c.regs.pc
  line : c.lineHere = Line.decodeAt (Bank.ofFn look) c.regs.pc
  /-- The tick makes of the core what it would make of it if the memory were a bank
  with the bytes of `look`. -/
  next : c.next = (c.withMemory (Bank.ofFn look)).next.withMemory c.next.memory
  load : c.outlook = .execute .ld → c.next.value = look (look (c.regs.pc + 1))
  pop :
    c.outlook = .execute .pop →
      c.next.regs.general =
        let g := c.regs.general.set c.current (look c.regs.sp)
        g.set Registers.spIndex (g.get Registers.spIndex + 1)

/-- A tick takes its bytes from what the bus reads. -/
theorem readsFrom_of_read_eq {look : UInt8 → UInt8} {c : Core μ}
    (h : ∀ a, Bus.read c.memory a = look a) : c.ReadsFrom look := by
  have hlook : ∀ a, Bus.read (Bank.ofFn look) a = Bus.read c.memory a := by
    intro a
    rw [h a]
    exact Bank.get_ofFn look a
  refine ⟨h _, ?_, ?_, ?_, ?_⟩
  · exact (Line.decodeAt_congr fun a _ => hlook a).symm
  · rw [next_withMemory fun a _ => hlook a]
    rfl
  · intro ho
    rw [next_of_execute ho, value, Registers.get, general_effect, current_effect,
      ← h (c.regs.pc + 1), ← h]
    exact Bank.get_set_self _ _ _
  · intro ho
    rw [next_of_execute ho, general_effect, ← h c.regs.sp]
    rfl

end

end Core

namespace Machine

section

variable {μ ω : Type} [Bus μ] [Sink ω] (v : Verbosity)

/-- The memory after a history is the memory before it with the writes of the history
carried out in order. -/
theorem memory_performAll (cmds : List Command) (m : Machine μ ω) :
    (performAll v cmds m).machine.core.memory =
      Bus.replay m.core.memory (chronicle v Command.written cmds m) := by
  induction cmds generalizing m with
  | nil => rfl
  | cons cmd cmds ih =>
      rw [performAll_cons, Outcome.machine_andThen, Outcome.machine_map, ih,
        chronicle_cons, core_perform, Core.memory_apply, Bus.replay_append]

end

end Machine

namespace History

section

variable {ω : Type} [Sink ω] (v : Verbosity) (image : List UInt8) (o : ω)

/-- The machine at power-on, with a memory that holds `image` and records every
write. -/
def recording : Machine (Recorder Bank) ω :=
  Machine.powerOn (Recorder.fresh (Bank.ofImage image)) o

/-- The byte at an address after the first `n` commands of a history: the one last
written there, or the byte of the image. -/
def byteAt (cmds : List Command) (n : Nat) : UInt8 → UInt8 :=
  Bus.latest (fun a => image.getD a.toNat 0)
    (Machine.chronicle v Command.written (cmds.take n) (recording image o))

theorem writes_recording (cmds : List Command) :
    (Machine.performAll v cmds (recording image o)).machine.core.memory.writes.toList =
      Machine.chronicle v Command.written cmds (recording image o) := by
  rw [Machine.memory_performAll, Recorder.writes_replay]
  rfl

theorem store_recording (cmds : List Command) :
    (Machine.performAll v cmds (recording image o)).machine.core.memory.store =
      Bus.replay (Bank.ofImage image)
        (Machine.chronicle v Command.written cmds (recording image o)) := by
  rw [Machine.memory_performAll, Recorder.store_replay]
  rfl

theorem read_recording (cmds : List Command) (n : Nat) (a : UInt8) :
    Bus.read
        (Machine.performAll v (cmds.take n) (recording image o)).machine.core.memory a =
      byteAt v image o cmds n a := by
  have hfirst : (Bank.ofImage image).get = fun i => image.getD i.toNat 0 :=
    funext (Bank.get_ofImage image)
  rw [Recorder.read_eq, store_recording, Bus.read_bank, Bus.get_replay, hfirst, byteAt]

/-- What a store has written is still there after commands that do not write to its
address. -/
theorem byteAt_of_st {cmds : List Command} {i : Nat} (hi : cmds[i]? = some .tick)
    (hst : (Machine.performAll v (cmds.take i)
      (recording image o)).machine.core.outlook = .execute .st) {j : Nat} (hij : i < j)
    (hj : j ≤ cmds.length)
    (hclear : ∀ k cmd, i < k → k < j → cmds[k]? = some cmd →
      ∀ w ∈ cmd.written
          (Machine.performAll v (cmds.take k) (recording image o)).machine.core,
        w.1 ≠ (Machine.performAll v (cmds.take i)
          (recording image o)).machine.core.operandByte) :
    byteAt v image o cmds j
        (Machine.performAll v (cmds.take i)
          (recording image o)).machine.core.operandByte =
      (Machine.performAll v (cmds.take i) (recording image o)).machine.core.value := by
  induction j, hij using Nat.le_induction with
  | base =>
      rw [byteAt, Machine.chronicle_take_succ v _ hi, Command.written, Core.written, hst]
      exact (Bus.latest_concat _ _ _ _).trans (if_pos rfl)
  | succ n hin ih =>
      have hn : cmds[n]? = some cmds[n] := List.getElem?_eq_getElem hj
      have hkeep := hclear n _ hin (Nat.lt_succ_self n) hn
      rw [byteAt, Machine.chronicle_take_succ v _ hn, Bus.latest_append_of_ne _ _ hkeep]
      exact ih (Nat.le_of_succ_le hj)
        fun k cmd hik hkn => hclear k cmd hik (Nat.lt_succ_of_lt hkn)

/-- **The memory is its history.**  A history, unrolled into single steps, makes the
writes that its commands are said to make and no others.  At every moment the memory is
the replay of the writes so far, and a tick takes every byte it reads from the last
write to its address.  So a load returns what was last stored. -/
theorem memory_is_its_history (cmds : List Command) :
    let steps := cmds.flatMap Command.unroll
    let start := recording image o
    let core n := (Machine.performAll v (steps.take n) start).machine.core
    let written n := Machine.chronicle v Command.written (steps.take n) start
    (Machine.performAll v cmds start).machine.core = core steps.length ∧
    (∀ n,
      (core n).memory.writes.toList = written n ∧
        (core n).memory.store = Bus.replay (Bank.ofImage image) (written n) ∧
        (∀ a, Bus.read (core n).memory a =
          Bus.latest (fun i => image.getD i.toNat 0) (written n) a) ∧
        (core n).ReadsFrom (Bus.latest (fun i => image.getD i.toNat 0) (written n))) ∧
    (∀ i j, i < j → steps[i]? = some .tick → steps[j]? = some .tick →
      (core i).outlook = .execute .st → (core j).outlook = .execute .ld →
      (core j).operandByte = (core i).operandByte →
      (∀ k cmd, i < k → k < j → steps[k]? = some cmd →
        ∀ w ∈ cmd.written (core k), w.1 ≠ (core i).operandByte) →
      (core (j + 1)).value = (core i).value) := by
  intro steps start core written
  have hread : ∀ n a, Bus.read (core n).memory a =
      Bus.latest (fun i => image.getD i.toNat 0) (written n) a :=
    read_recording v image o steps
  refine ⟨?_, ?_, ?_⟩
  · simp only [core, List.take_length]
    exact (Machine.core_performAll_unroll v cmds start).symm
  · intro n
    exact ⟨writes_recording v image o _, store_recording v image o _, hread n,
      Core.readsFrom_of_read_eq (hread n)⟩
  · intro i j hij hi hj hst hld hoperand hclear
    have hlt : j < steps.length := (List.getElem?_eq_some_iff.1 hj).1
    have hbyte := byteAt_of_st v image o hi hst hij (Nat.le_of_lt hlt) hclear
    have hload := (Core.readsFrom_of_read_eq (hread j)).load hld
    have hnext : core (j + 1) = (core j).next :=
      Machine.core_performAll_take_succ v hj start
    rw [hnext, hload, ← hread j ((core j).regs.pc + 1)]
    change byteAt v image o steps j (core j).operandByte = _
    rw [hoperand]
    exact hbyte

end

/-- A program that stores 7, and loads it again after it has selected another value. -/
def keeping : List UInt8 :=
  [0x04, 7, 0x09, 0x40, 0x04, 9, 0x08, 0x40]

theorem memory_is_its_history_keeping :
    let cmds : List Command := [.runFor 2, .poke 0x50 1, .runUntilHalt 2]
    let steps := cmds.flatMap Command.unroll
    let core n :=
      (Machine.performAll .off (steps.take n) (recording keeping Buffer.empty)).machine.core
    (core 1).outlook = .execute .st ∧ (core 4).outlook = .execute .ld ∧
      (core 5).memory.writes.toList = [(0x40, 7), (0x50, 1)] ∧ (core 5).value = 7 := by
  intro cmds steps core
  have hst : (core 1).outlook = .execute .st := by
    decide +kernel
  have hld : (core 4).outlook = .execute .ld := by
    decide +kernel
  have hstored : (core 1).operandByte = 0x40 := by
    decide +kernel
  have hloaded : (core 4).operandByte = 0x40 := by
    decide +kernel
  have hquiet : (core 3).written = [] := by
    decide +kernel
  have hclear : ∀ k cmd, 1 < k → k < 4 → steps[k]? = some cmd →
      ∀ w ∈ cmd.written (core k), w.1 ≠ (core 1).operandByte := by
    rintro k cmd h₁ h₄ hcmd w hw
    obtain rfl | rfl : k = 2 ∨ k = 3 := by omega
    · obtain rfl : Command.poke 0x50 1 = cmd := Option.some.inj hcmd
      rw [List.mem_singleton.1 hw, hstored]
      decide
    · obtain rfl : Command.tick = cmd := Option.some.inj hcmd
      rw [Command.written, hquiet] at hw
      exact absurd hw List.not_mem_nil
  obtain ⟨_, hmoments, hlast⟩ :=
    memory_is_its_history .off keeping Buffer.empty cmds
  refine ⟨hst, hld, ?_, ?_⟩
  · rw [(hmoments 5).1]
    decide +kernel
  · have hseven : (core 1).value = 7 := by
      decide +kernel
    rw [← hseven]
    exact hlast 1 4 (by decide) rfl rfl hst hld (hloaded.trans hstored.symm) hclear

end History
end ByteMachine
