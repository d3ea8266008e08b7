import ByteMachine.Proofs.Footprint.Independence
import ByteMachine.Proofs.History.Memory
import ByteMachine.Proofs.Observers.Notices

/-!
# Memories that read alike

The machine knows of its memory what the bus reads and nothing else.  Two memories may be
of different kinds, and they may even drift apart, as long as the bytes that are read
from the one are read from the other.  The machine then does and shows the same on both,
and it makes the same writes in the same order.

**Invariant.**  The memories are related, by a relation that every write keeps and under
which safe reads agree.  Which reads are safe is told from the address and from the byte
that is read on the first memory.

**Results.**
* `Simulation.tick`, `Simulation.runFor`, `Simulation.perform`: one tick, one run and one
  command on related memories.
* `Simulation.performAll`: the same of a history.
* `memory_is_known_by_its_bus`: memories that read alike cannot be told apart, and a
  memory that records its writes reads like the one behind it.
-/

namespace ByteMachine

namespace Bus

section

variable {μ ν : Type} [Bus μ] [Bus ν]

/-- Some addresses with the bytes that are read there. -/
def readings (m : μ) (addresses : List UInt8) : List (UInt8 × UInt8) :=
  addresses.map fun a => (a, read m a)

/-- A relation between memories that writes keep, and under which safe reads agree. -/
structure Simulation (Safe : UInt8 × UInt8 → Prop) (ρ : μ → ν → Prop) : Prop where
  read {m n} : ρ m n → ∀ a, Safe (a, Bus.read m a) → Bus.read n a = Bus.read m a
  write {m n} : ρ m n → ∀ a x, ρ (Bus.write m a x) (Bus.write n a x)

namespace Simulation

variable {Safe : UInt8 × UInt8 → Prop} {ρ : μ → ν → Prop} (hρ : Simulation Safe ρ)
    {m : μ} {n : ν}
include hρ

theorem replay (h : ρ m n) (ws : List (UInt8 × UInt8)) :
    ρ (Bus.replay m ws) (Bus.replay n ws) := by
  induction ws generalizing m n with
  | nil => exact h
  | cons w ws ih => exact ih (hρ.write h w.1 w.2)

theorem read_of_readings (h : ρ m n) {addresses : List UInt8}
    (hsafe : ∀ r ∈ readings m addresses, Safe r) :
    ∀ a ∈ addresses, Bus.read n a = Bus.read m a := by
  intro a ha
  exact hρ.read h a (hsafe _ (List.mem_map_of_mem ha))

end Simulation

end

end Bus

/-! ### What is read -/

section

variable {μ : Type} [Bus μ]

/-- The reads of the next tick, address and byte. -/
def Core.reads (c : Core μ) : List (UInt8 × UInt8) :=
  Bus.readings c.memory c.cells

/-- The reads of a command, address and byte: those of its ticks, and those of a host
that looks at the memory. -/
def Command.reads (cmd : Command) (c : Core μ) : List (UInt8 × UInt8) :=
  match cmd with
  | .read a => Bus.readings c.memory [a]
  | .listing first count =>
      Bus.readings c.memory ((Line.listing c.memory first count).flatMap Line.addresses)
  | .dump => Bus.readings c.memory Bank.indices
  | cmd => cmd.observed Core.reads (fun _ => []) c

theorem Core.gather_written_of_halted {c : Core μ} (h : c.state = .halted) (n : Nat) :
    c.gather written n = [] := by
  refine gather_of_halted h ?_ n
  simp only [written, outlook_eq_idle_iff.2 h]

end

/-! ### Another memory -/

section

variable {μ ν ω : Type}

/-- The machine with another memory. -/
def Machine.withMemory (m : Machine μ ω) (memory : ν) : Machine ν ω :=
  ⟨m.core.withMemory memory, m.output⟩

/-- The outcome with another memory in the machine. -/
def Outcome.withMemory {α : Type} (o : Outcome α μ ω) (memory : ν) : Outcome α ν ω :=
  ⟨o.result, o.machine.withMemory memory, o.log⟩

/-- Outcomes that differ in the memory only, with related memories. -/
structure Outcome.Alike {α : Type} (ρ : μ → ν → Prop) (o : Outcome α μ ω)
    (o' : Outcome α ν ω) : Prop where
  result : o'.result = o.result
  log : o'.log = o.log
  output : o'.machine.output = o.machine.output
  core : o'.machine.core = o.machine.core.withMemory o'.machine.core.memory
  memory : ρ o.machine.core.memory o'.machine.core.memory

theorem Clock.conclude_withMemory (k : Clock) (v : Verbosity)
    (o : Outcome (Except DecodeFault Nat) μ ω) (memory : ν) :
    k.conclude v (o.withMemory memory) = (k.conclude v o).withMemory memory := by
  have hresult : (o.withMemory memory).result = o.result := rfl
  have hhalted : (o.withMemory memory).machine.isHalted = o.machine.isHalted := rfl
  unfold conclude
  rw [hresult, hhalted]
  cases o.result with
  | error e => rfl
  | ok n =>
      dsimp only
      split <;> rfl

end

namespace Bus
namespace Simulation

section

variable {μ ν ω : Type} [Bus μ] [Bus ν] [Sink ω] (v : Verbosity)
    {Safe : UInt8 × UInt8 → Prop} {ρ : μ → ν → Prop} (hρ : Simulation Safe ρ)
    {m : Machine μ ω} {memory : ν}
include hρ

theorem tick (h : ρ m.core.memory memory) (hsafe : ∀ r ∈ m.core.reads, Safe r) :
    (m.withMemory memory).tick v =
      (m.tick v).withMemory (Bus.replay memory m.core.written) :=
  Machine.tick_withMemory v (hρ.read_of_readings h hsafe) m.output

theorem memory_tick (h : ρ m.core.memory memory) :
    ρ (m.tick v).machine.core.memory (Bus.replay memory m.core.written) := by
  rw [Machine.core_tick, Core.memory_next]
  exact hρ.replay h _

/-- A bounded run on related memories. -/
theorem runFor (n : Nat) (h : ρ m.core.memory memory)
    (hsafe : ∀ r ∈ m.core.gather Core.reads n, Safe r) :
    (m.withMemory memory).runFor v n =
      (m.runFor v n).withMemory (Bus.replay memory (m.core.gather Core.written n)) := by
  induction n generalizing m memory with
  | zero => rfl
  | succ n ih =>
      cases hs : m.core.state with
      | halted =>
          rw [Core.gather_written_of_halted hs, Machine.runFor_of_halted v _ hs]
          exact Machine.runFor_of_halted v _ hs
      | running =>
          rw [Core.gather_succ] at hsafe
          have htick := hρ.tick v h fun r hr => hsafe r (List.mem_append_left _ hr)
          have hresult : ((m.withMemory memory).tick v).result = (m.tick v).result :=
            congrArg Outcome.result htick
          have hs' : (m.withMemory memory).core.state = .running := hs
          rw [Core.gather_succ, Bus.replay_append]
          rcases Machine.tick_of_running v hs with ⟨hr, _⟩ | ⟨hr, hh⟩
          · have hrest := ih (hρ.memory_tick v h) fun r hr =>
              hsafe r (List.mem_append_right _ (Machine.core_tick v m ▸ hr))
            rw [Machine.runFor_succ_of_ok v n hs hr,
              Machine.runFor_succ_of_ok v n hs' (hresult.trans hr), htick,
              ← Machine.core_tick v m]
            simp only [Outcome.andThen, Outcome.map, Outcome.withMemory] at hrest ⊢
            rw [hrest]
          · -- The fault halts the machine, and the ticks that are left write nothing.
            rw [Machine.core_tick] at hh
            rw [Machine.runFor_succ_of_error v n hs hr,
              Machine.runFor_succ_of_error v n hs' (hresult.trans hr), htick,
              Core.gather_written_of_halted hh, Bus.replay_nil]
            rfl

theorem clock (k : Clock) (patience : Nat) (h : ρ m.core.memory memory)
    (hsafe : ∀ r ∈ m.core.resume.gather Core.reads (k.limit.getD patience), Safe r) :
    k.run v patience (m.withMemory memory) =
      (k.run v patience m).withMemory
        (Bus.replay memory (m.core.resume.gather Core.written (k.limit.getD patience))) := by
  have hstart : ρ (m.start v).machine.core.memory memory := h
  have hrun := hρ.runFor v (k.limit.getD patience) hstart hsafe
  rw [Clock.run_eq_conclude, Clock.run_eq_conclude, ← Clock.conclude_withMemory]
  change k.conclude v
    (((m.start v).withMemory memory).andThen (Machine.runFor v (k.limit.getD patience))) = _
  simp only [Outcome.andThen, Outcome.withMemory, hrun]
  rfl

/-- A command on related memories. -/
theorem perform (cmd : Command) (h : ρ m.core.memory memory)
    (hsafe : ∀ r ∈ cmd.reads m.core, Safe r) :
    (m.withMemory memory).perform v cmd =
      (m.perform v cmd).withMemory (Bus.replay memory (cmd.written m.core)) := by
  cases cmd with
  | tick =>
      have htick := hρ.tick v h hsafe
      simp only [Machine.perform, htick]
      rfl
  | runFor budget =>
      have hrun := hρ.runFor v budget h hsafe
      simp only [Machine.perform, hrun]
      rfl
  | runUntilHalt budget =>
      have hrun := hρ.runFor v budget h hsafe
      simp only [Machine.perform, Machine.runUntilHalt, hrun]
      rfl
  | clock k patience =>
      have hclock := hρ.clock v k patience h hsafe
      simp only [Machine.perform, hclock]
      rfl
  | loadProgram program =>
      rw [Command.written, ← Bus.placement_eq_map]
      rfl
  | read a =>
      have hread := hρ.read_of_readings h hsafe a List.mem_cons_self
      change (m.withMemory memory).answer (.byte (Bus.read memory a)) = _
      rw [hread]
      rfl
  | listing start count =>
      have hlines := Line.listing_congr start count (hρ.read_of_readings h hsafe)
      change (m.withMemory memory).answer (.lines (Line.listing memory start count)) = _
      rw [hlines]
      rfl
  | dump =>
      have hread := hρ.read_of_readings h hsafe
      have hsnapshot : Bus.snapshot memory = Bus.snapshot m.core.memory := by
        refine Bank.ext_get fun a => ?_
        rw [Bus.get_snapshot, Bus.get_snapshot]
        exact hread a (Bank.mem_indices a)
      change (m.withMemory memory).answer
        (.contents (Bus.snapshot memory) m.core.regs.general) = _
      rw [hsnapshot]
      rfl
  | _ => rfl

theorem memory_perform (cmd : Command) (h : ρ m.core.memory memory) :
    ρ (m.perform v cmd).machine.core.memory (Bus.replay memory (cmd.written m.core)) := by
  rw [Machine.core_perform, Core.memory_apply]
  exact hρ.replay h _

theorem memory_performAll (cmds : List Command) (h : ρ m.core.memory memory) :
    ρ (Machine.performAll v cmds m).machine.core.memory
      (Bus.replay memory (Machine.chronicle v Command.written cmds m)) := by
  rw [Machine.memory_performAll]
  exact hρ.replay h _

/-- A history on related memories does and shows the same, and makes the same writes. -/
theorem performAll (cmds : List Command) (h : ρ m.core.memory memory)
    (hsafe : ∀ r ∈ Machine.chronicle v Command.reads cmds m, Safe r) :
    Machine.performAll v cmds (m.withMemory memory) =
      (Machine.performAll v cmds m).withMemory
        (Bus.replay memory (Machine.chronicle v Command.written cmds m)) := by
  induction cmds generalizing m memory with
  | nil => rfl
  | cons cmd cmds ih =>
      rw [Machine.chronicle_cons] at hsafe
      have hfirst := hρ.perform v cmd h fun r hr => hsafe r (List.mem_append_left _ hr)
      have hrest := ih (hρ.memory_perform v cmd h) fun r hr =>
        hsafe r (List.mem_append_right _ hr)
      rw [Machine.chronicle_cons, Bus.replay_append, Machine.performAll_cons,
        Machine.performAll_cons, hfirst]
      simp only [Outcome.andThen, Outcome.map, Outcome.withMemory] at hrest ⊢
      rw [hrest]

theorem written_performAll (cmds : List Command) (h : ρ m.core.memory memory)
    (hsafe : ∀ r ∈ Machine.chronicle v Command.reads cmds m, Safe r) :
    (Machine.performAll v cmds (m.withMemory memory)).machine.core.memory =
      Bus.replay memory (Machine.chronicle v Command.written cmds m) := by
  rw [hρ.performAll v cmds h hsafe]
  rfl

theorem alike_performAll (cmds : List Command) (h : ρ m.core.memory memory)
    (hsafe : ∀ r ∈ Machine.chronicle v Command.reads cmds m, Safe r) :
    (Machine.performAll v cmds m).Alike ρ
      (Machine.performAll v cmds (m.withMemory memory)) := by
  rw [hρ.performAll v cmds h hsafe]
  exact ⟨rfl, rfl, rfl, rfl, hρ.memory_performAll v cmds h⟩

end

end Simulation
end Bus

/-- A memory and one that stands for it and records the writes read alike. -/
theorem Recorder.simulation {μ : Type} [Bus μ] :
    Bus.Simulation (fun _ => True) fun (m : μ) (r : Recorder μ) => r.store = m where
  read h a _ := by
    rw [read_eq, h]
  write h a x := by
    rw [store_write, h]

namespace Memories

section

variable {μ ν ω : Type} [Bus μ] [Bus ν] [Sink ω] (v : Verbosity)

/-- **The machine knows its memory by the bus only.**  Let every write keep a relation
between memories of two kinds, and let related memories read alike.  After every history,
and at every moment of its runs, the machine on the second memory has returned, printed
and logged the same as the machine on the first.  It differs in the memory only, which
has received the same writes in the same order, is related to the first and lists alike.
So a memory that records its writes cannot be told from the memory behind it, but for
the record. -/
theorem memory_is_known_by_its_bus {ρ : μ → ν → Prop}
    (hread : ∀ m n, ρ m n → ∀ a, Bus.read n a = Bus.read m a)
    (hwrite : ∀ m n, ρ m n → ∀ a x, ρ (Bus.write m a x) (Bus.write n a x))
    (c : Core μ) (memory : ν) (h : ρ c.memory memory) (o : ω) (cmds : List Command) :
    let steps := cmds.flatMap Command.unroll
    let first ops := Machine.performAll v ops ⟨c, o⟩
    let second ops := Machine.performAll v ops ⟨c.withMemory memory, o⟩
    let recorded ops := Machine.performAll v ops ⟨c.withMemory (Recorder.fresh c.memory), o⟩
    let written ops := Machine.chronicle v Command.written ops ⟨c, o⟩
    ∀ n, ∀ ops ∈ [cmds.take n, steps.take n],
      (first ops).Alike ρ (second ops) ∧
      (first ops).machine.core.memory = Bus.replay c.memory (written ops) ∧
      (second ops).machine.core.memory = Bus.replay memory (written ops) ∧
      (∀ start count,
        Line.listing (second ops).machine.core.memory start count =
          Line.listing (first ops).machine.core.memory start count) ∧
      (first ops).Alike (fun m r => r.store = m) (recorded ops) ∧
      (recorded ops).machine.core.memory.writes.toList = written ops := by
  intro steps first second recorded written n ops _
  have hρ : Bus.Simulation (fun _ => True) ρ :=
    ⟨fun h a _ => hread _ _ h a, fun h => hwrite _ _ h⟩
  let start : Machine μ ω := ⟨c, o⟩
  have hsafe : ∀ r ∈ Machine.chronicle v Command.reads ops start, True :=
    fun _ _ => trivial
  have halike : (first ops).Alike ρ (second ops) :=
    hρ.alike_performAll v (m := start) ops h hsafe
  refine ⟨halike, Machine.memory_performAll v ops start, ?_, ?_, ?_, ?_⟩
  · exact hρ.written_performAll v (m := start) ops h hsafe
  · intro i count
    exact Line.listing_congr i count fun a _ => hread _ _ halike.memory a
  · exact Recorder.simulation.alike_performAll v (m := start) ops rfl hsafe
  · have hfresh : (Recorder.fresh c.memory).store = c.memory := rfl
    have hrecord := Recorder.simulation.written_performAll v (m := start) ops hfresh hsafe
    change (Machine.performAll v ops
      (start.withMemory (Recorder.fresh c.memory))).machine.core.memory.writes.toList = _
    rw [hrecord, Recorder.writes_replay]
    rfl

end

/-- A program that stores 7 to cell 0x40 and pushes it, in a memory that has recorded a
write before. -/
def noting : Recorder Bank :=
  ⟨Bank.ofImage [0x04, 7, 0x09, 0x40, 0x0A], #[(0x30, 0)]⟩

theorem memory_is_known_by_its_bus_noting :
    let c := Core.powerOn noting.store
    let cmds : List Command := [.runFor 3, .listing 0x40 1]
    let plain := Machine.performAll .off cmds ⟨c, Buffer.empty⟩
    let noted := Machine.performAll .off cmds ⟨c.withMemory noting, Buffer.empty⟩
    noted.result = plain.result ∧
      noted.machine.core.memory.store = plain.machine.core.memory ∧
      noted.machine.core.memory.writes.toList = [(0x30, 0), (0x40, 7), (0xFF, 7)] := by
  intro c cmds plain noted
  obtain ⟨halike, hfirst, hmemory, _⟩ :=
    memory_is_known_by_its_bus .off (ρ := fun m (r : Recorder Bank) => r.store = m)
      (fun _ _ h a => Recorder.simulation.read h a trivial)
      (fun _ _ h => Recorder.simulation.write h)
      c noting rfl Buffer.empty cmds 2 cmds List.mem_cons_self
  have hwritten : Machine.chronicle .off Command.written cmds ⟨c, Buffer.empty⟩ =
      [(0x40, 7), (0xFF, 7)] := by
    decide +kernel
  refine ⟨halike.result, ?_, ?_⟩
  · rw [hmemory, Recorder.store_replay, hfirst]
    rfl
  · rw [hmemory, Recorder.writes_replay]
    exact congrArg (noting.writes.toList ++ ·) hwritten

end Memories
end ByteMachine
