import ByteMachine.Proofs.Footprint.Registers
import ByteMachine.Sink.Buffer

/-!
# What a run does not read does not matter to it

A location is a cell of the memory or a general register.  A tick reads a few
locations and writes a few, and both lists can be told from the core before the tick.
A location that no tick of a run reads may hold anything at the start.  The run does
and shows the same, and the location keeps what it was given until the run writes it.

**Results.**
* `next_put`: one tick on a core with another byte at a location it does not read.
* `tickTimes_put`: the same of a run.
* `unread_location_is_irrelevant`: a run does not depend on locations that none of its
  ticks reads, an edit of a location that is neither read nor written commutes with
  the run, and no tick depends on any cell that it is not said to read.
-/

namespace ByteMachine

/-- A cell of the memory or a general register. -/
inductive Location
  | cell (a : UInt8)
  | register (i : UInt8)
  deriving DecidableEq

namespace Location

/-- The core with `x` at a location. -/
def put (l : Location) (x : UInt8) (c : Core Bank) : Core Bank :=
  match l with
  | cell a => c.poke a x
  | register i => c.setRegister i x

/-- The command of a host that puts `x` at a location. -/
def command (l : Location) (x : UInt8) : Command :=
  match l with
  | cell a => .poke a x
  | register i => .setRegister i x

end Location

/-- Writes to other cells commute with a change of a cell, and a write to the cell
overwrites it. -/
theorem Bus.replay_set (b : Bank) (a x : UInt8) (ws : List (UInt8 × UInt8)) :
    replay (b.set a x) ws =
      if a ∈ ws.map Prod.fst then replay b ws else (replay b ws).set a x := by
  induction ws generalizing b with
  | nil => rfl
  | cons w ws ih =>
      rcases w with ⟨i, y⟩
      by_cases h : a = i
      · subst h
        rw [if_pos (by simp), replay_cons, replay_cons, write_bank, Bank.set_set_self]
        rfl
      · have hcomm : (b.set a x).set i y = (b.set i y).set a x := b.set_comm x y h
        rw [replay_cons, replay_cons, write_bank, write_bank, hcomm, ih]
        simp only [List.map_cons, List.mem_cons, h, false_or]

namespace Core

/-- The locations that the next tick reads. -/
def inspected (c : Core Bank) : List Location :=
  c.cells.map .cell ++ c.registersRead.map .register

/-- The locations that the next tick writes. -/
def altered (c : Core Bank) : List Location :=
  c.written.map (fun w => .cell w.1) ++ c.registersWritten.map .register

section

variable {c : Core Bank} {l : Location} (x : UInt8)

theorem read_set_of_notMem_cells {a : UInt8} (h : a ∉ c.cells) :
    ∀ i ∈ c.cells, Bus.read (c.memory.set a x) i = Bus.read c.memory i := by
  rintro i hi
  refine Bank.get_set_of_ne _ _ ?_
  rintro rfl
  exact h hi

theorem cell_mem_inspected {a : UInt8} : .cell a ∈ c.inspected ↔ a ∈ c.cells := by
  simp [inspected]

theorem register_mem_inspected {i : UInt8} :
    .register i ∈ c.inspected ↔ i ∈ c.registersRead := by
  simp [inspected]

theorem cell_mem_altered {a : UInt8} :
    .cell a ∈ c.altered ↔ a ∈ c.written.map Prod.fst := by
  simp [altered]

theorem register_mem_altered {i : UInt8} :
    .register i ∈ c.altered ↔ i ∈ c.registersWritten := by
  simp [altered]

/-- A tick gives the same result and shows the same, whatever stands at a location that
it does not read. -/
theorem shows_put (h : l ∉ c.inspected) :
    (l.put x c).verdict = c.verdict ∧ (l.put x c).notices = c.notices ∧
      (l.put x c).records = c.records := by
  cases l with
  | cell a =>
      have hread := read_set_of_notMem_cells x (mt cell_mem_inspected.2 h)
      exact ⟨verdict_withMemory hread, notices_withMemory hread,
        records_withMemory hread⟩
  | register i =>
      have hi := mt register_mem_inspected.2 h
      exact ⟨verdict_setRegister x, notices_setRegister x hi, records_setRegister x⟩

/-- A tick makes the same of the core, whatever stands at a location that it does not
read, and the location keeps its byte unless the tick writes it. -/
theorem next_put (h : l ∉ c.inspected) :
    (l.put x c).next = if l ∈ c.altered then c.next else l.put x c.next := by
  cases l with
  | cell a =>
      have hread := read_set_of_notMem_cells x (mt cell_mem_inspected.2 h)
      change (c.withMemory (c.memory.set a x)).next = _
      rw [next_withMemory hread, Bus.replay_set, ← memory_next]
      simp only [cell_mem_altered]
      split
      · rfl
      · rfl
  | register i =>
      have hi := mt register_mem_inspected.2 h
      simp only [register_mem_altered]
      exact next_setRegister x hi

end

end Core

namespace Machine

section

variable {ω : Type} [Sink ω] (v : Verbosity)

/-- A run does and shows the same, whatever stands at a location that none of its ticks
reads, and the location keeps its byte unless the run writes it. -/
theorem tickTimes_put {l : Location} {n : Nat} {m : Machine Bank ω} (x : UInt8)
    (h : l ∉ m.core.gather Core.inspected n) :
    (m.edit (l.put x)).tickTimes v n =
      ⟨(m.tickTimes v n).result,
        if l ∈ m.core.gather Core.altered n then m.after v n
        else (m.after v n).edit (l.put x),
        (m.tickTimes v n).log⟩ := by
  induction n generalizing m with
  | zero => rfl
  | succ n ih =>
      rw [Core.gather_succ, List.mem_append, not_or] at h
      obtain ⟨hfirst, hrest⟩ := h
      have hmachine : m.core.next = (m.tick v).machine.core := (core_tick v m).symm
      rw [hmachine] at hrest
      obtain ⟨hverdict, hnotices, hrecords⟩ := Core.shows_put x hfirst
      have htick : (m.edit (l.put x)).tick v =
          ⟨(m.tick v).result,
            if l ∈ m.core.altered then (m.tick v).machine
            else (m.tick v).machine.edit (l.put x),
            (m.tick v).log⟩ := by
        rw [tick_eq v m, tick_eq]
        simp only [edit, hverdict, hnotices, hrecords, Core.next_put x hfirst]
        split <;> rfl
      rw [tickTimes_succ, tickTimes_succ, htick, after_succ]
      simp only [Core.gather_succ, List.mem_append, hmachine]
      by_cases hw : l ∈ m.core.altered
      · simp only [Outcome.andThen, Outcome.map, hw, if_true, true_or]
        rfl
      · simp only [Outcome.andThen, Outcome.map, hw, if_false, false_or, ih hrest]

/-- A tick on another memory that agrees on the cells it reads. -/
theorem tick_withMemory {μ ν : Type} [Bus μ] [Bus ν] {c : Core μ} {memory : ν}
    (h : ∀ a ∈ c.cells, Bus.read memory a = Bus.read c.memory a) (o : ω) :
    tick v ⟨c.withMemory memory, o⟩ =
      ⟨(tick v ⟨c, o⟩).result,
        ⟨(tick v ⟨c, o⟩).machine.core.withMemory (Bus.replay memory c.written),
          (tick v ⟨c, o⟩).machine.output⟩,
        (tick v ⟨c, o⟩).log⟩ := by
  rw [tick_eq v ⟨c, o⟩, tick_eq]
  simp only [Core.verdict_withMemory h, Core.notices_withMemory h,
    Core.records_withMemory h, Core.next_withMemory h]

theorem perform_command (l : Location) (x : UInt8) (m : Machine Bank ω) :
    m.perform v (l.command x) = ⟨.done, m.edit (l.put x), []⟩ := by
  cases l with
  | cell a => rfl
  | register i => rfl

/-- An edit of a location that a run neither reads nor writes commutes with the run. -/
theorem performAll_command_comm {l : Location} {n : Nat} {m : Machine Bank ω} (x : UInt8)
    (hread : l ∉ m.core.gather Core.inspected n)
    (hwrite : l ∉ m.core.gather Core.altered n) :
    let responses := (m.tickTimes v n).result.map (Response.ofExcept fun _ => .done)
    performAll v (l.command x :: List.replicate n .tick) m =
        ⟨.done :: responses, (m.after v n).edit (l.put x), (m.tickTimes v n).log⟩ ∧
      performAll v (List.replicate n .tick ++ [l.command x]) m =
        ⟨responses ++ [.done], (m.after v n).edit (l.put x), (m.tickTimes v n).log⟩ := by
  intro responses
  constructor
  · rw [performAll_cons, perform_command]
    simp only [Outcome.andThen, Outcome.map, performAll_replicate_tick,
      tickTimes_put v x hread, hwrite, if_false, List.nil_append]
    rfl
  · rw [performAll_append, performAll_replicate_tick]
    simp only [Outcome.andThen, Outcome.map, performAll, perform_command,
      List.append_nil]
    rfl

end

end Machine

namespace Footprint

section

variable {ω : Type} [Sink ω] (v : Verbosity) (m : Machine Bank ω)

/-- **What a run does not read does not matter to it.**  It may be changed before the
run.  The run gives the same results, shows the same, and ends the same but for the
location, which is the same too if the run has written it.  So an edit of a location
that is neither read nor written commutes with the run, and a tick depends on no cell
beyond its instruction and the data cell of a load or a pop. -/
theorem unread_location_is_irrelevant :
    (∀ (n : Nat) (l : Location) (x : UInt8), l ∉ m.core.gather Core.inspected n →
      let plain := m.tickTimes v n
      let changed := (m.edit (l.put x)).tickTimes v n
      changed.result = plain.result ∧ changed.log = plain.log ∧
        changed.machine.output = plain.machine.output ∧
        (l ∈ m.core.gather Core.altered n →
          changed.machine.core = plain.machine.core) ∧
        (l ∉ m.core.gather Core.altered n →
          changed.machine.core = l.put x plain.machine.core)) ∧
    (∀ (n : Nat) (l : Location) (x : UInt8), l ∉ m.core.gather Core.inspected n →
      l ∉ m.core.gather Core.altered n →
      let first := Machine.performAll v (l.command x :: List.replicate n .tick) m
      let last := Machine.performAll v (List.replicate n .tick ++ [l.command x]) m
      first.machine = last.machine ∧ first.log = last.log ∧
        ∃ rs, first.result = .done :: rs ∧ last.result = rs ++ [.done]) ∧
    (∀ memory : Bank, (∀ a ∈ m.core.cells, memory.get a = m.core.memory.get a) →
      let plain := m.tick v
      let changed := Machine.tick v ⟨m.core.withMemory memory, m.output⟩
      changed.result = plain.result ∧ changed.log = plain.log ∧
        changed.machine.output = plain.machine.output ∧
        changed.machine.core =
          plain.machine.core.withMemory (Bus.replay memory m.core.written)) := by
  refine ⟨?_, ?_, ?_⟩
  · intro n l x hread plain changed
    have hrun : changed = _ := Machine.tickTimes_put v x hread
    by_cases hwrite : l ∈ m.core.gather Core.altered n
    · rw [if_pos hwrite] at hrun
      rw [hrun]
      exact ⟨rfl, rfl, rfl, fun _ => rfl, fun h => absurd hwrite h⟩
    · rw [if_neg hwrite] at hrun
      rw [hrun]
      exact ⟨rfl, rfl, rfl, fun h => absurd h hwrite, fun _ => rfl⟩
  · intro n l x hread hwrite first last
    obtain ⟨hfirst, hlast⟩ := Machine.performAll_command_comm v x hread hwrite
    change first = _ at hfirst
    change last = _ at hlast
    rw [hfirst, hlast]
    exact ⟨rfl, rfl, _, rfl, rfl⟩
  · intro memory hagree plain changed
    have htick : changed = _ := Machine.tick_withMemory v hagree m.output
    rw [htick]
    exact ⟨rfl, rfl, rfl, rfl⟩

end

/-- A program that stores 7 to cell 0x40 and pushes it. -/
def storing : Machine Bank Buffer :=
  Machine.powerOn (Bank.ofImage [0x04, 7, 0x09, 0x40, 0x0A]) Buffer.empty

theorem unread_location_is_irrelevant_storing :
    .cell 0x40 ∉ storing.core.gather Core.inspected 3 ∧
      .cell 0x40 ∈ storing.core.gather Core.altered 3 ∧
      ((storing.edit (Location.put (.cell 0x40) 1)).tickTimes .off 3).machine.core =
        (storing.tickTimes .off 3).machine.core ∧
      .register 9 ∉ storing.core.gather Core.inspected 3 ∧
      .register 9 ∉ storing.core.gather Core.altered 3 ∧
      (Machine.performAll .off ((Location.register 9).command 1 :: List.replicate 3 .tick)
          storing).machine =
        (Machine.performAll .off (List.replicate 3 .tick ++ [(Location.register 9).command 1])
          storing).machine ∧
      (Machine.tick .off ⟨storing.core.withMemory (storing.core.memory.set 2 0xFF),
        storing.output⟩).result = .ok () := by
  have hread : .cell 0x40 ∉ storing.core.gather Core.inspected 3 := by
    decide +kernel
  have hwrite : .cell 0x40 ∈ storing.core.gather Core.altered 3 := by
    decide +kernel
  have hread' : .register 9 ∉ storing.core.gather Core.inspected 3 := by
    decide +kernel
  have hwrite' : .register 9 ∉ storing.core.gather Core.altered 3 := by
    decide +kernel
  have hagree : ∀ a ∈ storing.core.cells,
      (storing.core.memory.set 2 0xFF).get a = storing.core.memory.get a := by
    have hcells : storing.core.cells = [0, 1] := by
      decide +kernel
    rintro a ha
    apply Bank.get_set_of_ne
    rintro rfl
    rw [hcells] at ha
    exact absurd ha (by decide)
  obtain ⟨hrun, hcomm, htick⟩ := unread_location_is_irrelevant .off storing
  obtain ⟨_, _, _, hcore, _⟩ := hrun 3 (.cell 0x40) 1 hread
  refine ⟨hread, hwrite, hcore hwrite, hread', hwrite',
    (hcomm 3 (.register 9) 1 hread' hwrite').1, ?_⟩
  have hruns : storing.core.outlook ≠ .fault := by
    decide +kernel
  rw [(htick (storing.core.memory.set 2 0xFF) hagree).1, Machine.result_tick]
  exact Core.verdict_eq_ok_iff.2 hruns

end Footprint
end ByteMachine
