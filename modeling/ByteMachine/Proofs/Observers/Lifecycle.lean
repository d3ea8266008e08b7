import ByteMachine.Proofs.Effect
import ByteMachine.Proofs.History.Steps
import ByteMachine.Proofs.Observers.Sinks
import Mathlib.Data.List.Chain

/-!
# The lifecycle of a machine in its log

A machine leaves the running state in three ways: it executes a halt instruction, it meets
a fault, or the host stops it.  It comes back in one way, which is a start, by the host or
by a clock.  Each of these is logged, and so the log alone tells the run state.

Here the events are told from the records by the run state that they lead to.  A sink that
logs on its own account could forge them, so that the statements are about sinks that log
nothing.  A reset puts the machine back to running without a record, so that they are
about histories without a reset.

**Invariant.**  Read from the run state at the beginning on, each event of the log leads to
a run state other than the one before, and the last one to the run state of the machine.

**Results.**
* `Machine.lifecycle_log_perform`: what a single step logs of the lifecycle.
* `Command.happens_of_event?`, `Command.state_apply_of_event?`: a step makes an event
  exactly when it changes the run state.
* `Machine.alternates_performAll`: the invariant, for histories without a reset.
* `lifecycle_events_alternate`: all of this from power-on.
-/

namespace ByteMachine

namespace Record

/-- The run state that an event of the lifecycle leads to.  The other records are no
events. -/
def turn? : Record → Option RunState
  | halted _ | stopped _ | faulted _ => some .halted
  | started _ => some .running
  | traced _ | finished _ | printed _ => none

/-- What an event is called in its text. -/
def title : Record → String
  | halted _ => "halted"
  | started _ => "clock started"
  | stopped _ => "clock stopped"
  | faulted e => "invalid instruction " ++ Hex.numeral e.opcode
  | traced _ | finished _ | printed _ => ""

/-- The program counter that an event shows. -/
def pc? : Record → Option UInt8
  | halted pc | started pc | stopped pc => some pc
  | faulted e => some e.pc
  | traced _ | finished _ | printed _ => none

/-- The events of the lifecycle in a log. -/
def lifecycle (log : List Record) : List Record :=
  log.filter fun r => r.turn?.isSome

/-- The run states that the events of a log lead to, in order. -/
def turns (log : List Record) : List RunState :=
  (lifecycle log).filterMap turn?

theorem lifecycle_append (a b : List Record) :
    lifecycle (a ++ b) = lifecycle a ++ lifecycle b :=
  List.filter_append ..

theorem turns_append (a b : List Record) : turns (a ++ b) = turns a ++ turns b := by
  rw [turns, lifecycle_append, List.filterMap_append]
  rfl

/-- The text of an event is its title, with the numeral of the program counter behind it. -/
theorem message_of_pc? {r : Record} {pc : UInt8} (h : r.pc? = some pc) :
    r.message = r.title ++ " at PC " ++ Hex.numeral pc := by
  rw [← Hex.byte_eq_numeral]
  cases r with
  | faulted e =>
      obtain rfl := Option.some.inj h
      have htitle : (faulted e).title = "invalid instruction " ++ Hex.byte e.opcode := by
        rw [Hex.byte_eq_numeral]
        rfl
      rw [htitle]
      rfl
  | halted pc' =>
      obtain rfl := Option.some.inj h
      rfl
  | started pc' =>
      obtain rfl := Option.some.inj h
      rfl
  | stopped pc' =>
      obtain rfl := Option.some.inj h
      rfl
  | traced line => cases h
  | finished r => cases h
  | printed x => cases h

/-- The events of a log lead from the run state `s` to the run state `t`, and each of them
to another run state than the one before. -/
structure Alternates (s : RunState) (log : List Record) (t : RunState) : Prop where
  alternate : (s :: turns log).IsChain (· ≠ ·)
  last_eq : t = (turns log).getLastD s

/-- An event that is logged when `before` becomes `after`.  It leads to another run state,
shows in its text the program counter, which stays where it is, and has its reason in the byte
that stands there. -/
structure Happens {μ : Type} [Bus μ] (r : Record) (before after : Core μ) : Prop where
  turn_eq : r.turn? = some after.state
  state_ne : before.state ≠ after.state
  pc_eq : after.regs.pc = before.regs.pc
  memory_eq : after.memory = before.memory
  message_eq : r.message = r.title ++ " at PC " ++ Hex.numeral after.regs.pc
  halt_byte : ∀ pc, r = .halted pc → Bus.read after.memory after.regs.pc = 0x00
  fault_byte : ∀ e, r = .faulted e →
    e = ⟨Bus.read after.memory after.regs.pc, after.regs.pc⟩ ∧
      ∀ op : Opcode, op.byte ≠ Bus.read after.memory after.regs.pc

/-- Events are no finer than severity debug. -/
theorem admits_of_turn? {v : Verbosity} (hv : v.admits .debug = true) {r : Record}
    (hr : r.turn?.isSome = true) : v.admits r.severity = true := by
  apply Verbosity.admits_of_rank_le hv
  cases r with
  | faulted e => exact Nat.zero_le _
  | halted pc => exact Nat.le_refl _
  | started pc => exact Nat.le_refl _
  | stopped pc => exact Nat.le_refl _
  | traced line => cases hr
  | finished r => cases hr
  | printed x => cases hr

/-- At severity debug no event is struck out of a log. -/
theorem lifecycle_keep {v : Verbosity} (hv : v.admits .debug = true) (log : List Record) :
    lifecycle (v.keep log) = lifecycle log := by
  unfold lifecycle Verbosity.keep
  rw [List.filter_filter]
  apply List.filter_congr
  intro r _
  by_cases hr : r.turn?.isSome = true
  · rw [hr, admits_of_turn? hv hr, Bool.and_true]
  · rw [Bool.eq_false_iff.2 hr, Bool.false_and]

theorem lifecycle_note {v : Verbosity} (hv : v.admits .debug = true) {r : Record}
    (hr : r.turn?.isSome = true) : lifecycle (v.note r) = [r] := by
  rw [Verbosity.note_eq_keep, lifecycle_keep hv]
  exact List.filter_cons_of_pos hr

theorem alternates_nil (s : RunState) : Alternates s [] s :=
  ⟨List.isChain_singleton s, rfl⟩

/-- One more step at the beginning, which changes the run state if it makes an event. -/
theorem Alternates.append_of_turns {s t u : RunState} {step log : List Record}
    (hstep : turns step = if s = t then [] else [t]) (h : Alternates t log u) :
    Alternates s (step ++ log) u := by
  by_cases hst : s = t
  · subst hst
    rw [if_pos rfl] at hstep
    refine ⟨?_, ?_⟩
    · rw [turns_append, hstep]
      exact h.alternate
    · rw [turns_append, hstep]
      exact h.last_eq
  · rw [if_neg hst] at hstep
    refine ⟨?_, ?_⟩
    · rw [turns_append, hstep]
      exact List.isChain_cons_cons.2 ⟨hst, h.alternate⟩
    · rw [turns_append, hstep]
      exact h.last_eq.trans (List.getLastD_cons ..).symm

/-- From the running state on, the last event tells whether the machine is halted. -/
theorem Alternates.halted_iff {log : List Record} {t : RunState}
    (h : Alternates .running log t) :
    t = .halted ↔ (turns log).getLast? = some .halted := by
  rw [h.last_eq, List.getLastD_eq_getLast?]
  cases (turns log).getLast? with
  | none => simp
  | some u => simp

end Record

/-! ### The events of single steps -/

namespace Record

section

variable {μ : Type} [Bus μ] {c : Core μ}

theorem happens_fault (h : c.outlook = .fault) : (faulted c.faultHere).Happens c c.next := by
  obtain ⟨hs, hb⟩ := Core.outlook_eq_fault_iff.1 h
  rw [Core.next_of_fault h]
  refine ⟨rfl, ?_, rfl, rfl, message_of_pc? rfl, nofun, ?_⟩
  · rw [hs]
    exact RunState.noConfusion
  · intro e he
    exact ⟨(faulted.inj he).symm, Opcode.ofByte?_eq_none_iff.1 hb⟩

theorem happens_halt (h : c.outlook = .execute .halt) :
    (halted c.regs.pc).Happens c c.next := by
  obtain ⟨hs, hb⟩ := Core.outlook_eq_execute_iff.1 h
  rw [Core.next_of_execute h]
  refine ⟨rfl, ?_, rfl, rfl, message_of_pc? rfl, ?_, nofun⟩
  · rw [hs]
    exact RunState.noConfusion
  · intro pc _
    exact (Opcode.ofByte?_eq_some_iff.1 hb).symm

theorem happens_start (h : c.state = .halted) : (started c.regs.pc).Happens c c.resume := by
  refine ⟨rfl, ?_, rfl, rfl, message_of_pc? rfl, nofun, nofun⟩
  rw [h]
  exact RunState.noConfusion

theorem happens_stop (h : c.state = .running) : (stopped c.regs.pc).Happens c c.halt := by
  refine ⟨rfl, ?_, rfl, rfl, message_of_pc? rfl, nofun, nofun⟩
  rw [h]
  exact RunState.noConfusion

end

end Record

namespace Command

section

variable {μ : Type} [Bus μ]

/-- The event of a single step on a core, if it makes one. -/
def event? (cmd : Command) (c : Core μ) : Option Record :=
  match cmd with
  | tick =>
      match c.outlook with
      | .fault => some (.faulted c.faultHere)
      | .execute .halt => some (.halted c.regs.pc)
      | _ => none
  | start => if c.isHalted then some (.started c.regs.pc) else none
  | stop => if c.isHalted then none else some (.stopped c.regs.pc)
  | _ => none

variable {cmd : Command} {c : Core μ}

/-- The event of a step happens in that step. -/
theorem happens_of_event? {r : Record} (h : cmd.event? c = some r) :
    r.Happens c (cmd.apply c) := by
  cases cmd with
  | tick =>
      simp only [event?] at h
      split at h
      · next ho =>
          obtain rfl := Option.some.inj h
          exact Record.happens_fault ho
      · next ho =>
          obtain rfl := Option.some.inj h
          exact Record.happens_halt ho
      · cases h
  | start =>
      simp only [event?] at h
      split at h
      · next hs =>
          obtain rfl := Option.some.inj h
          exact Record.happens_start (c.isHalted_eq_true_iff.1 hs)
      · cases h
  | stop =>
      simp only [event?] at h
      split at h
      · cases h
      · next hs =>
          obtain rfl := Option.some.inj h
          exact Record.happens_stop (c.isHalted_eq_false_iff.1 (Bool.eq_false_iff.2 hs))
  | _ => cases h

/-- A step without an event leaves the run state as it is. -/
theorem state_apply_of_event? (hrun : cmd.isRun = false) (hreset : cmd ≠ .reset)
    (h : cmd.event? c = none) : (cmd.apply c).state = c.state := by
  cases cmd with
  | tick =>
      change c.next.state = c.state
      cases ho : c.outlook with
      | idle => rw [Core.next_of_idle ho]
      | fault =>
          simp only [event?, ho] at h
          cases h
      | execute op =>
          have hop : op ≠ .halt := by
            rintro rfl
            simp only [event?, ho] at h
            cases h
          rw [Core.next_of_execute ho, Core.state_effect, if_neg hop]
          rfl
  | start =>
      simp only [event?] at h
      split at h
      · cases h
      · next hs => exact (c.isHalted_eq_false_iff.1 (Bool.eq_false_iff.2 hs)).symm
  | stop =>
      simp only [event?] at h
      split at h
      · next hs => exact (c.isHalted_eq_true_iff.1 hs).symm
      · cases h
  | reset => exact absurd rfl hreset
  | runFor budget => cases hrun
  | runUntilHalt budget => cases hrun
  | clock k patience => cases hrun
  | _ => rfl

end

end Command

namespace Machine

section

variable {μ ω : Type} (v : Verbosity) {m : Machine μ ω}

theorem log_start_of_running (h : m.core.state = .running) : (m.start v).log = [] := by
  simp only [start, isHalted_of_running h]
  rfl

theorem log_start_of_halted (h : m.core.state = .halted) :
    (m.start v).log = v.note (.started m.core.regs.pc) := by
  simp only [start, isHalted_of_halted h]
  rfl

theorem log_stop_of_running (h : m.core.state = .running) :
    (m.stop v).log = v.note (.stopped m.core.regs.pc) := by
  simp only [stop, isHalted_of_running h]
  rfl

theorem log_stop_of_halted (h : m.core.state = .halted) : (m.stop v).log = [] := by
  simp only [stop, isHalted_of_halted h]
  rfl

end

section

variable {μ ω : Type} [Bus μ] [Sink ω] {v : Verbosity}

/-- What a single step logs of the lifecycle is its event. -/
theorem lifecycle_log_perform (hω : Sink.Silent ω) (hv : v.admits .debug = true)
    {cmd : Command} (hrun : cmd.isRun = false) (m : Machine μ ω) :
    Record.lifecycle (m.perform v cmd).log = (cmd.event? m.core).toList := by
  cases cmd with
  | tick =>
      change Record.lifecycle (m.tick v).log = _
      -- With a silent sink the records of a tick are those of the core.
      have hsink : m.core.notices.flatMap (fun _ => ([] : List Record)) = [] := by
        simp
      rw [log_tick_of_record v hω, Record.lifecycle_keep hv, Core.logged, hsink,
        List.append_nil]
      unfold Core.records Command.event?
      cases m.core.outlook with
      | idle => rfl
      | fault => rfl
      | execute op => cases op <;> rfl
  | start =>
      change Record.lifecycle (m.start v).log = (Command.start.event? m.core).toList
      cases hs : m.core.state with
      | running =>
          rw [log_start_of_running v hs, Command.event?, m.core.isHalted_eq_false_iff.2 hs]
          rfl
      | halted =>
          rw [log_start_of_halted v hs, Command.event?, m.core.isHalted_eq_true_iff.2 hs]
          apply Record.lifecycle_note hv
          rfl
  | stop =>
      change Record.lifecycle (m.stop v).log = (Command.stop.event? m.core).toList
      cases hs : m.core.state with
      | running =>
          rw [log_stop_of_running v hs, Command.event?, m.core.isHalted_eq_false_iff.2 hs]
          apply Record.lifecycle_note hv
          rfl
      | halted =>
          rw [log_stop_of_halted v hs, Command.event?, m.core.isHalted_eq_true_iff.2 hs]
          rfl
  | print x =>
      change Record.lifecycle (v.keep (Sink.record m.output (.printed x))) = _
      rw [hω]
      rfl
  | fault e =>
      change Record.lifecycle (v.keep (Sink.record m.output (.faulted e))) = _
      rw [hω]
      rfl
  | runFor budget => cases hrun
  | runUntilHalt budget => cases hrun
  | clock k patience => cases hrun
  | _ => rfl

/-- A single step logs at most one event, and one exactly if it changes the run state. -/
theorem turns_log_perform (hω : Sink.Silent ω) (hv : v.admits .debug = true)
    {cmd : Command} (hrun : cmd.isRun = false) (hreset : cmd ≠ .reset) (m : Machine μ ω) :
    Record.turns (m.perform v cmd).log =
      if m.core.state = (cmd.apply m.core).state then [] else [(cmd.apply m.core).state] := by
  rw [Record.turns, lifecycle_log_perform hω hv hrun]
  cases he : cmd.event? m.core with
  | none =>
      rw [if_pos (Command.state_apply_of_event? hrun hreset he).symm]
      rfl
  | some r =>
      have hr := Command.happens_of_event? he
      rw [if_neg hr.state_ne, Option.toList_some, List.filterMap_cons_some hr.turn_eq]
      rfl

theorem alternates_performAll_of_single (hω : Sink.Silent ω) (hv : v.admits .debug = true)
    {steps : List Command} (h : ∀ step ∈ steps, step.isRun = false ∧ step ≠ .reset)
    (m : Machine μ ω) :
    Record.Alternates m.core.state (performAll v steps m).log
      (performAll v steps m).machine.core.state := by
  -- The steps after the first one begin at the run state that it leaves behind.
  induction steps generalizing m with
  | nil => exact Record.alternates_nil _
  | cons step steps ih =>
      obtain ⟨hrun, hreset⟩ := h step List.mem_cons_self
      have hrest := ih (fun s hs => h s (List.mem_cons_of_mem _ hs))
        (m.perform v step).machine
      rw [core_perform] at hrest
      rw [performAll_cons]
      exact hrest.append_of_turns (turns_log_perform hω hv hrun hreset m)

/-- A history and its single steps log the same events. -/
theorem lifecycle_log_unroll (cmds : List Command) (m : Machine μ ω) :
    Record.lifecycle (performAll v (cmds.flatMap Command.unroll) m).log =
      Record.lifecycle (performAll v cmds m).log :=
  filter_log_performAll_unroll v (fun _ => rfl) cmds m

/-- The events of a history without a reset alternate, and the last one has led to the run
state of the machine. -/
theorem alternates_performAll (hω : Sink.Silent ω) (hv : v.admits .debug = true)
    {cmds : List Command} (hreset : .reset ∉ cmds) (m : Machine μ ω) :
    Record.Alternates m.core.state (performAll v cmds m).log
      (performAll v cmds m).machine.core.state := by
  obtain ⟨halternate, hlast⟩ := alternates_performAll_of_single hω hv
    (Command.single_of_mem_flatMap_unroll hreset) m
  rw [machine_performAll_unroll] at hlast
  rw [Record.turns, lifecycle_log_unroll] at halternate hlast
  exact ⟨halternate, hlast⟩

end

end Machine

namespace Observers

section

variable {μ ω : Type} [Bus μ] [Sink ω] {v : Verbosity}

/-- **The lifecycle events of a log alternate and tell the run state.**  Let the sink log
nothing, as is the case for a buffer and for a callback, and let the verbosity admit
severity debug.  From power-on on, as long as there is no reset, halting and starting
events alternate, a halting one first, and at each moment, those within a run included,
the machine is halted exactly if the last event so far is a halting one.  A single step
makes at most one event, and it makes one exactly if it changes the run state; the event
shows the program counter, which stays where it is, and has its reason in the byte that
stands there.  A start of a running machine, and a stop and a tick of a halted one, log
nothing. -/
theorem lifecycle_events_alternate (hω : Sink.Silent ω) (hv : v.admits .debug = true)
    (memory : μ) (o : ω) (cmds : List Command) (hreset : .reset ∉ cmds) :
    let m := Machine.powerOn memory o
    let steps := cmds.flatMap Command.unroll
    (Machine.performAll v steps m).machine = (Machine.performAll v cmds m).machine ∧
    Record.lifecycle (Machine.performAll v steps m).log =
      Record.lifecycle (Machine.performAll v cmds m).log ∧
    (∀ ops ∈ [cmds, steps], ∀ n,
      let sofar := Machine.performAll v (ops.take n) m
      let turns := Record.turns sofar.log
      (RunState.running :: turns).IsChain (· ≠ ·) ∧
        (sofar.machine.core.state = .halted ↔ turns.getLast? = some .halted)) ∧
    (∀ j step, steps[j]? = some step →
      let before := (Machine.performAll v (steps.take j) m).machine
      let done := before.perform v step
      let events := Record.lifecycle done.log
      (events = [] ∧ done.machine.core.state = before.core.state) ∨
        ∃ r, events = [r] ∧ r.Happens before.core done.machine.core) ∧
    (∀ m : Machine μ ω,
      (m.core.state = .running → (m.start v).log = []) ∧
        (m.core.state = .halted → (m.stop v).log = [] ∧ (m.tick v).log = []) ∧
        ((m.start v).machine.start v).log = [] ∧ ((m.stop v).machine.stop v).log = []) ∧
    Sink.Silent Buffer ∧ ∀ σ : Type, Sink.Silent (Callback σ) := by
  intro m steps
  have hsingle : ∀ step ∈ steps, step.isRun = false ∧ step ≠ .reset :=
    Command.single_of_mem_flatMap_unroll hreset
  refine ⟨Machine.machine_performAll_unroll v cmds m, Machine.lifecycle_log_unroll cmds m,
    ?_, ?_, ?_, Buffer.record_eq, fun _ => Callback.record_eq⟩
  · intro ops hops n sofar turns
    have hsofar : .reset ∉ ops.take n := by
      intro hmem
      have hmem' := List.mem_of_mem_take hmem
      rcases List.mem_pair.1 hops with rfl | rfl
      · exact hreset hmem'
      · exact (hsingle _ hmem').2 rfl
    have hlog := Machine.alternates_performAll hω hv hsofar m
    exact ⟨hlog.alternate, hlog.halted_iff⟩
  · intro j step hstep before done events
    obtain ⟨hrun, hne⟩ := hsingle step (List.mem_of_getElem? hstep)
    have hevents : events = (step.event? before.core).toList :=
      Machine.lifecycle_log_perform hω hv hrun before
    have hcore : done.machine.core = step.apply before.core :=
      Machine.core_perform v step before
    rw [hevents, hcore]
    cases he : step.event? before.core with
    | none => exact Or.inl ⟨rfl, Command.state_apply_of_event? hrun hne he⟩
    | some r => exact Or.inr ⟨r, rfl, Command.happens_of_event? he⟩
  · intro m
    refine ⟨Machine.log_start_of_running v, ?_, ?_, ?_⟩
    · intro hs
      refine ⟨Machine.log_stop_of_halted v hs, ?_⟩
      rw [Machine.tick_of_halted v m hs]
    · exact Machine.log_start_of_running v rfl
    · exact Machine.log_stop_of_halted v rfl

end

/-- Print the current register and halt.  A byte that is no opcode stands behind. -/
def waking : Machine Bank Buffer :=
  Machine.powerOn (Bus.replay Bank.zero [(0, 0x06), (2, 0xFF)]) Buffer.empty

theorem lifecycle_events_alternate_waking :
    let v := Verbosity.upTo .debug
    let cmds : List Command :=
      [.runFor 5, .start, .start, .setPc 2, .tick, .stop, .clock ⟨0, some 0⟩ 0, .stop]
    let done := Machine.performAll v cmds waking
    let fetching := (Machine.performAll v ((cmds.flatMap Command.unroll).take 8) waking).machine
    let stopped := (waking.stop v).machine
    Sink.Silent Buffer ∧ v.admits .debug = true ∧ .reset ∉ cmds ∧
      Record.lifecycle done.log =
        [.halted 1, .started 1, .faulted ⟨0xFF, 2⟩, .started 2, .stopped 2] ∧
      (Record.lifecycle done.log).map Record.message =
        ["halted at PC 0x01", "clock started at PC 0x01",
          "invalid instruction 0xFF at PC 0x02", "clock started at PC 0x02",
          "clock stopped at PC 0x02"] ∧
      (RunState.running :: Record.turns done.log).IsChain (· ≠ ·) ∧
      done.machine.core.state = .halted ∧
      (Record.faulted ⟨0xFF, 2⟩).Happens fetching.core (fetching.perform v .tick).machine.core ∧
      (waking.start v).log = [] ∧ (stopped.stop v).log = [] ∧ (stopped.tick v).log = [] := by
  intro v cmds done fetching stopped
  have hv : v.admits .debug = true := by
    decide
  have hreset : .reset ∉ cmds := by
    decide
  have hevents : Record.lifecycle done.log =
      [.halted 1, .started 1, .faulted ⟨0xFF, 2⟩, .started 2, .stopped 2] := by
    decide +kernel
  have hmessages : (Record.lifecycle done.log).map Record.message =
      ["halted at PC 0x01", "clock started at PC 0x01",
        "invalid instruction 0xFF at PC 0x02", "clock started at PC 0x02",
        "clock stopped at PC 0x02"] := by
    rw [hevents]
    decide +kernel
  have hlast : (Record.turns done.log).getLast? = some .halted := by
    rw [Record.turns, hevents]
    rfl
  have hfault : Record.lifecycle (fetching.perform v .tick).log = [.faulted ⟨0xFF, 2⟩] := by
    decide +kernel
  obtain ⟨_, _, hmoments, hsteps, hidle, hsilent, _⟩ :=
    lifecycle_events_alternate Buffer.record_eq hv
      (Bus.replay Bank.zero [(0, 0x06), (2, 0xFF)]) Buffer.empty cmds hreset
  obtain ⟨halternate, hhalted⟩ := hmoments cmds List.mem_cons_self cmds.length
  rw [List.take_length] at halternate hhalted
  refine ⟨hsilent, hv, hreset, hevents, hmessages, halternate, hhalted.2 hlast, ?_,
    (hidle waking).1 rfl, (hidle stopped).2.1 rfl⟩
  obtain ⟨hnone, _⟩ | ⟨r, hr, hhappens⟩ := hsteps 8 .tick rfl
  · exact absurd (hnone.symm.trans hfault) (List.cons_ne_nil _ _).symm
  · obtain rfl := (List.cons.inj (hfault.symm.trans hr)).1
    simp only [fetching, waking]
    exact hhappens

end Observers
end ByteMachine
