import ByteMachine.Proofs.History.Steps
import ByteMachine.Proofs.Observers.Sinks
import ByteMachine.Proofs.StraightLine

/-!
# The log as an observer

The log is a list that is returned beside the state, and no operation looks at it.  A
verbosity therefore strikes records out of the full log and changes nothing else.  In the
full log each instruction is traced once, before anything else is told of it, with the
line that stands at the program counter when the instruction is about to be executed.

A sink may log what it likes.  The statements on traces are about sinks that do not log
at severity trace, and the three sinks of the library are such sinks.

**Results.**
* `Verbosity.keep_eq_filter`: which severities are kept at a verbosity.
* `Machine.log_performAll_eq_keep`: what is kept at a verbosity is what is left of the
  full log.
* `Machine.ofSeverity_trace_performAll`: the traces of a history, one for each executed
  instruction.
* `Machine.ticks_performAll`: the tick counter advances by the number of traces.
* `logging_is_a_faithful_observer`: all of this side by side.
-/

namespace ByteMachine

/-- Whether the sink logs nothing at severity trace. -/
def Sink.Untraced (ω : Type) [Sink ω] : Prop :=
  ∀ (o : ω) (n : Notice), ∀ r ∈ Sink.record o n, r.severity ≠ .trace

/-- The record that traces the next instruction of a core. -/
def Core.trace {μ : Type} [Bus μ] (c : Core μ) : Record :=
  .traced (Line.decodeAt c.memory c.regs.pc)

/-! ### Sinks that do not trace -/

theorem Buffer.untraced : Sink.Untraced Buffer := by
  intro o n r hr
  rw [record_eq] at hr
  cases hr

theorem Callback.untraced (σ : Type) : Sink.Untraced (Callback σ) := by
  intro o n r hr
  rw [record_eq] at hr
  cases hr

theorem Logger.untraced : Sink.Untraced Logger := by
  intro o n r hr
  rw [record_eq] at hr
  rw [List.mem_singleton.1 hr]
  cases n with
  | printed x => exact Severity.noConfusion
  | faulted e => exact Severity.noConfusion

/-- A log has no record of a severity exactly when each of its records has another one. -/
theorem Record.ofSeverity_eq_nil {s : Severity} {log : List Record} :
    ofSeverity s log = [] ↔ ∀ r ∈ log, r.severity ≠ s := by
  simp [ofSeverity]

theorem Sink.recordAll_untraced {ω : Type} [Sink ω] (h : Untraced ω) (o : ω)
    (ns : List Notice) : Record.ofSeverity .trace (recordAll o ns) = [] := by
  induction ns generalizing o with
  | nil => rfl
  | cons n ns ih =>
      rw [recordAll_cons, Record.ofSeverity_append, ih, List.append_nil]
      exact Record.ofSeverity_eq_nil.2 (h o n)

/-! ### Verbosities -/

namespace Verbosity

/-- The severities of the records that are kept, most severe first. -/
def severities : Verbosity → List Severity
  | off => []
  | upTo .error => [.error]
  | upTo .warn => [.error, .warn]
  | upTo .info => [.error, .warn, .info]
  | upTo .debug => [.error, .warn, .info, .debug]
  | upTo .trace => [.error, .warn, .info, .debug, .trace]

theorem admits_eq_decide (v : Verbosity) (s : Severity) :
    v.admits s = decide (s ∈ v.severities) := by
  cases v with
  | off => rfl
  | upTo least => cases least <;> cases s <;> rfl

theorem keep_eq_filter (v : Verbosity) (log : List Record) :
    v.keep log = log.filter fun r => r.severity ∈ v.severities :=
  List.filter_congr fun r _ => v.admits_eq_decide r.severity

theorem keep_upTo_trace (log : List Record) : (upTo .trace).keep log = log := by
  rw [keep, List.filter_eq_self]
  rintro r _
  exact admits_upTo_trace r.severity

end Verbosity

namespace Clock

/-- The closing record of a clock depends on the count of the run and on whether it
halted. -/
theorem closing_congr {μ ω : Type} (k : Clock)
    {o o' : Outcome (Except DecodeFault Nat) μ ω} (hr : o.result = o'.result)
    (hm : o.machine = o'.machine) : k.closing o = k.closing o' := by
  unfold closing
  rw [hr, hm]

end Clock

namespace Machine

section

variable {μ ω : Type} (v v' : Verbosity)

theorem log_start_eq_keep (m : Machine μ ω) :
    (m.start v).log = v.keep (m.start (.upTo .trace)).log := by
  simp only [start]
  split
  · rw [Verbosity.keep_note_upTo_trace]
  · rfl

theorem log_stop_eq_keep (m : Machine μ ω) :
    (m.stop v).log = v.keep (m.stop (.upTo .trace)).log := by
  simp only [stop]
  split
  · rfl
  · rw [Verbosity.keep_note_upTo_trace]

variable [Bus μ] [Sink ω]

/-- No operation leaves another machine behind at another verbosity. -/
theorem machine_perform_of_verbosity (cmd : Command) (m : Machine μ ω) :
    (m.perform v cmd).machine = (m.perform v' cmd).machine := by
  by_cases hcmd : cmd = .drain
  · subst hcmd
    rfl
  · have hcore : (m.perform v cmd).machine.core = (m.perform v' cmd).machine.core := by
      rw [core_perform, core_perform]
    have houtput : (m.perform v cmd).machine.output = (m.perform v' cmd).machine.output := by
      rw [output_perform v hcmd, output_perform v' hcmd]
    exact congrArg₂ Machine.mk hcore houtput

/-- No operation returns anything else at another verbosity. -/
theorem result_perform_of_verbosity (cmd : Command) (m : Machine μ ω) :
    (m.perform v cmd).result = (m.perform v' cmd).result := by
  by_cases hcmd : cmd = .drain
  · subst hcmd
    rfl
  · exact result_perform_of_core_eq v v' rfl hcmd

theorem log_tickTimes_eq_keep (n : Nat) (m : Machine μ ω) :
    (m.tickTimes v n).log = v.keep (m.tickTimes (.upTo .trace) n).log := by
  induction n generalizing m with
  | zero => rfl
  | succ n ih =>
      have hmachine : (m.tick v).machine = (m.tick (.upTo .trace)).machine :=
        machine_perform_of_verbosity v (.upTo .trace) .tick m
      rw [tickTimes_succ, tickTimes_succ]
      simp only [Outcome.log_andThen, Outcome.log_map, Verbosity.keep_append, ih, hmachine,
        log_tick, Verbosity.keep_upTo_trace]

/-- What an operation logs at a verbosity is what is left of all that it logs. -/
theorem log_perform_eq_keep (cmd : Command) (m : Machine μ ω) :
    (m.perform v cmd).log = v.keep (m.perform (.upTo .trace) cmd).log := by
  cases cmd with
  | tick =>
      change (m.tick v).log = v.keep (m.tick (.upTo .trace)).log
      rw [log_tick, log_tick, Verbosity.keep_upTo_trace]
  | runFor budget =>
      change (m.runFor v budget).log = v.keep (m.runFor (.upTo .trace) budget).log
      rw [log_runFor, log_runFor, log_tickTimes_eq_keep]
  | runUntilHalt budget =>
      change (m.runFor v budget).log = v.keep (m.runFor (.upTo .trace) budget).log
      rw [log_runFor, log_runFor, log_tickTimes_eq_keep]
  | clock k patience =>
      have hresult : ((m.start v).machine.runFor v (k.limit.getD patience)).result =
          ((m.start (.upTo .trace)).machine.runFor (.upTo .trace)
            (k.limit.getD patience)).result :=
        (lockstep_of_core_eq v (.upTo .trace)).result_runFor rfl _
      have hmachine : ((m.start v).machine.runFor v (k.limit.getD patience)).machine =
          ((m.start (.upTo .trace)).machine.runFor (.upTo .trace)
            (k.limit.getD patience)).machine :=
        machine_perform_of_verbosity v (.upTo .trace) (.runFor _) (m.start v).machine
      have hclosing : k.closing
          ((m.start v).andThen (runFor v (k.limit.getD patience))) =
          k.closing ((m.start (.upTo .trace)).andThen
            (runFor (.upTo .trace) (k.limit.getD patience))) :=
        k.closing_congr hresult hmachine
      change (k.run v patience m).log = v.keep (k.run (.upTo .trace) patience m).log
      rw [Clock.log_run, Clock.log_run, hclosing]
      simp only [Verbosity.keep_append, Verbosity.keep_upTo_trace]
      rw [log_start_eq_keep, log_tickTimes_eq_keep]
      rfl
  | start => exact log_start_eq_keep v m
  | stop => exact log_stop_eq_keep v m
  | print x => exact congrArg v.keep (Verbosity.keep_upTo_trace _).symm
  | fault e => exact congrArg v.keep (Verbosity.keep_upTo_trace _).symm
  | _ => rfl

theorem machine_performAll_of_verbosity (cmds : List Command) (m : Machine μ ω) :
    (performAll v cmds m).machine = (performAll v' cmds m).machine := by
  induction cmds generalizing m with
  | nil => rfl
  | cons cmd cmds ih =>
      rw [performAll_cons, performAll_cons]
      simp only [Outcome.machine_andThen, Outcome.machine_map,
        machine_perform_of_verbosity v v' cmd m, ih]

theorem result_performAll_of_verbosity (cmds : List Command) (m : Machine μ ω) :
    (performAll v cmds m).result = (performAll v' cmds m).result := by
  induction cmds generalizing m with
  | nil => rfl
  | cons cmd cmds ih =>
      rw [performAll_cons, performAll_cons]
      simp only [Outcome.result_andThen, Outcome.result_map,
        machine_perform_of_verbosity v v' cmd m, result_perform_of_verbosity v v' cmd m, ih]

/-- What a history logs at a verbosity is what is left of the full log. -/
theorem log_performAll_eq_keep (cmds : List Command) (m : Machine μ ω) :
    (performAll v cmds m).log = v.keep (performAll (.upTo .trace) cmds m).log := by
  induction cmds generalizing m with
  | nil => rfl
  | cons cmd cmds ih =>
      rw [performAll_cons, performAll_cons]
      simp only [Outcome.log_andThen, Outcome.log_map, Verbosity.keep_append,
        machine_perform_of_verbosity v (.upTo .trace) cmd m, log_perform_eq_keep v cmd m, ih]

end

end Machine

/-! ### Traces -/

namespace Core

section

variable {μ : Type} [Bus μ] (c : Core μ)

/-- A trace shows the program counter, and the line that stands there. -/
theorem message_trace :
    c.trace.message =
      Hex.numeral c.regs.pc ++ ": " ++ (Line.decodeAt c.memory c.regs.pc).text := by
  change Hex.byte (Line.decodeAt c.memory c.regs.pc).address ++ ": " ++ _ = _
  rw [Line.address_decodeAt, Hex.byte_eq_numeral]

theorem ofSeverity_trace_records :
    Record.ofSeverity .trace c.records = c.executing.map trace := by
  unfold records executing
  cases c.outlook with
  | idle => rfl
  | fault => rfl
  | execute op => cases op <;> rfl

end

end Core

/-- Among the single steps only a reset turns the tick counter back, and only a tick that
executes an instruction advances it. -/
theorem Command.ticks_apply {μ : Type} [Bus μ] {cmd : Command} (hrun : cmd.isRun = false)
    (hreset : cmd ≠ .reset) (c : Core μ) :
    (cmd.apply c).ticks = c.ticks + (cmd.atTicks Core.executing c).length := by
  cases cmd with
  | tick => exact c.ticks_next
  | reset => exact absurd rfl hreset
  | runFor budget => cases hrun
  | runUntilHalt budget => cases hrun
  | clock k patience => cases hrun
  | _ => rfl

namespace Machine

section

variable {μ ω : Type} [Bus μ] [Sink ω]

/-- The cores that the instructions of a history find, in the order of their execution:
each core is the one right before its instruction. -/
def executions (cmds : List Command) (m : Machine μ ω) : List (Core μ) :=
  chronicle (.upTo .trace) (Command.atTicks Core.executing)
    (cmds.flatMap Command.unroll) m

theorem ticks_performAll_of_single {steps : List Command}
    (h : ∀ step ∈ steps, step.isRun = false ∧ step ≠ .reset) (m : Machine μ ω) :
    (performAll (.upTo .trace) steps m).machine.core.ticks =
      m.core.ticks +
        (chronicle (.upTo .trace) (Command.atTicks Core.executing) steps m).length := by
  induction steps generalizing m with
  | nil => rfl
  | cons step steps ih =>
      obtain ⟨hrun, hreset⟩ := h step List.mem_cons_self
      have hrest := ih (fun s hs => h s (List.mem_cons_of_mem _ hs))
        (m.perform (.upTo .trace) step).machine
      rw [core_perform, Command.ticks_apply hrun hreset] at hrest
      rw [performAll_cons, chronicle_cons, List.length_append, ← Nat.add_assoc]
      exact hrest

/-- Without a reset the tick counter advances by the number of executed instructions. -/
theorem ticks_performAll {cmds : List Command} (h : .reset ∉ cmds) (m : Machine μ ω) :
    (performAll (.upTo .trace) cmds m).machine.core.ticks =
      m.core.ticks + (executions cmds m).length := by
  rw [executions, ← ticks_performAll_of_single (Command.single_of_mem_flatMap_unroll h),
    machine_performAll_unroll]

variable (hω : Sink.Untraced ω)
include hω

/-- The traces of a tick are those of the core. -/
theorem ofSeverity_trace_log_tick (v : Verbosity) (m : Machine μ ω) :
    Record.ofSeverity .trace (m.tick v).log =
      v.keep (Record.ofSeverity .trace m.core.records) := by
  rw [log_tick, Verbosity.ofSeverity_keep_comm, Record.ofSeverity_append,
    Sink.recordAll_untraced hω, List.append_nil]

theorem ofSeverity_trace_tick (m : Machine μ ω) :
    Record.ofSeverity .trace (m.tick (.upTo .trace)).log =
      m.core.executing.map Core.trace := by
  rw [ofSeverity_trace_log_tick hω, Verbosity.keep_upTo_trace, Core.ofSeverity_trace_records]

/-- The trace of an instruction is the first record of its tick, and the only one of its
severity. -/
theorem log_tick_of_execute {op : Opcode} {m : Machine μ ω}
    (h : m.core.outlook = .execute op) :
    ∃ rest, (m.tick (.upTo .trace)).log = m.core.trace :: rest ∧
      Record.ofSeverity .trace rest = [] := by
  obtain ⟨rest, hrecords, hrest⟩ := Core.records_of_execute h
  refine ⟨rest ++ Sink.recordAll m.output m.core.notices, ?_, ?_⟩
  · rw [log_tick, Verbosity.keep_upTo_trace, hrecords]
    rfl
  · rw [Record.ofSeverity_append, Sink.recordAll_untraced hω, List.append_nil]
    exact Record.ofSeverity_eq_nil.2 hrest

theorem ofSeverity_trace_perform {cmd : Command} (hrun : cmd.isRun = false)
    (m : Machine μ ω) :
    Record.ofSeverity .trace (m.perform (.upTo .trace) cmd).log =
      (cmd.atTicks Core.executing m.core).map Core.trace := by
  cases cmd with
  | tick => exact ofSeverity_trace_tick hω m
  | start => exact filter_log_start _ (fun _ => rfl) m
  | stop => exact filter_log_stop _ (fun _ => rfl) m
  | print x =>
      change Record.ofSeverity .trace ((Verbosity.upTo .trace).keep _) = []
      rw [Verbosity.keep_upTo_trace]
      exact Record.ofSeverity_eq_nil.2 (hω m.output (.printed x))
  | fault e =>
      change Record.ofSeverity .trace ((Verbosity.upTo .trace).keep _) = []
      rw [Verbosity.keep_upTo_trace]
      exact Record.ofSeverity_eq_nil.2 (hω m.output (.faulted e))
  | runFor budget => cases hrun
  | runUntilHalt budget => cases hrun
  | clock k patience => cases hrun
  | _ => rfl

theorem ofSeverity_trace_performAll_of_single {steps : List Command}
    (h : ∀ step ∈ steps, step.isRun = false) (m : Machine μ ω) :
    Record.ofSeverity .trace (performAll (.upTo .trace) steps m).log =
      (chronicle (.upTo .trace) (Command.atTicks Core.executing) steps m).map Core.trace := by
  induction steps generalizing m with
  | nil => rfl
  | cons step steps ih =>
      rw [performAll_cons, Outcome.log_andThen, Outcome.log_map, Record.ofSeverity_append,
        ofSeverity_trace_perform hω (h step List.mem_cons_self), chronicle_cons,
        List.map_append, ih fun s hs => h s (List.mem_cons_of_mem _ hs)]

/-- In the course of a history each executed instruction is traced once, as it is found. -/
theorem ofSeverity_trace_performAll (cmds : List Command) (m : Machine μ ω) :
    Record.ofSeverity .trace (performAll (.upTo .trace) cmds m).log =
      (executions cmds m).map Core.trace := by
  rw [executions, ← ofSeverity_trace_performAll_of_single hω fun step =>
    Command.isRun_of_mem_flatMap_unroll]
  exact (filter_log_performAll_unroll _ (fun _ => rfl) cmds m).symm

end

end Machine

namespace Observers

section

variable {μ ω : Type} [Bus μ] [Sink ω]

/-- **Logging is a faithful observer.**  With a sink that does not trace, each executed
instruction is traced once, as it stands in memory when it is about to be executed, with
the numeral of its address in front, and before anything else is told of it.  Nothing else is traced, so that the tick counter
advances by the number of traces.  At any verbosity the responses and the machine are
those without a log, and the log is what the verbosity leaves of the full log. -/
theorem logging_is_a_faithful_observer (m : Machine μ ω) (cmds : List Command) :
    let full := Machine.performAll (.upTo .trace) cmds m
    let silent := Machine.performAll .off cmds m
    let executed := Machine.executions cmds m
    (Sink.Untraced ω →
      Record.ofSeverity .trace full.log = executed.map Core.trace ∧
        (Record.ofSeverity .trace full.log).map Record.message =
          executed.map (fun c =>
            Hex.numeral c.regs.pc ++ ": " ++ (Line.decodeAt c.memory c.regs.pc).text) ∧
        (.reset ∉ cmds →
          full.machine.core.ticks =
            m.core.ticks + (Record.ofSeverity .trace full.log).length) ∧
        (∀ op, m.core.outlook = .execute op →
          ∃ rest, (m.tick (.upTo .trace)).log = m.core.trace :: rest ∧
            Record.ofSeverity .trace rest = []) ∧
        ((∀ op, m.core.outlook ≠ .execute op) →
          Record.ofSeverity .trace (m.tick (.upTo .trace)).log = [])) ∧
    (∀ v : Verbosity,
      let kept := Machine.performAll v cmds m
      kept.result = silent.result ∧ kept.machine = silent.machine ∧
        kept.log = full.log.filter fun r => r.severity ∈ v.severities) ∧
    Sink.Untraced Buffer ∧ (∀ σ : Type, Sink.Untraced (Callback σ)) ∧
    Sink.Untraced Logger := by
  intro full silent executed
  refine ⟨?_, ?_, Buffer.untraced, Callback.untraced, Logger.untraced⟩
  · intro hω
    have htraces : Record.ofSeverity .trace full.log = executed.map Core.trace :=
      Machine.ofSeverity_trace_performAll hω cmds m
    refine ⟨htraces, ?_, ?_, ?_, ?_⟩
    · rw [htraces, List.map_map]
      apply List.map_congr_left
      intro c _
      exact c.message_trace
    · intro hreset
      rw [htraces, List.length_map]
      exact Machine.ticks_performAll hreset m
    · intro op ho
      exact Machine.log_tick_of_execute hω ho
    · intro hexecute
      rw [Machine.ofSeverity_trace_tick hω, Core.executing_eq_nil hexecute, List.map_nil]
  · intro v kept
    exact ⟨Machine.result_performAll_of_verbosity v .off cmds m,
      Machine.machine_performAll_of_verbosity v .off cmds m,
      (Machine.log_performAll_eq_keep v cmds m).trans (v.keep_eq_filter _)⟩

end

/-- Save 0xFF, overwrite the first byte of the store with it, and halt. -/
def overwriting : Machine Bank Logger :=
  Machine.powerOn (Bank.ofImage [0x04, 0xFF, 0x09, 0x02]) ⟨⟩

theorem logging_is_a_faithful_observer_overwriting :
    let cmds : List Command := [.runFor 2, .stop, .tick, .clock Clock.standard 5]
    let full := Machine.performAll (.upTo .trace) cmds overwriting
    let stopped := (overwriting.stop .off).machine
    Sink.Untraced Logger ∧ .reset ∉ cmds ∧
      Record.ofSeverity .trace full.log =
        [.traced ⟨0, 0x04, some .save, [0xFF]⟩, .traced ⟨2, 0x09, some .st, [0x02]⟩,
          .traced ⟨4, 0x00, some .halt, []⟩] ∧
      (Record.ofSeverity .trace full.log).map Record.message =
        ["0x00: SAVE 0xFF", "0x02: ST 0x02", "0x04: HALT"] ∧
      full.machine.core.ticks = 3 ∧
      (∃ rest, (overwriting.tick (.upTo .trace)).log = overwriting.core.trace :: rest ∧
        Record.ofSeverity .trace rest = []) ∧
      Record.ofSeverity .trace (stopped.tick (.upTo .trace)).log = [] ∧
      (Machine.performAll (.upTo .debug) cmds overwriting).log =
        [.stopped 4, .started 4, .halted 4, .finished ⟨1, true⟩] := by
  intro cmds full stopped
  have hreset : .reset ∉ cmds := by
    decide
  have hlines : (Machine.executions cmds overwriting).map Core.trace =
      [.traced ⟨0, 0x04, some .save, [0xFF]⟩, .traced ⟨2, 0x09, some .st, [0x02]⟩,
        .traced ⟨4, 0x00, some .halt, []⟩] := by
    decide +kernel
  have htexts : (Machine.executions cmds overwriting).map (fun c =>
      Hex.numeral c.regs.pc ++ ": " ++ (Line.decodeAt c.memory c.regs.pc).text) =
        ["0x00: SAVE 0xFF", "0x02: ST 0x02", "0x04: HALT"] := by
    decide +kernel
  have hfirst : overwriting.core.outlook = .execute .save := by
    decide +kernel
  have hstopped : ∀ op, stopped.core.outlook ≠ .execute op := by
    rintro op h
    cases h
  have hkept : (full.log.filter fun r => r.severity ∈ (Verbosity.upTo .debug).severities) =
      [.stopped 4, .started 4, .halted 4, .finished ⟨1, true⟩] := by
    decide +kernel
  obtain ⟨hfull, hverbosity, _, _, hlogger⟩ :=
    logging_is_a_faithful_observer overwriting cmds
  obtain ⟨htraces, hmessages, hticks, htick, _⟩ := hfull hlogger
  obtain ⟨_, _, _, _, hidle⟩ := (logging_is_a_faithful_observer stopped []).1 hlogger
  refine ⟨hlogger, hreset, htraces.trans hlines, hmessages.trans htexts, ?_,
    htick .save hfirst, hidle hstopped, ?_⟩
  · rw [hticks hreset, htraces.trans hlines]
    rfl
  · exact (hverbosity (.upTo .debug)).2.2.trans hkept

end Observers
end ByteMachine
