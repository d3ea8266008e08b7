import ByteMachine.Proofs.Observers.Notices

/-!
# What a command logs

A sink may add records of its own to the log.  Where these depend on the notices alone,
and not on the state of the sink, the core decides what is logged.  At the severities of
what ticks do, which are all but that of starts, stops and clock runs, the log is then
what each tick logs, one after the other.

**Results.**
* `log_tickTimes_of_record`: the log of a run, tick by tick.
* `ofSeverity_log_perform`, `ofSeverity_log_performAll`: what a command and a history log
  at one severity.
-/

namespace ByteMachine

/-- The records of one severity. -/
def Record.ofSeverity (s : Severity) (log : List Record) : List Record :=
  log.filter fun r => r.severity = s

section

variable {s : Severity}

theorem Record.ofSeverity_nil : ofSeverity s [] = [] := rfl

theorem Record.ofSeverity_append (a b : List Record) :
    ofSeverity s (a ++ b) = ofSeverity s a ++ ofSeverity s b :=
  List.filter_append ..

/-- Admitted records are not struck out. -/
theorem Verbosity.ofSeverity_keep {v : Verbosity} (h : v.admits s = true)
    (log : List Record) : Record.ofSeverity s (v.keep log) = Record.ofSeverity s log := by
  unfold Record.ofSeverity keep
  rw [List.filter_filter]
  apply List.filter_congr
  intro r _
  by_cases hr : r.severity = s
  · simp [hr, h]
  · simp [hr]

/-- It does not matter whether records are struck out by severity or by verbosity first. -/
theorem Verbosity.ofSeverity_keep_comm (v : Verbosity) (log : List Record) :
    Record.ofSeverity s (v.keep log) = v.keep (Record.ofSeverity s log) := by
  unfold Record.ofSeverity keep
  rw [List.filter_filter, List.filter_filter]
  apply List.filter_congr
  intro r _
  exact Bool.and_comm _ _

end

/-- The records of a tick on a machine whose sink makes the records `f n` of a notice. -/
def Core.logged {μ : Type} [Bus μ] (f : Notice → List Record) (c : Core μ) : List Record :=
  c.records ++ c.notices.flatMap f

section

variable {μ : Type} [Bus μ] {f : Notice → List Record} {c : Core μ}

/-- The machine itself logs nothing at severity info. -/
theorem Core.ofSeverity_info_logged
    (hf : ∀ e, Record.ofSeverity .info (f (.faulted e)) = []) :
    Record.ofSeverity .info (c.logged f) =
      c.printed.flatMap fun x => Record.ofSeverity .info (f (.printed x)) := by
  unfold logged records notices printed
  rw [Record.ofSeverity_append]
  cases c.outlook with
  | idle => rfl
  | fault => simpa [Record.ofSeverity, Record.severity] using hf c.faultHere
  | execute op => cases op <;> simp [Record.ofSeverity, Record.severity]

/-- The machine itself logs an error for each fault, before the sink logs its own. -/
theorem Core.ofSeverity_error_logged
    (hf : ∀ x, Record.ofSeverity .error (f (.printed x)) = []) :
    Record.ofSeverity .error (c.logged f) =
      c.faults.flatMap fun e =>
        .faulted e :: Record.ofSeverity .error (f (.faulted e)) := by
  unfold logged records notices faults
  rw [Record.ofSeverity_append]
  cases c.outlook with
  | idle => rfl
  | fault => simp [Record.ofSeverity, Record.severity]
  | execute op =>
      cases op with
      | prn => simpa [Record.ofSeverity, Record.severity] using hf c.value
      | _ => simp [Record.ofSeverity, Record.severity]

end

namespace Machine

section

variable {μ ω : Type} [Bus μ] [Sink ω] (v : Verbosity) {f : Notice → List Record}
    (hf : ∀ (o : ω) (n : Notice), Sink.record o n = f n)
include hf

theorem recordAll_of_record (o : ω) (ns : List Notice) :
    Sink.recordAll o ns = ns.flatMap f := by
  induction ns generalizing o with
  | nil => rfl
  | cons n ns ih => rw [Sink.recordAll_cons, hf, ih, List.flatMap_cons]

theorem log_tick_of_record (m : Machine μ ω) :
    (m.tick v).log = v.keep (m.core.logged f) := by
  rw [log_tick, recordAll_of_record hf]
  rfl

/-- A run logs what its ticks log, one after the other. -/
theorem log_tickTimes_of_record (n : Nat) (m : Machine μ ω) :
    (m.tickTimes v n).log = v.keep (m.core.gather (Core.logged f) n) := by
  induction n generalizing m with
  | zero => rfl
  | succ n ih =>
      rw [tickTimes_succ, Outcome.log_andThen, Outcome.log_map, ih,
        log_tick_of_record v hf, core_tick, Core.gather_succ, Verbosity.keep_append]

section

variable {s : Severity} (hs : s ≠ .debug) (hv : v.admits s = true)
include hs hv

/-- What a command logs at an admitted severity.  The records of starts, stops and clock
runs are left out, which have a severity of their own. -/
theorem ofSeverity_log_perform (cmd : Command) (m : Machine μ ω) :
    Record.ofSeverity s (m.perform v cmd).log =
      cmd.observed (fun c => Record.ofSeverity s (c.logged f))
        (fun n => Record.ofSeverity s (f n)) m.core := by
  have hdebug : decide (Severity.debug = s) = false := decide_eq_false hs.symm
  have hrun : ∀ (n : Nat) (m : Machine μ ω),
      Record.ofSeverity s (m.tickTimes v n).log =
        m.core.gather (fun c => Record.ofSeverity s (c.logged f)) n := by
    intro n m
    rw [log_tickTimes_of_record v hf, Verbosity.ofSeverity_keep hv,
      Core.map_gather Record.ofSeverity_nil Record.ofSeverity_append]
  cases cmd with
  | tick =>
      change Record.ofSeverity s (m.tick v).log = _
      rw [log_tick_of_record v hf, Verbosity.ofSeverity_keep hv]
      rfl
  | runFor budget =>
      change Record.ofSeverity s (m.runFor v budget).log = _
      rw [log_runFor, hrun]
      rfl
  | runUntilHalt budget =>
      change Record.ofSeverity s (m.runFor v budget).log = _
      rw [log_runFor, hrun]
      rfl
  | clock k patience =>
      change Record.ofSeverity s (k.run v patience m).log = _
      have hstart : Record.ofSeverity s (m.start v).log = [] :=
        filter_log_start v (fun _ => hdebug) m
      have hclosing : Record.ofSeverity s (v.keep (k.closing
          ((m.start v).andThen (runFor v (k.limit.getD patience))))) = [] :=
        Clock.filter_closing (fun _ => hdebug) k v _
      rw [Clock.log_run, Record.ofSeverity_append, Record.ofSeverity_append, hstart, hrun,
        hclosing, List.nil_append, List.append_nil]
      rfl
  | start => exact filter_log_start v (fun _ => hdebug) m
  | stop => exact filter_log_stop v (fun _ => hdebug) m
  | print x =>
      rw [Command.observed, ← hf m.output]
      exact Verbosity.ofSeverity_keep hv _
  | fault e =>
      rw [Command.observed, ← hf m.output]
      exact Verbosity.ofSeverity_keep hv _
  | _ => rfl

/-- What a history logs at an admitted severity, command by command. -/
theorem ofSeverity_log_performAll (cmds : List Command) (m : Machine μ ω) :
    Record.ofSeverity s (performAll v cmds m).log =
      chronicle v (Command.observed (fun c => Record.ofSeverity s (c.logged f))
        fun n => Record.ofSeverity s (f n)) cmds m := by
  induction cmds generalizing m with
  | nil => rfl
  | cons cmd cmds ih =>
      rw [performAll_cons, Outcome.log_andThen, Outcome.log_map, Record.ofSeverity_append, ih,
        ofSeverity_log_perform v hf hs hv, chronicle_cons]

end

end

end Machine
end ByteMachine
