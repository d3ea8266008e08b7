import ByteMachine.Proofs.Observers.Log
import ByteMachine.Sink.Callback
import ByteMachine.Sink.Logger

/-!
# Sinks are interchangeable observers

A buffer, a callback and a logger receive the same notices.  The buffer keeps the values
until they are drained, the callback hands each of them to its host, and the logger
writes each of them to the log.  So what the host has of them in the end is one list of
values, in three forms.  The faults that the buffer keeps are those that the host learns
of anyway, from the responses or because it reported them itself.

**Results.**
* `Buffer.printed_performAll`, `Buffer.faults_performAll`: what a buffer hands over and
  keeps in the course of a history.
* `Callback.output_performAll`: what a callback is called with.
* `Logger.infos_performAll`, `Logger.errors_performAll`: what a history logs with a
  logger, values and faults.
* `Machine.errors_performAll_of_silent`: the faults that it logs without one.
* `sinks_observe_alike`: the three sinks side by side.
-/

namespace ByteMachine

namespace Command

/-- The faults that a host learns of with a command: the fault in the response, or the
one that the host reports itself. -/
def reported (cmd : Command) (r : Response) : List DecodeFault :=
  match cmd with
  | fault e => [e]
  | _ => r.faults

/-- The errors that a command logs on a machine with a logger.  A fault that the machine
meets is logged by the machine and again by the sink, and a fault that the host reports
is logged by the sink alone. -/
def errors (cmd : Command) (r : Response) : List Record :=
  match cmd with
  | fault e => [.faulted e]
  | _ => r.faults.flatMap fun e => [.faulted e, .faulted e]

theorem faults_eq_reported {μ ω : Type} [Bus μ] [Sink ω] (v : Verbosity) (cmd : Command)
    (m : Machine μ ω) : cmd.faults m.core = cmd.reported (m.perform v cmd).result := by
  have h := Machine.observed_faults v (fun e => [e]) (g := fun n => n.fault?.toList)
    (fun _ => rfl) cmd m
  simp only [List.flatMap_singleton'] at h
  unfold faults
  rw [h]
  cases cmd <;> rfl

end Command

/-! ### A buffer -/

namespace Buffer

section

variable {μ : Type} [Bus μ] (v : Verbosity)

/-- The values handed over so far, and after them those that are kept, are the values
printed so far. -/
theorem printed_performAll (cmds : List Command) (m : Machine μ Buffer) :
    (Machine.performAll v cmds m).result.flatMap Response.drained ++
        (Machine.performAll v cmds m).machine.output.printed.toList =
      m.output.printed.toList ++ Machine.chronicle v Command.printed cmds m := by
  induction cmds generalizing m with
  | nil => simp
  | cons cmd cmds ih =>
      rw [Machine.performAll_cons, Outcome.result_andThen, Outcome.machine_andThen,
        Outcome.result_map, Outcome.machine_map, List.flatMap_cons, List.append_assoc, ih,
        Machine.chronicle_cons]
      by_cases hcmd : cmd = .drain
      · subst hcmd
        rfl
      · rw [Machine.drained_perform v hcmd, Machine.output_perform v hcmd,
          printed_receiveAll, Command.filterMap_value_notices]
        simp

/-- A buffer keeps every fault that it is told of. -/
theorem faults_performAll (cmds : List Command) (m : Machine μ Buffer) :
    (Machine.performAll v cmds m).machine.output.faults.toList =
      m.output.faults.toList ++ Machine.chronicle v Command.faults cmds m := by
  induction cmds generalizing m with
  | nil => simp
  | cons cmd cmds ih =>
      rw [Machine.performAll_cons, Outcome.machine_andThen, Outcome.machine_map, ih,
        Machine.chronicle_cons]
      by_cases hcmd : cmd = .drain
      · subst hcmd
        rfl
      · rw [Machine.output_perform v hcmd, faults_receiveAll,
          Command.filterMap_fault_notices, List.append_assoc]

end

end Buffer

/-! ### A callback -/

namespace Callback

section

variable {μ σ : Type} [Bus μ] (v : Verbosity)

/-- A callback calls the function of its host with each value. -/
theorem receiveAll_eq (o : Callback σ) (ns : List Notice) :
    Sink.receiveAll o ns =
      ⟨(ns.filterMap Notice.value?).foldl o.onPrint o.state, o.onPrint⟩ := by
  induction ns generalizing o with
  | nil => rfl
  | cons n ns ih =>
      rw [Sink.receiveAll_cons, ih]
      cases n with
      | printed x => rfl
      | faulted e => rfl

/-- In the course of a history the function of the host is called with each value that
is printed. -/
theorem output_performAll (cmds : List Command) (m : Machine μ (Callback σ)) :
    (Machine.performAll v cmds m).machine.output =
      ⟨(Machine.chronicle v Command.printed cmds m).foldl m.output.onPrint m.output.state,
        m.output.onPrint⟩ := by
  induction cmds generalizing m with
  | nil => rfl
  | cons cmd cmds ih =>
      rw [Machine.performAll_cons, Outcome.machine_andThen, Outcome.machine_map, ih,
        Machine.chronicle_cons, List.foldl_append]
      by_cases hcmd : cmd = .drain
      · subst hcmd
        rfl
      · rw [Machine.output_perform v hcmd, receiveAll_eq, Command.filterMap_value_notices]

end

end Callback

/-! ### What the three of them log -/

/-- Whether the sink logs nothing. -/
def Sink.Silent (ω : Type) [Sink ω] : Prop :=
  ∀ (o : ω) (n : Notice), Sink.record o n = []

/-- The record that a logger makes of a notice. -/
def Notice.record : Notice → Record
  | printed x => .printed x
  | faulted e => .faulted e

theorem Buffer.record_eq (o : Buffer) (n : Notice) : Sink.record o n = [] := by
  cases n with
  | printed x => rfl
  | faulted e => rfl

theorem Callback.record_eq {σ : Type} (o : Callback σ) (n : Notice) :
    Sink.record o n = [] := by
  cases n with
  | printed x => rfl
  | faulted e => rfl

theorem Logger.record_eq (o : Logger) (n : Notice) : Sink.record o n = [n.record] := by
  cases n with
  | printed x => rfl
  | faulted e => rfl

section

variable {μ : Type} [Bus μ] (v : Verbosity)

/-- A logger logs each printed value once. -/
theorem Logger.infos_performAll (hv : v.admits .info = true) (cmds : List Command)
    (m : Machine μ Logger) :
    Record.ofSeverity .info (Machine.performAll v cmds m).log =
      (Machine.chronicle v Command.printed cmds m).map .printed := by
  have hnotice : ∀ n : Notice,
      Record.ofSeverity .info [n.record] = n.value?.toList.map .printed := by
    intro n
    cases n with
    | printed x => rfl
    | faulted e => rfl
  have hcore : ∀ c : Core μ, Record.ofSeverity .info (c.logged fun n => [n.record]) =
      c.printed.map .printed := by
    intro c
    rw [Core.ofSeverity_info_logged fun _ => rfl, List.map_eq_flatMap]
    rfl
  rw [Machine.ofSeverity_log_performAll v Logger.record_eq (by decide) hv,
    Machine.map_chronicle v _ List.map_nil fun _ _ => List.map_append]
  congr
  funext cmd c
  simp only [hcore, hnotice]
  exact (Command.map_observed List.map_nil (fun _ _ => List.map_append) _ _ cmd c).symm

/-- With a logger each fault that the machine meets is logged twice, and each one that the
host reports is logged once. -/
theorem Logger.errors_performAll (hv : v.admits .error = true) (cmds : List Command)
    (m : Machine μ Logger) :
    Record.ofSeverity .error (Machine.performAll v cmds m).log =
      (cmds.zip (Machine.performAll v cmds m).result).flatMap fun p => p.1.errors p.2 := by
  rw [Machine.ofSeverity_log_performAll v Logger.record_eq (by decide) hv]
  apply Machine.chronicle_eq_flatMap_zip
  intro cmd m
  simp only [Core.ofSeverity_error_logged (f := fun n => [n.record]) fun _ => rfl]
  rw [Machine.observed_faults v _ fun _ => rfl]
  cases cmd <;> rfl

/-- With a sink that logs nothing, each fault that the machine meets is logged once, and
none that the host reports. -/
theorem Machine.errors_performAll_of_silent {ω : Type} [Sink ω] (hω : Sink.Silent ω)
    (hv : v.admits .error = true) (cmds : List Command) (m : Machine μ ω) :
    Record.ofSeverity .error (Machine.performAll v cmds m).log =
      (cmds.zip (Machine.performAll v cmds m).result).flatMap fun p =>
        p.2.faults.map .faulted := by
  rw [Machine.ofSeverity_log_performAll v hω (by decide) hv]
  refine Machine.chronicle_eq_flatMap_zip v _ (g := fun _ r => r.faults.map Record.faulted)
    ?_ cmds m
  intro cmd m
  simp only [Core.ofSeverity_error_logged (f := fun _ => []) fun _ => rfl]
  rw [Machine.observed_faults v _ fun _ => rfl]
  cases cmd with
  | fault e => rfl
  | _ =>
      rw [List.map_eq_flatMap]
      rfl

end

namespace Observers

section

variable {μ σ : Type} [Bus μ] (v : Verbosity) (c : Core μ) (state : σ)
    (onPrint : σ → UInt8 → σ) (cmds : List Command)

/-- **Sinks are interchangeable observers.**  Three machines that differ only in having a
buffer, a callback and a logger go through the same cores and give the same responses,
draining apart.  The values that the buffer hands over and keeps are those that the
function of the host is called with and those that the logger logs.  The buffer keeps
the faults that the host learns of.  Each fault that the machine meets is logged once, and
once more by the logger, which alone logs the faults that the host reports. -/
theorem sinks_observe_alike :
    let buffering : Machine μ Buffer := ⟨c, Buffer.empty⟩
    let calling : Machine μ (Callback σ) := ⟨c, ⟨state, onPrint⟩⟩
    let logging : Machine μ Logger := ⟨c, ⟨⟩⟩
    let buffered := Machine.performAll v cmds buffering
    let called := Machine.performAll v cmds calling
    let logged := Machine.performAll v cmds logging
    let values := Machine.chronicle v Command.printed cmds buffering
    (∀ n,
      (Machine.performAll v (cmds.take n) calling).machine.core =
        (Machine.performAll v (cmds.take n) buffering).machine.core ∧
      (Machine.performAll v (cmds.take n) logging).machine.core =
        (Machine.performAll v (cmds.take n) buffering).machine.core) ∧
    (∀ (n : Nat) (cmd : Command), cmds[n]? = some cmd → cmd ≠ .drain →
      ∃ r, buffered.result[n]? = some r ∧ called.result[n]? = some r ∧
        logged.result[n]? = some r) ∧
    buffered.result.flatMap Response.drained ++
      buffered.machine.output.printed.toList = values ∧
    called.machine.output = ⟨values.foldl onPrint state, onPrint⟩ ∧
    (v.admits .info = true →
      (Record.ofSeverity .info logged.log).map Record.message =
        values.map fun x => Nat.repr x.toNat) ∧
    buffered.machine.output.faults.toList =
      (cmds.zip buffered.result).flatMap (fun p => p.1.reported p.2) ∧
    (v.admits .error = true →
      Record.ofSeverity .error logged.log =
          (cmds.zip logged.result).flatMap (fun p => p.1.errors p.2) ∧
        Record.ofSeverity .error buffered.log =
          (cmds.zip buffered.result).flatMap (fun p => p.2.faults.map .faulted) ∧
        Record.ofSeverity .error called.log =
          (cmds.zip called.result).flatMap fun p => p.2.faults.map .faulted) := by
  intro buffering calling logging buffered called logged values
  have hcalling : ∀ n, (Machine.performAll v (cmds.take n) calling).machine.core =
      (Machine.performAll v (cmds.take n) buffering).machine.core := by
    intro n
    rw [Machine.core_performAll, Machine.core_performAll]
  have hlogging : ∀ n, (Machine.performAll v (cmds.take n) logging).machine.core =
      (Machine.performAll v (cmds.take n) buffering).machine.core := by
    intro n
    rw [Machine.core_performAll, Machine.core_performAll]
  have hcalled : Machine.chronicle v Command.printed cmds calling = values := by
    apply Machine.chronicle_congr
    rfl
  have hlogged : Machine.chronicle v Command.printed cmds logging = values := by
    apply Machine.chronicle_congr
    rfl
  refine ⟨fun n => ⟨hcalling n, hlogging n⟩, ?_, Buffer.printed_performAll v cmds buffering,
    ?_, ?_, ?_, fun hv => ⟨Logger.errors_performAll v hv cmds logging, ?_, ?_⟩⟩
  · intro n cmd hn hcmd
    refine ⟨_, Machine.getElem?_result_performAll v hn buffering, ?_, ?_⟩
    · rw [Machine.getElem?_result_performAll v hn calling]
      exact congrArg some (Machine.result_perform_of_core_eq v v (hcalling n) hcmd)
    · rw [Machine.getElem?_result_performAll v hn logging]
      exact congrArg some (Machine.result_perform_of_core_eq v v (hlogging n) hcmd)
  · rw [← hcalled]
    exact Callback.output_performAll v cmds calling
  · intro hv
    rw [Logger.infos_performAll v hv, hlogged, List.map_map]
    rfl
  · rw [Buffer.faults_performAll]
    exact Machine.chronicle_eq_flatMap_zip v _ (Command.faults_eq_reported v) cmds buffering
  · exact Machine.errors_performAll_of_silent v Buffer.record_eq hv cmds buffering
  · exact Machine.errors_performAll_of_silent v Callback.record_eq hv cmds calling

end

/-- Save 7, print it, and run into a byte that is no opcode. -/
def printing : Core Bank :=
  Core.powerOn (Bank.ofImage [0x04, 7, 0x06, 0xFF])

/-- Drain between two prints, the second a direct one, and report a fault after the one
that the machine meets. -/
def draining : List Command :=
  [.runFor 2, .drain, .print 9, .runUntilHalt 5, .fault ⟨1, 2⟩]

theorem sinks_observe_alike_draining :
    let logged := Machine.performAll (.upTo .trace) draining ⟨printing, Logger.mk⟩
    (∃ r, logged.result[3]? = some r ∧
      (Machine.performAll (.upTo .trace) draining
        ⟨printing, Callback.collecting⟩).result[3]? = some r) ∧
      (Record.ofSeverity .info logged.log).map Record.message =
        [7, 9].map (fun x : UInt8 => Nat.repr x.toNat) ∧
      Record.ofSeverity .error logged.log =
        [.faulted ⟨0xFF, 3⟩, .faulted ⟨0xFF, 3⟩, .faulted ⟨1, 2⟩] := by
  intro logged
  have hvalues : Machine.chronicle (.upTo .trace) Command.printed draining
      ⟨printing, Buffer.empty⟩ = [7, 9] := by
    decide +kernel
  have herrors : (draining.zip logged.result).flatMap (fun p => p.1.errors p.2) =
      [.faulted ⟨0xFF, 3⟩, .faulted ⟨0xFF, 3⟩, .faulted ⟨1, 2⟩] := by
    decide +kernel
  obtain ⟨_, hresults, _, _, hinfos, _, hlogged⟩ :=
    sinks_observe_alike (.upTo .trace) printing #[] Array.push draining
  obtain ⟨r, _, hcalled, hr⟩ := hresults 3 (.runUntilHalt 5) rfl (by decide)
  refine ⟨⟨r, hr, hcalled⟩, ?_, (hlogged (by decide)).1.trans herrors⟩
  rw [← hvalues]
  exact hinfos (by decide)

end Observers
end ByteMachine
