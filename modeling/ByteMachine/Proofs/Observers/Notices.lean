import ByteMachine.Proofs.History.Basic
import ByteMachine.Proofs.Lockstep

/-!
# What a command tells the sink

A command tells the sink what its ticks tell it, one after the other, or what the host
tells it directly.  The core alone decides what that is.  So machines that differ in
their sinks only go through the same cores and give the same responses, draining apart,
and each sink is told the same in the same order.

**Results.**
* `result_perform_of_core_eq`: the response to a command does not depend on the sink,
  unless the command drains it.
* `output_perform`: the sink receives the notices of the command.
* `map_observed`: what is listed tick by tick may be rearranged tick by tick.
* `observed_faults`: a command meets one fault at most, and it is the one in the response.
-/

namespace ByteMachine

namespace Core

section

variable {μ : Type} [Bus μ]

/-- The value that the next tick prints, if it prints one. -/
def printed (c : Core μ) : List UInt8 :=
  match c.outlook with
  | .execute .prn => [c.value]
  | _ => []

/-- The fault that the next tick meets, if it meets one. -/
def faults (c : Core μ) : List DecodeFault :=
  match c.outlook with
  | .fault => [c.faultHere]
  | _ => []

variable {c : Core μ}

theorem faults_of_verdict_ok {u : Unit} (h : c.verdict = .ok u) : c.faults = [] := by
  have ho := verdict_eq_ok_iff.1 h
  unfold faults
  split
  · contradiction
  · rfl

theorem faults_of_verdict_error {e : DecodeFault} (h : c.verdict = .error e) :
    c.faults = [e] := by
  obtain ⟨ho, rfl⟩ := verdict_eq_error_iff.1 h
  simp only [faults, ho]

theorem faults_of_idle (h : c.outlook = .idle) : c.faults = [] := by
  simp only [faults, h]

theorem filterMap_value_notices : c.notices.filterMap Notice.value? = c.printed := by
  unfold notices printed
  cases c.outlook with
  | idle => rfl
  | fault => rfl
  | execute op => cases op <;> rfl

theorem filterMap_fault_notices : c.notices.filterMap Notice.fault? = c.faults := by
  unfold notices faults
  cases c.outlook with
  | idle => rfl
  | fault => rfl
  | execute op => cases op <;> rfl

/-- What is listed tick by tick may be rearranged tick by tick. -/
theorem map_gather {α β : Type} {F : List α → List β} (hnil : F [] = [])
    (happend : ∀ xs ys, F (xs ++ ys) = F xs ++ F ys) (f : Core μ → List α) (n : Nat)
    (c : Core μ) : F (c.gather f n) = c.gather (fun c => F (f c)) n := by
  induction n generalizing c with
  | zero => exact hnil
  | succ n ih => rw [gather_succ, gather_succ, happend, ih]

theorem gather_of_halted {α : Type} {f : Core μ → List α} (h : c.state = .halted)
    (hf : f c = []) (n : Nat) : c.gather f n = [] := by
  induction n with
  | zero => rfl
  | succ n ih => rw [gather_succ, hf, next_of_idle (outlook_eq_idle_iff.2 h), ih, List.append_nil]

end

end Core

namespace Command

section

variable {μ α : Type} [Bus μ]

/-- What `f` lists of each tick of a command, or `g` of what the host tells the sink. -/
def observed (f : Core μ → List α) (g : Notice → List α) (cmd : Command) (c : Core μ) :
    List α :=
  match cmd with
  | tick => f c
  | runFor budget => c.gather f budget
  | runUntilHalt budget => c.gather f budget
  | clock k patience => c.resume.gather f (k.limit.getD patience)
  | print x => g (.printed x)
  | fault e => g (.faulted e)
  | _ => []

/-- What a command tells the sink. -/
def notices : Command → Core μ → List Notice :=
  observed Core.notices fun n => [n]

/-- The values that a command prints: one for each print instruction that is executed,
and one for each direct print. -/
def printed : Command → Core μ → List UInt8 :=
  observed Core.printed fun n => n.value?.toList

/-- The faults that a command meets, and those that the host reports directly. -/
def faults : Command → Core μ → List DecodeFault :=
  observed Core.faults fun n => n.fault?.toList

/-- What is listed tick by tick may be rearranged tick by tick. -/
theorem map_observed {β : Type} {F : List α → List β} (hnil : F [] = [])
    (happend : ∀ xs ys, F (xs ++ ys) = F xs ++ F ys) (f : Core μ → List α)
    (g : Notice → List α) (cmd : Command) (c : Core μ) :
    F (cmd.observed f g c) = cmd.observed (fun c => F (f c)) (fun n => F (g n)) c := by
  cases cmd with
  | tick => rfl
  | runFor budget => exact Core.map_gather hnil happend f budget c
  | runUntilHalt budget => exact Core.map_gather hnil happend f budget c
  | clock k patience => exact Core.map_gather hnil happend f _ c.resume
  | print x => rfl
  | fault e => rfl
  | _ => exact hnil

theorem filterMap_value_notices (cmd : Command) (c : Core μ) :
    (cmd.notices c).filterMap Notice.value? = cmd.printed c := by
  unfold notices printed
  rw [map_observed List.filterMap_nil fun _ _ => List.filterMap_append]
  simp only [Core.filterMap_value_notices]
  congr

theorem filterMap_fault_notices (cmd : Command) (c : Core μ) :
    (cmd.notices c).filterMap Notice.fault? = cmd.faults c := by
  unfold notices faults
  rw [map_observed List.filterMap_nil fun _ _ => List.filterMap_append]
  simp only [Core.filterMap_fault_notices]
  congr

end

end Command

namespace Response

/-- The fault that stopped an operation, if one did. -/
def faults : Response → List DecodeFault
  | fault e => [e]
  | _ => []

/-- The printed values that were drained. -/
def drained : Response → List UInt8
  | printed (some xs) => xs
  | _ => []

end Response

namespace Machine

section

variable {μ ω : Type} [Bus μ] [Sink ω] (v : Verbosity)

/-- A bounded run meets one fault at most, and it is the one that it returns. -/
theorem gather_faults {α : Type} (h : DecodeFault → List α) (n : Nat) (m : Machine μ ω) :
    m.core.gather (fun c => c.faults.flatMap h) n =
      match (m.runFor v n).result with
      | .error e => h e
      | .ok _ => [] := by
  induction n generalizing m with
  | zero => rw [runFor_zero, Core.gather_zero]
  | succ n ih =>
      cases hs : m.core.state with
      | halted =>
          have hf := Core.faults_of_idle (Core.outlook_eq_idle_iff.2 hs)
          rw [runFor_of_halted v _ hs, Core.gather_of_halted hs (by rw [hf]; rfl)]
      | running =>
          rw [Core.gather_succ]
          rcases tick_of_running v hs with ⟨hr, _⟩ | ⟨hr, hh⟩
          · have hverdict := (result_tick v m).symm.trans hr
            rw [runFor_succ_of_ok v n hs hr, Core.faults_of_verdict_ok hverdict,
              ← core_tick v m, ih, Outcome.result_andThen, Outcome.result_map]
            cases ((m.tick v).machine.runFor v n).result <;> rfl
          · have hverdict := (result_tick v m).symm.trans hr
            rw [core_tick] at hh
            have hf := Core.faults_of_idle (Core.outlook_eq_idle_iff.2 hh)
            rw [runFor_succ_of_error v n hs hr, Core.faults_of_verdict_error hverdict,
              Core.gather_of_halted hh (by rw [hf]; rfl)]
            simp

/-- A command meets one fault at most, and it is the one in the response. -/
theorem observed_faults {α : Type} (h : DecodeFault → List α) {g : Notice → List α}
    (hg : ∀ x, g (.printed x) = []) (cmd : Command) (m : Machine μ ω) :
    cmd.observed (fun c => c.faults.flatMap h) g m.core =
      match cmd with
      | .fault e => g (.faulted e)
      | _ => (m.perform v cmd).result.faults.flatMap h := by
  cases cmd with
  | tick =>
      change m.core.faults.flatMap h =
        (Response.ofExcept (fun _ => .done) (m.tick v).result).faults.flatMap h
      rw [result_tick]
      cases hv : m.core.verdict with
      | error e => rw [Core.faults_of_verdict_error hv]; rfl
      | ok u => rw [Core.faults_of_verdict_ok hv]; rfl
  | runFor budget =>
      change m.core.gather (fun c => c.faults.flatMap h) budget =
        (Response.ofExcept .count (m.runFor v budget).result).faults.flatMap h
      rw [gather_faults v h]
      cases (m.runFor v budget).result with
      | error e => simp [Response.ofExcept, Response.faults]
      | ok n => rfl
  | runUntilHalt budget =>
      change m.core.gather (fun c => c.faults.flatMap h) budget = (Response.ofExcept .halted
        ((m.runFor v budget).result.map fun _ =>
          (m.runFor v budget).machine.isHalted)).faults.flatMap h
      rw [gather_faults v h]
      cases (m.runFor v budget).result with
      | error e => simp [Except.map, Response.ofExcept, Response.faults]
      | ok n => rfl
  | clock k patience =>
      change (m.start v).machine.core.gather (fun c => c.faults.flatMap h)
          (k.limit.getD patience) =
        (Response.ofClock (k.run v patience m).result).faults.flatMap h
      rw [gather_faults v h, Clock.run_eq_conclude]
      unfold Clock.conclude
      rw [Outcome.result_andThen]
      cases ((m.start v).machine.runFor v (k.limit.getD patience)).result with
      | error e => simp [Response.ofClock, Response.ofExcept, Response.faults]
      | ok n =>
          dsimp only
          split <;> rfl
  | print x => exact hg x
  | _ => rfl

/-- The sink receives the notices of the command. -/
theorem output_perform {cmd : Command} (h : cmd ≠ .drain) (m : Machine μ ω) :
    (m.perform v cmd).machine.output = Sink.receiveAll m.output (cmd.notices m.core) := by
  cases cmd with
  | tick => exact output_tick v m
  | runFor budget =>
      change (m.runFor v budget).machine.output = _
      rw [machine_runFor, output_after]
      rfl
  | runUntilHalt budget =>
      change (m.runFor v budget).machine.output = _
      rw [machine_runFor, output_after]
      rfl
  | clock k patience =>
      change (k.run v patience m).machine.output = _
      rw [Clock.machine_run, output_after]
      rfl
  | drain => exact absurd rfl h
  | _ => rfl

/-- Only a drain hands over printed values. -/
theorem drained_perform {cmd : Command} (h : cmd ≠ .drain) (m : Machine μ ω) :
    (m.perform v cmd).result.drained = [] := by
  cases cmd with
  | tick =>
      change (Response.ofExcept (fun _ => .done) (m.tick v).result).drained = []
      cases (m.tick v).result <;> rfl
  | runFor budget =>
      change (Response.ofExcept .count (m.runFor v budget).result).drained = []
      cases (m.runFor v budget).result <;> rfl
  | runUntilHalt budget =>
      change (Response.ofExcept .halted (m.runUntilHalt v budget).result).drained = []
      cases (m.runUntilHalt v budget).result <;> rfl
  | clock k patience =>
      change (Response.ofClock (k.run v patience m).result).drained = []
      rcases (k.run v patience m).result with _ | (e | r) <;> rfl
  | drain => exact absurd rfl h
  | _ => rfl

variable {ω' : Type} [Sink ω'] (v' : Verbosity)

/-- Machines that differ in their sinks only are in lockstep. -/
theorem lockstep_of_core_eq :
    Lockstep v v' fun (m : Machine μ ω) (m' : Machine μ ω') => m.core = m'.core where
  state h := congrArg Core.state h
  result h := by rw [result_tick, result_tick, h]
  tick h := by rw [core_tick, core_tick, h]
  start h := congrArg Core.resume h

/-- The response to a command does not depend on the sink, unless the command drains it. -/
theorem result_perform_of_core_eq {m : Machine μ ω} {m' : Machine μ ω'}
    (h : m.core = m'.core) {cmd : Command} (hcmd : cmd ≠ .drain) :
    (m.perform v cmd).result = (m'.perform v' cmd).result := by
  cases he : cmd.executes with
  | true => exact ((lockstep_of_core_eq v v').perform h he).1
  | false =>
      cases cmd with
      | drain => exact absurd rfl hcmd
      | read a => simp only [perform, answer, h]
      | register i => simp only [perform, answer, h]
      | listing start count => simp only [perform, answer, h]
      | dump => simp only [perform, answer, h]
      | tick => cases he
      | runFor budget => cases he
      | runUntilHalt budget => cases he
      | clock k patience => cases he
      | _ => rfl

end

end Machine
end ByteMachine
