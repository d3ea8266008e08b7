import ByteMachine.Proofs.Trajectory
import Mathlib.Algebra.GroupWithZero.Nat

/-!
# Schedules

A host may drive the machine by single ticks, by bounded runs, by clock runs with a
limit, and it may pause it in between.  A schedule is any sequence of these.
Whatever the schedule, the machine walks along one trajectory, and how far it gets
depends on the sum of the budgets only.

A leg that starts the machine would wake it up after a halt, so a schedule issues
such a leg only where the machine still runs.  Since a pause ends with a start, the
machine is halted between two legs only if it has halted by itself.

**Results.**
* `runFor_add`: two bounded runs in a row are one, with the sum of their budgets.
* `runFor_of_le`, `runUntilHalt_of_le`: once a run has ended in a halt, a larger budget
  changes nothing.
* `amounts_of_admissible`: a schedule ends where as many ticks as its budget end, and
  but for the records of starts, stops and clock runs it logs the same.
* `driving_is_immaterial`: all of this side by side.
-/

namespace ByteMachine
namespace Machine

section

variable {μ ω : Type} [Bus μ] [Sink ω] (v : Verbosity)

/-! ### Bounded runs one after the other -/

theorem log_tickTimes_add (a b : Nat) (m : Machine μ ω) :
    (m.tickTimes v (a + b)).log =
      (m.tickTimes v a).log ++ ((m.after v a).tickTimes v b).log := by
  induction a generalizing m with
  | zero => simp [tickTimes]
  | succ a ih =>
      rw [Nat.succ_add, tickTimes_succ, tickTimes_succ, after_succ]
      simp [ih]

/-- The counts of two bounded runs in a row add up, and a fault in the first one is
the fault of the whole. -/
theorem result_runFor_add (a b : Nat) (m : Machine μ ω) :
    (m.runFor v (a + b)).result =
      (m.runFor v a).result.bind fun x =>
        ((m.after v a).runFor v b).result.map (x + ·) := by
  induction a generalizing m with
  | zero =>
      rw [Nat.zero_add, runFor_zero, after_zero]
      cases (m.runFor v b).result with
      | error e => rfl
      | ok y => simp [Except.bind, Except.map]
  | succ a ih =>
      rw [Nat.succ_add]
      cases hs : m.core.state with
      | halted =>
          rw [runFor_of_halted v _ hs, runFor_of_halted v _ hs, after_of_halted v hs,
            runFor_of_halted v _ hs]
          rfl
      | running =>
          rcases tick_of_running v hs with ⟨hr, _⟩ | ⟨hr, _⟩
          · rw [runFor_succ_of_ok v _ hs hr, runFor_succ_of_ok v _ hs hr, after_succ]
            simp only [Outcome.result_andThen, Outcome.result_map, ih]
            cases ((m.tick v).machine.runFor v a).result with
            | error e => rfl
            | ok x =>
                cases (((m.tick v).machine.after v a).runFor v b).result with
                | error e => rfl
                | ok y => simp [Except.bind, Except.map, Nat.add_right_comm]
          · rw [runFor_succ_of_error v _ hs hr, runFor_succ_of_error v _ hs hr]
            rfl

/-- Two bounded runs in a row are one, with the sum of their budgets. -/
theorem runFor_add (a b : Nat) (m : Machine μ ω) :
    m.runFor v (a + b) =
      (m.runFor v a).andThen fun m' =>
        (m'.runFor v b).map fun r _ =>
          (m.runFor v a).result.bind fun x => r.map (x + ·) := by
  have hr := result_runFor_add v a b m
  have hm : (m.runFor v (a + b)).machine = (m.after v a).after v b := by
    rw [machine_runFor, after_add]
  have hl : (m.runFor v (a + b)).log =
      (m.runFor v a).log ++ ((m.after v a).runFor v b).log := by
    rw [log_runFor, log_runFor, log_runFor, log_tickTimes_add]
  rw [Outcome.andThen, Outcome.map, machine_runFor v a m, machine_runFor v b, ← hr, ← hl,
    ← hm]

theorem result_runUntilHalt {n : Nat} {m : Machine μ ω} {b : Bool}
    (h : (m.runUntilHalt v n).result = .ok b) : (m.after v n).isHalted = b := by
  rw [runUntilHalt, Outcome.result_map, machine_runFor] at h
  cases hr : (m.runFor v n).result with
  | error e =>
      rw [hr] at h
      cases h
  | ok x =>
      rw [hr] at h
      cases h
      rfl

/-- A trajectory that has come to a halt goes no further. -/
theorem after_of_le {n k : Nat} (hnk : n ≤ k) {m : Machine μ ω}
    (h : (m.after v n).core.state = .halted) : m.after v k = m.after v n := by
  obtain ⟨d, rfl⟩ := Nat.exists_eq_add_of_le hnk
  rw [after_add, after_of_halted v h]

/-- Once a run has come to a halt, a larger budget changes nothing. -/
theorem runFor_of_le {n k : Nat} (hnk : n ≤ k) {m : Machine μ ω}
    (h : (m.after v n).core.state = .halted) : m.runFor v k = m.runFor v n := by
  rw [← machine_runFor] at h
  obtain ⟨d, rfl⟩ := Nat.exists_eq_add_of_le hnk
  rw [runFor_add, Outcome.andThen, Outcome.map, runFor_of_halted v d h]
  cases hr : (m.runFor v n).result with
  | error e => simp [Except.bind, ← hr]
  | ok x => simp [Except.bind, Except.map, ← hr]

/-- Once a run has ended in a halt, a larger budget changes nothing. -/
theorem runUntilHalt_of_le {n k : Nat} (hnk : n ≤ k) {m : Machine μ ω}
    (h : (m.runUntilHalt v n).result = .ok true) :
    m.runUntilHalt v k = m.runUntilHalt v n := by
  have hh : (m.after v n).core.state = .halted :=
    (Core.isHalted_eq_true_iff _).1 (result_runUntilHalt v h)
  rw [runUntilHalt, runUntilHalt, runFor_of_le v hnk hh]

end

end Machine

/-! ### Schedules -/

/-- A call that executes instructions as long as the machine runs. -/
inductive Call
  | tick
  | runFor (budget : Nat)
  | runUntilHalt (budget : Nat)
  deriving DecidableEq

namespace Call

def command : Call → Command
  | tick => .tick
  | runFor budget => .runFor budget
  | runUntilHalt budget => .runUntilHalt budget

def budget : Call → Nat
  | tick => 1
  | runFor budget => budget
  | runUntilHalt budget => budget

end Call

/-- One leg of a schedule.  A pause stops the machine, makes calls that a halted
machine ignores, and starts it again. -/
inductive Leg
  | call (c : Call)
  | clock (period limit patience : Nat)
  | pause (calls : List Call)
  deriving DecidableEq

namespace Leg

def commands : Leg → List Command
  | call c => [c.command]
  | clock period limit patience => [.clock ⟨period, some limit⟩ patience]
  | pause calls => .stop :: (calls.map Call.command ++ [.start])

def budget : Leg → Nat
  | call c => c.budget
  | clock _ limit _ => limit
  | pause _ => 0

/-- Whether the leg would wake up a halted machine. -/
def starts : Leg → Bool
  | call _ => false
  | clock _ _ _ => true
  | pause _ => true

end Leg

/-- Whether a record tells what a tick did, and not how the machine was driven. -/
def Record.isOfTick : Record → Bool
  | .started _ => false
  | .stopped _ => false
  | .finished _ => false
  | _ => true

namespace Machine

section

variable {μ ω : Type} (v : Verbosity)

theorem machine_start_of_running {m : Machine μ ω} (h : m.core.state = .running) :
    (m.start v).machine = m := by
  simp only [start, edit, Core.resume, ← h]

theorem machine_start_stop (m : Machine μ ω) :
    ((m.stop v).machine.start v).machine = (m.start v).machine := rfl

end

end Machine

namespace Schedule

def commands (legs : List Leg) : List Command :=
  legs.flatMap Leg.commands

def budget (legs : List Leg) : Nat :=
  (legs.map Leg.budget).sum

section

variable {μ ω : Type} [Bus μ] [Sink ω] (v : Verbosity)

/-- No leg of the schedule wakes up a machine that has halted. -/
def Admissible : List Leg → Machine μ ω → Prop
  | [], _ => True
  | leg :: legs, m =>
      (leg.starts = true → m.core.state = .running) ∧
        Admissible legs (Machine.performAll v leg.commands m).machine

instance decidableAdmissible :
    (legs : List Leg) → (m : Machine μ ω) → Decidable (Admissible v legs m)
  | [], _ => isTrue trivial
  | leg :: legs, m =>
      have := decidableAdmissible legs (Machine.performAll v leg.commands m).machine
      inferInstanceAs (Decidable (_ ∧ _))

/-- The commands take the machine where `n` ticks take it, and log the same about
it on the way. -/
structure Amounts (cmds : List Command) (n : Nat) (m : Machine μ ω) : Prop where
  machine : (Machine.performAll v cmds m).machine = m.after v n
  log :
    (Machine.performAll v cmds m).log.filter Record.isOfTick =
      (m.tickTimes v n).log.filter Record.isOfTick

theorem amounts_nil (m : Machine μ ω) : Amounts v [] 0 m :=
  ⟨rfl, rfl⟩

theorem Amounts.append {v : Verbosity} {before rest : List Command} {a b : Nat}
    {m : Machine μ ω} (hbefore : Amounts v before a m)
    (hrest : Amounts v rest b (m.after v a)) :
    Amounts v (before ++ rest) (a + b) m := by
  constructor
  · rw [Machine.performAll_append, Outcome.machine_andThen, Outcome.machine_map,
      hbefore.machine, hrest.machine, Machine.after_add]
  · rw [Machine.performAll_append, Outcome.log_andThen, Outcome.log_map,
      hbefore.machine, Machine.log_tickTimes_add, List.filter_append,
      List.filter_append, hbefore.log, hrest.log]

theorem perform_call (c : Call) (m : Machine μ ω) :
    (m.perform v c.command).machine = m.after v c.budget ∧
      (m.perform v c.command).log = (m.tickTimes v c.budget).log := by
  cases c with
  | tick => simp [Call.command, Call.budget, Machine.perform, Machine.tickTimes,
      Machine.after]
  | runFor n => exact Machine.runUntil_isHalted v n m
  | runUntilHalt n => exact Machine.runUntil_isHalted v n m

theorem amounts_call (c : Call) (m : Machine μ ω) : Amounts v [c.command] c.budget m := by
  obtain ⟨hm, hl⟩ := perform_call v c m
  constructor
  · exact hm
  · simp [Machine.performAll, hl]

theorem amounts_clock (period patience : Nat) {limit : Nat} {m : Machine μ ω}
    (h : m.core.state = .running) :
    Amounts v [.clock ⟨period, some limit⟩ patience] limit m := by
  constructor
  · change (Clock.run ⟨period, some limit⟩ v patience m).machine = m.after v limit
    rw [Clock.machine_run, Machine.machine_start_of_running v h]
    rfl
  · change ((Clock.run ⟨period, some limit⟩ v patience m).log ++ []).filter _ = _
    rw [List.append_nil, Clock.log_run, List.filter_append, List.filter_append,
      Machine.filter_log_start v fun _ => rfl, Clock.filter_closing fun _ => rfl,
      Machine.machine_start_of_running v h, List.nil_append, List.append_nil]
    rfl

/-- A halted machine ignores calls. -/
theorem performAll_calls_of_halted {m : Machine μ ω} (h : m.core.state = .halted)
    (calls : List Call) :
    (Machine.performAll v (calls.map Call.command) m).machine = m ∧
      (Machine.performAll v (calls.map Call.command) m).log = [] := by
  induction calls with
  | nil => exact ⟨rfl, rfl⟩
  | cons c calls ih =>
      obtain ⟨hm, hl⟩ := perform_call v c m
      rw [Machine.after_of_halted v h] at hm
      rw [Machine.tickTimes_of_halted v h] at hl
      rw [List.map_cons, Machine.performAll_cons]
      simp [hm, hl, ih]

theorem amounts_pause (calls : List Call) {m : Machine μ ω}
    (h : m.core.state = .running) :
    Amounts v (.stop :: (calls.map Call.command ++ [.start])) 0 m := by
  obtain ⟨hm, hl⟩ := performAll_calls_of_halted v (m := (m.stop v).machine) rfl calls
  constructor
  · simp only [Machine.performAll_cons, Machine.performAll_append, Machine.performAll_nil,
      Machine.perform, Outcome.machine_andThen, Outcome.machine_map, hm]
    rw [Machine.machine_start_stop]
    exact Machine.machine_start_of_running v h
  · simp only [Machine.performAll_cons, Machine.performAll_append, Machine.performAll_nil,
      Machine.perform, Outcome.log_andThen, Outcome.log_map, Outcome.machine_map, hm, hl,
      List.filter_append, Machine.filter_log_start v (p := Record.isOfTick) fun _ => rfl,
      Machine.filter_log_stop v (p := Record.isOfTick) fun _ => rfl]
    rfl

theorem amounts_leg (leg : Leg) {m : Machine μ ω}
    (h : leg.starts = true → m.core.state = .running) :
    Amounts v leg.commands leg.budget m := by
  cases leg with
  | call c => exact amounts_call v c m
  | clock period limit patience => exact amounts_clock v period patience (h rfl)
  | pause calls => exact amounts_pause v calls (h rfl)

theorem amounts_of_admissible (legs : List Leg) {m : Machine μ ω}
    (h : Admissible v legs m) : Amounts v (commands legs) (budget legs) m := by
  induction legs generalizing m with
  | nil => exact amounts_nil v m
  | cons leg legs ih =>
      obtain ⟨hstart, hrest⟩ := h
      have hleg := amounts_leg v leg hstart
      rw [hleg.machine] at hrest
      exact hleg.append (ih hrest)

/-- However a machine is driven, the ticks that it is given in all decide where it
ends.  Of the bounded runs more can be said: two in a row are one, and once one has
ended in a halt, a larger budget gives the same. -/
theorem driving_is_immaterial (m : Machine μ ω) :
    (∀ legs : List Leg, Admissible v legs m →
      let driven := Machine.performAll v (commands legs) m
      let ticked := Machine.performAll v (List.replicate (budget legs) .tick) m
      driven.machine = ticked.machine ∧
        driven.log.filter Record.isOfTick = ticked.log.filter Record.isOfTick) ∧
    (∀ a b : Nat,
      m.runFor v (a + b) =
        (m.runFor v a).andThen fun m' =>
          (m'.runFor v b).map fun r _ =>
            (m.runFor v a).result.bind fun x => r.map (x + ·)) ∧
    (∀ n k : Nat, n ≤ k → (m.runUntilHalt v n).result = .ok true →
      m.runUntilHalt v k = m.runUntilHalt v n) := by
  refine ⟨?_, fun a b => Machine.runFor_add v a b m,
    fun n k hnk h => Machine.runUntilHalt_of_le v hnk h⟩
  intro legs h
  have hlegs := amounts_of_admissible v legs h
  simp only [Machine.performAll_replicate_tick, Outcome.machine_map, Outcome.log_map]
  exact ⟨hlegs.machine, hlegs.log⟩

end

/-- A program that prints 5 and halts. -/
def brief : Machine Bank Buffer :=
  Machine.powerOn (Bus.replay Bank.zero [(0, 0x04), (1, 5), (2, 0x06)]) Buffer.empty

theorem driving_is_immaterial_brief :
    let legs : List Leg :=
      [.call .tick, .pause [.tick, .runFor 3], .clock 1000 1 0, .call (.runUntilHalt 4),
        .call .tick]
    Admissible .off legs brief ∧
      (Machine.performAll .off (commands legs) brief).machine =
        (Machine.performAll .off (List.replicate 7 .tick) brief).machine ∧
      (brief.runUntilHalt .off 3).result = .ok true ∧
      brief.runUntilHalt .off 9 = brief.runUntilHalt .off 3 := by
  intro legs
  have hlegs : Admissible .off legs brief := by
    decide +kernel
  have hhalt : (brief.runUntilHalt .off 3).result = .ok true := by
    rfl
  obtain ⟨hdrive, _, hlarger⟩ := driving_is_immaterial .off brief
  exact ⟨hlegs, (hdrive legs hlegs).1, hhalt, hlarger 3 9 (by decide) hhalt⟩

end Schedule
end ByteMachine
