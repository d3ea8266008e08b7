import ByteMachine.Proofs.Trajectory

/-!
# Machines in lockstep

Two machines, with memories and sinks of any two kinds, may be related in such a way
that a tick returns the same on both and keeps the relation.  A run ticks and stops for
what its ticks return and for a halt, and so the runs of both machines return the same
and keep the relation too.

**Results.**
* `Lockstep.after`: the relation holds along the trajectories.
* `Lockstep.result_runFor`: a bounded run counts the same instructions on both machines.
* `Lockstep.perform`: every command that executes instructions returns the same on both
  machines and keeps the relation.
-/

namespace ByteMachine

/-- Whether a command executes instructions. -/
def Command.executes : Command → Bool
  | tick | runFor _ | runUntilHalt _ | clock _ _ => true
  | _ => false

namespace Clock

/-- The report of a clock depends on the count of the run and on whether it halted. -/
theorem result_conclude_congr {μ μ' ω ω' : Type} (k : Clock) (v v' : Verbosity)
    {o : Outcome (Except DecodeFault Nat) μ ω} {o' : Outcome (Except DecodeFault Nat) μ' ω'}
    (hr : o.result = o'.result) (hh : o.machine.isHalted = o'.machine.isHalted) :
    (k.conclude v o).result = (k.conclude v' o').result := by
  unfold conclude
  rw [← hr, ← hh]
  cases o.result with
  | error e => rfl
  | ok n =>
      dsimp only
      split <;> rfl

end Clock

namespace Machine

section

variable {μ μ' ω ω' : Type} [Bus μ] [Bus μ'] [Sink ω] [Sink ω']

/-- A relation that ticks and starts keep, and under which the run states agree and
ticks return the same. -/
structure Lockstep (v v' : Verbosity) (R : Machine μ ω → Machine μ' ω' → Prop) :
    Prop where
  state {m m'} : R m m' → m.core.state = m'.core.state
  result {m m'} : R m m' → (m.tick v).result = (m'.tick v').result
  tick {m m'} : R m m' → R (m.tick v).machine (m'.tick v').machine
  start {m m'} : R m m' → R (m.start v).machine (m'.start v').machine

namespace Lockstep

variable {v v' : Verbosity} {R : Machine μ ω → Machine μ' ω' → Prop}
    {m : Machine μ ω} {m' : Machine μ' ω'} (hR : Lockstep v v' R)
include hR

theorem isHalted (h : R m m') : m.isHalted = m'.isHalted := by
  unfold Machine.isHalted Core.isHalted
  rw [hR.state h]

/-- The relation holds along the trajectories. -/
theorem after (h : R m m') (n : Nat) : R (m.after v n) (m'.after v' n) := by
  induction n generalizing m m' with
  | zero => exact h
  | succ n ih => exact ih (hR.tick h)

/-- A bounded run counts the same instructions on both machines. -/
theorem result_runFor (h : R m m') (n : Nat) :
    (m.runFor v n).result = (m'.runFor v' n).result := by
  induction n generalizing m m' with
  | zero => rw [runFor_zero, runFor_zero]
  | succ n ih =>
      have hstate := hR.state h
      have hresult := hR.result h
      cases hs : m.core.state with
      | halted =>
          rw [hs] at hstate
          rw [runFor_of_halted v _ hs, runFor_of_halted v' _ hstate.symm]
      | running =>
          rw [hs] at hstate
          rcases tick_of_running v hs with ⟨hr, _⟩ | ⟨hr, _⟩
          · rw [hr] at hresult
            rw [runFor_succ_of_ok v n hs hr,
              runFor_succ_of_ok v' n hstate.symm hresult.symm]
            simp only [Outcome.result_andThen, Outcome.result_map, ih (hR.tick h)]
          · rw [hr] at hresult
            rw [runFor_succ_of_error v n hs hr,
              runFor_succ_of_error v' n hstate.symm hresult.symm]

theorem runFor (h : R m m') (n : Nat) :
    R (m.runFor v n).machine (m'.runFor v' n).machine := by
  rw [machine_runFor, machine_runFor]
  exact hR.after h n

/-- Every command that executes instructions returns the same on both machines and keeps
the relation. -/
theorem perform (h : R m m') {cmd : Command} (hcmd : cmd.executes = true) :
    (m.perform v cmd).result = (m'.perform v' cmd).result ∧
      R (m.perform v cmd).machine (m'.perform v' cmd).machine := by
  cases cmd with
  | tick =>
      exact ⟨congrArg (Response.ofExcept fun _ => .done) (hR.result h), hR.tick h⟩
  | runFor budget =>
      exact ⟨congrArg (Response.ofExcept .count) (hR.result_runFor h budget),
        hR.runFor h budget⟩
  | runUntilHalt budget =>
      have hmachine := hR.runFor h budget
      refine ⟨?_, hmachine⟩
      change Response.ofExcept .halted ((m.runFor v budget).result.map fun _ =>
          (m.runFor v budget).machine.isHalted) =
        Response.ofExcept .halted ((m'.runFor v' budget).result.map fun _ =>
          (m'.runFor v' budget).machine.isHalted)
      rw [hR.result_runFor h budget, hR.isHalted hmachine]
  | clock k patience =>
      have hstart := hR.start h
      have hmachine := hR.runFor hstart (k.limit.getD patience)
      have hreport :
          (k.conclude v
            ((m.start v).andThen (Machine.runFor v (k.limit.getD patience)))).result =
          (k.conclude v'
            ((m'.start v').andThen (Machine.runFor v' (k.limit.getD patience)))).result :=
        k.result_conclude_congr v v' (hR.result_runFor hstart _) (hR.isHalted hmachine)
      constructor
      · change Response.ofClock (k.run v patience m).result =
          Response.ofClock (k.run v' patience m').result
        rw [Clock.run_eq_conclude, Clock.run_eq_conclude, hreport]
      · change R (k.run v patience m).machine (k.run v' patience m').machine
        rw [Clock.run_eq_conclude, Clock.run_eq_conclude, Clock.machine_conclude,
          Clock.machine_conclude]
        exact hmachine
  | _ => cases hcmd

end Lockstep

end

end Machine
end ByteMachine
