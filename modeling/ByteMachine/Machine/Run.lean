import ByteMachine.Machine.Tick

/-!
# Runs

A run ticks the machine until a condition on the machine holds, a fault stops
it, or a given number of ticks has been taken.  The condition is tested before
each tick.  The loop collects the log as it goes, in an array; the equations
below give it as the concatenation of the logs of the ticks.

**Results.**
* `runUntil_of_stop`, `runUntil_succ`: a run is nothing where its condition
  holds, and otherwise one tick followed by the rest of the run, unless the
  tick faults.
* `runFor_of_halted`: a bounded run of a halted machine changes nothing.
-/

namespace ByteMachine
namespace Machine

section

variable {μ ω : Type} [Bus μ] [Sink ω]

/-- The loop of a run, with the log collected so far. -/
def runLoop (v : Verbosity) (stop : Machine μ ω → Bool) :
    Nat → Machine μ ω → Array Record → Outcome (Except DecodeFault Unit) μ ω
  | 0, m, log => ⟨.ok (), m, log.toList⟩
  | budget + 1, m, log =>
      if stop m then
        ⟨.ok (), m, log.toList⟩
      else
        let o := m.tick v
        match o.result with
        | .ok _ => runLoop v stop budget o.machine (log ++ o.log)
        | .error e => ⟨.error e, o.machine, (log ++ o.log).toList⟩

/-- Tick until `stop` holds, but no more than `budget` times. -/
def runUntil (v : Verbosity) (stop : Machine μ ω → Bool) (budget : Nat)
    (m : Machine μ ω) : Outcome (Except DecodeFault Unit) μ ω :=
  runLoop v stop budget m #[]

/-- Execute up to `budget` instructions, and return how many were executed. -/
def runFor (v : Verbosity) (budget : Nat) (m : Machine μ ω) :
    Outcome (Except DecodeFault Nat) μ ω :=
  (m.runUntil v isHalted budget).map fun r m' =>
    r.map fun _ => m'.core.ticks - m.core.ticks

/-- Execute up to `budget` instructions, and return whether the machine is
halted afterwards. -/
def runUntilHalt (v : Verbosity) (budget : Nat) (m : Machine μ ω) :
    Outcome (Except DecodeFault Bool) μ ω :=
  (m.runFor v budget).map fun r m' => r.map fun _ => m'.isHalted

section

variable (v : Verbosity) (stop : Machine μ ω → Bool)

/-- A loop that has to go on takes one tick and collects its log. -/
theorem runLoop_succ (budget : Nat) {m : Machine μ ω} (log : Array Record)
    (h : stop m = false) {u : Unit} (hr : (m.tick v).result = .ok u) :
    runLoop v stop (budget + 1) m log =
      runLoop v stop budget (m.tick v).machine (log ++ (m.tick v).log) := by
  simp [runLoop, h, hr]

/-- The records collected before a loop stand at the head of its log. -/
theorem runLoop_eq :
    ∀ (budget : Nat) (m : Machine μ ω) (log : Array Record),
      runLoop v stop budget m log =
        ⟨(runUntil v stop budget m).result, (runUntil v stop budget m).machine,
          log.toList ++ (runUntil v stop budget m).log⟩
  | 0, m, log => by
      simp [runUntil, runLoop]
  | budget + 1, m, log => by
      rcases hs : stop m with _ | _
      · rcases hr : (m.tick v).result with e | u
        · simp [runUntil, runLoop, hs, hr]
        · have hu := runLoop_succ v stop budget #[] hs hr
          rw [runLoop_succ v stop budget log hs hr, runUntil, hu,
            runLoop_eq budget, runLoop_eq budget]
          simp
      · simp [runUntil, runLoop, hs]

@[simp]
theorem runUntil_zero (m : Machine μ ω) :
    runUntil v stop 0 m = ⟨.ok (), m, []⟩ := rfl

theorem runUntil_of_stop (budget : Nat) {m : Machine μ ω} (h : stop m = true) :
    runUntil v stop budget m = ⟨.ok (), m, []⟩ := by
  cases budget with
  | zero => rfl
  | succ n => simp [runUntil, runLoop, h]

theorem runUntil_succ (budget : Nat) {m : Machine μ ω} (h : stop m = false) :
    runUntil v stop (budget + 1) m =
      (m.tick v).unlessFault (runUntil v stop budget) := by
  rcases hr : (m.tick v).result with e | u
  · rw [Outcome.unlessFault_of_error hr]
    simp [runUntil, runLoop, h, hr]
  · rw [Outcome.unlessFault_of_ok hr, runUntil,
      runLoop_succ v stop budget #[] h hr, runLoop_eq]
    simp [Outcome.andThen]

theorem runFor_of_halted (budget : Nat) {m : Machine μ ω}
    (h : m.core.state = .halted) : runFor v budget m = ⟨.ok 0, m, []⟩ := by
  have h' : m.isHalted = true := m.core.isHalted_eq_true_iff.2 h
  simp [runFor, runUntil_of_stop v isHalted budget h', Outcome.map, Except.map]

end

end

end Machine
end ByteMachine
