import ByteMachine.Clock.Basic
import ByteMachine.Machine.Run

/-!
# Clock runs

A clock run starts the machine and ticks it until the clock is done with it:
the machine is halted, or the ticks since the start have reached the limit.  A
run with a limit always comes to its end, because each tick that does not end it
counts one instruction.  A run without a limit need not end, so it is given up
after a stated number of ticks.

**Results.**
* `isDone_of_halted`: a clock is done with a halted machine.
-/

namespace ByteMachine
namespace Clock

section

variable {μ ω : Type}

/-- Whether the limit is reached, for a run that began at `since` ticks. -/
def limitReached (k : Clock) (since : Nat) (m : Machine μ ω) : Bool :=
  match k.limit with
  | some limit => decide (limit ≤ m.core.ticks - since)
  | none => false

/-- Whether a run that began at `since` ticks is over. -/
def isDone (k : Clock) (since : Nat) (m : Machine μ ω) : Bool :=
  m.isHalted || k.limitReached since m

def reportSince (since : Nat) (m : Machine μ ω) : Report :=
  ⟨m.core.ticks - since, m.isHalted⟩

theorem isDone_of_halted (k : Clock) (since : Nat) {m : Machine μ ω}
    (h : m.core.state = .halted) : k.isDone since m = true := by
  have h' : m.isHalted = true := m.core.isHalted_eq_true_iff.2 h
  simp [isDone, h']

@[simp]
theorem isDone_of_limit_eq_none {k : Clock} (since : Nat) (m : Machine μ ω)
    (h : k.limit = none) : k.isDone since m = m.isHalted := by
  simp [isDone, limitReached, h]

variable [Bus μ] [Sink ω]

/-- Start the machine and tick it until the clock is done with it.  A run
without a limit that is not over after `patience` ticks has no result. -/
def run (k : Clock) (v : Verbosity) (patience : Nat) (m : Machine μ ω) :
    Outcome (Option (Except DecodeFault Report)) μ ω :=
  let since := m.core.ticks
  let o := (m.start v).andThen
    (Machine.runUntil v (k.isDone since) (k.limit.getD patience))
  match o.result with
  | .error e => ⟨some (.error e), o.machine, o.log⟩
  | .ok _ =>
      if k.isDone since o.machine then
        let r := reportSince since o.machine
        ⟨some (.ok r), o.machine, o.log ++ v.note (.finished r)⟩
      else
        ⟨none, o.machine, o.log⟩

end

end Clock
end ByteMachine
