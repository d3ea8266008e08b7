/-!
# Severities and verbosities

Every log record has one of five severities.  A verbosity says which records
are kept: none, or those that are at least as severe as a given severity.

**Results.**
* `admits_off`: at the lowest verbosity nothing is kept.
* `admits_upTo_trace`: at the highest verbosity everything is kept.
* `admits_of_rank_le`: with a record, a verbosity keeps all that are at least as severe.
-/

namespace ByteMachine

/-- The severity of a log record, most severe first. -/
inductive Severity
  | error
  | warn
  | info
  | debug
  | trace
  deriving DecidableEq, Repr

namespace Severity

/-- The place of a severity, counted from the most severe. -/
def rank : Severity → Nat
  | error => 0
  | warn => 1
  | info => 2
  | debug => 3
  | trace => 4

def name : Severity → String
  | error => "ERROR"
  | warn => "WARN"
  | info => "INFO"
  | debug => "DEBUG"
  | trace => "TRACE"

theorem rank_le_trace (s : Severity) : s.rank ≤ trace.rank := by
  cases s <;> decide

end Severity

/-- Which log records are kept. -/
inductive Verbosity
  | off
  /-- Those that are at least as severe as `least`. -/
  | upTo (least : Severity)
  deriving DecidableEq, Repr

namespace Verbosity

/-- Whether records of a severity are kept. -/
def admits : Verbosity → Severity → Bool
  | off, _ => false
  | upTo least, s => decide (s.rank ≤ least.rank)

@[simp]
theorem admits_off (s : Severity) : off.admits s = false := rfl

@[simp]
theorem admits_upTo {least s : Severity} :
    (upTo least).admits s = true ↔ s.rank ≤ least.rank := by
  simp [admits]

theorem admits_upTo_trace (s : Severity) : (upTo .trace).admits s = true :=
  admits_upTo.2 s.rank_le_trace

theorem admits_of_rank_le {v : Verbosity} {s t : Severity} (ht : v.admits t = true)
    (hst : s.rank ≤ t.rank) : v.admits s = true := by
  cases v with
  | off => cases ht
  | upTo least => exact admits_upTo.2 (Nat.le_trans hst (admits_upTo.1 ht))

end Verbosity
end ByteMachine
