/-!
# The report of a clock run

**Results.**
* `text_eq`: the text of a report tells both of its fields.
-/

namespace ByteMachine
namespace Clock

/-- What a finished clock run has to say about itself. -/
structure Report where
  /-- The number of instructions executed during the run. -/
  ticks : Nat
  halted : Bool
  deriving DecidableEq, Repr

/-- The text of a report, a record with two named fields between braces. -/
def Report.text (r : Report) : String :=
  "ClockReport \x7b ticks: " ++ Nat.repr r.ticks ++ ", halted: " ++
    (if r.halted then "true" else "false") ++ " \x7d"

theorem Report.text_eq (r : Report) :
    r.text = "ClockReport \x7b ticks: " ++ toString r.ticks ++ ", halted: " ++
      toString r.halted ++ " \x7d" := by
  obtain ⟨ticks, halted⟩ := r
  cases halted with
  | false => rfl
  | true => rfl

end Clock
end ByteMachine
