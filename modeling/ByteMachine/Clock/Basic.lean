/-!
# The clock

A clock ticks the machine once per period until it halts, or until a limit on
the number of ticks is reached.  The period is a pause between two ticks, and no
result depends on it.
-/

namespace ByteMachine

/-- The settings of a clock. -/
structure Clock where
  /-- The pause after a tick, in microseconds. -/
  period : Nat
  /-- The number of ticks after which a run ends, if there is one. -/
  limit : Option Nat
  deriving DecidableEq, Repr

namespace Clock

/-- The period of a clock that was not given one: a millisecond. -/
def standardPeriod : Nat := 1000

def standard : Clock :=
  ⟨standardPeriod, none⟩

def withPeriod (k : Clock) (period : Nat) : Clock :=
  { k with period := period }

def withLimit (k : Clock) (limit : Nat) : Clock :=
  { k with limit := some limit }

end Clock
end ByteMachine
