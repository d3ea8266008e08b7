import ByteMachine.Sink.Basic

/-!
# A sink that writes to the log

**Results.**
* `print_eq`: a printed value becomes a record of its own.
* `fault_eq`: a fault is logged by the sink too, beside the record that the
  machine makes of it.
-/

namespace ByteMachine

/-- A sink without a state, which turns whatever it receives into a log
record. -/
structure Logger where
  deriving DecidableEq

namespace Logger

instance : Sink Logger where
  print o x := (o, [.printed x])
  fault o e := (o, [.faulted e])

section

variable (o : Logger)

@[simp]
theorem print_eq (x : UInt8) : Sink.print o x = (o, [.printed x]) := rfl

@[simp]
theorem fault_eq (e : DecodeFault) : Sink.fault o e = (o, [.faulted e]) := rfl

@[simp]
theorem drain_eq : Sink.drain o = (none, o) := rfl

end

end Logger
end ByteMachine
