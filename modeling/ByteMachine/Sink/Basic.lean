import ByteMachine.Log.Record

/-!
# Sinks

The machine shows nothing by itself.  A printed value and a decode fault go to
a sink, and what becomes of them is up to the sink.  Besides its new state a
sink returns the records that it hands to the log, which keeps those that its
verbosity admits.
-/

namespace ByteMachine

/-- A receiver of printed values and of decode faults. -/
class Sink (ω : Type) where
  print : ω → UInt8 → ω × List Record
  fault : ω → DecodeFault → ω × List Record
  /-- Hand over the printed values that were kept, and keep them no longer.  A
  sink that keeps none hands over nothing. -/
  drain : ω → Option (List UInt8) × ω := fun o => (none, o)

end ByteMachine
