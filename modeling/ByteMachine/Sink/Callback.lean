import ByteMachine.Sink.Basic

/-!
# A sink that calls its host

A callback owns a state of the host's choosing and a function that is called
with each printed value.  Faults do not reach it.

**Results.**
* `print_eq`: a printed value is given to the host's function once.
* `fault_eq`: a fault changes nothing.
-/

namespace ByteMachine

/-- A function of the host for printed values, with the state it acts on. -/
structure Callback (σ : Type) where
  state : σ
  /-- What the host does with a printed value. -/
  onPrint : σ → UInt8 → σ

namespace Callback

section

variable {σ : Type}

instance : Sink (Callback σ) where
  print o x := ({ o with state := o.onPrint o.state x }, [])
  fault o _ := (o, [])

/-- A callback that collects the values it is called with. -/
def collecting : Callback (Array UInt8) :=
  ⟨#[], Array.push⟩

variable (o : Callback σ)

@[simp]
theorem print_eq (x : UInt8) :
    Sink.print o x = (⟨o.onPrint o.state x, o.onPrint⟩, []) := rfl

@[simp]
theorem fault_eq (e : DecodeFault) : Sink.fault o e = (o, []) := rfl

@[simp]
theorem drain_eq : Sink.drain o = (none, o) := rfl

end

end Callback
end ByteMachine
