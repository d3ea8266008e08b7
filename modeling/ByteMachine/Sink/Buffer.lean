import ByteMachine.Sink.Basic

/-!
# A sink that keeps what it receives

**Results.**
* `print_eq`, `fault_eq`: values and faults are kept in the order of
  their arrival.
* `drain_eq`: taking the printed values empties their list and leaves the
  faults.
-/

namespace ByteMachine

/-- The printed values and the faults received so far, oldest first. -/
structure Buffer where
  printed : Array UInt8
  faults : Array DecodeFault
  deriving DecidableEq

namespace Buffer

def empty : Buffer :=
  ⟨#[], #[]⟩

instance : Sink Buffer where
  print o x := ({ o with printed := o.printed.push x }, [])
  fault o e := ({ o with faults := o.faults.push e }, [])
  drain o := (some o.printed.toList, { o with printed := #[] })

section

variable (o : Buffer)

@[simp]
theorem print_eq (x : UInt8) :
    Sink.print o x = (⟨o.printed.push x, o.faults⟩, []) := rfl

@[simp]
theorem fault_eq (e : DecodeFault) :
    Sink.fault o e = (⟨o.printed, o.faults.push e⟩, []) := rfl

@[simp]
theorem drain_eq :
    Sink.drain o = (some o.printed.toList, ⟨#[], o.faults⟩) := rfl

end

end Buffer
end ByteMachine
