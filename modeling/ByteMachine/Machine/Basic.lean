import ByteMachine.Machine.Effect
import ByteMachine.Sink.Basic

/-!
# The machine and the outcome of an operation

The machine is a core whose printed values and faults go to a sink.  An
operation on it leaves three things behind: a result, the machine afterwards,
and the log records that were kept while it ran.

**Results.**
* `unlessFault_of_ok`, `unlessFault_of_error`: an operation is carried out behind another
  one unless that has met a fault.
-/

namespace ByteMachine

/-- The machine: a core and the sink that it reports to. -/
structure Machine (μ ω : Type) where
  core : Core μ
  output : ω
  deriving DecidableEq

def Machine.powerOn {μ ω : Type} (memory : μ) (output : ω) : Machine μ ω :=
  ⟨Core.powerOn memory, output⟩

/-- What an operation of the machine leaves behind. -/
structure Outcome (ρ μ ω : Type) where
  result : ρ
  machine : Machine μ ω
  /-- The log records that the operation made and the verbosity admitted. -/
  log : List Record
  deriving DecidableEq

namespace Outcome

section

variable {ρ τ μ ω : Type}

/-- Turn the result into another one, with a view to the machine afterwards. -/
def map (o : Outcome ρ μ ω) (f : ρ → Machine μ ω → τ) : Outcome τ μ ω :=
  ⟨f o.result o.machine, o.machine, o.log⟩

/-- Go on with another operation, whatever the result was. -/
def andThen (o : Outcome ρ μ ω) (next : Machine μ ω → Outcome τ μ ω) :
    Outcome τ μ ω :=
  let p := next o.machine
  ⟨p.result, p.machine, o.log ++ p.log⟩

/-- Go on with another operation unless a fault has stopped this one. -/
def unlessFault {α β : Type} (o : Outcome (Except DecodeFault α) μ ω)
    (next : Machine μ ω → Outcome (Except DecodeFault β) μ ω) :
    Outcome (Except DecodeFault β) μ ω :=
  match o.result with
  | .ok _ => o.andThen next
  | .error e => ⟨.error e, o.machine, o.log⟩

@[simp]
theorem result_map (o : Outcome ρ μ ω) (f : ρ → Machine μ ω → τ) :
    (o.map f).result = f o.result o.machine := rfl

@[simp]
theorem machine_map (o : Outcome ρ μ ω) (f : ρ → Machine μ ω → τ) :
    (o.map f).machine = o.machine := rfl

@[simp]
theorem log_map (o : Outcome ρ μ ω) (f : ρ → Machine μ ω → τ) :
    (o.map f).log = o.log := rfl

section

variable (o : Outcome ρ μ ω) (next : Machine μ ω → Outcome τ μ ω)

@[simp]
theorem result_andThen : (o.andThen next).result = (next o.machine).result := rfl

@[simp]
theorem machine_andThen :
    (o.andThen next).machine = (next o.machine).machine := rfl

@[simp]
theorem log_andThen :
    (o.andThen next).log = o.log ++ (next o.machine).log := rfl

end

section

variable {α β : Type} {o : Outcome (Except DecodeFault α) μ ω}
    {next : Machine μ ω → Outcome (Except DecodeFault β) μ ω}

theorem unlessFault_of_ok {a : α} (h : o.result = .ok a) :
    o.unlessFault next = o.andThen next := by
  simp [unlessFault, h]

theorem unlessFault_of_error {e : DecodeFault} (h : o.result = .error e) :
    o.unlessFault next = ⟨.error e, o.machine, o.log⟩ := by
  simp [unlessFault, h]

end

end

end Outcome
end ByteMachine
