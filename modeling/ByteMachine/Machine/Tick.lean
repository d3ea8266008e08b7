import ByteMachine.Machine.Basic

/-!
# One tick

A running machine takes a tick in three stages.  It fetches the byte at the
program counter, decodes it, and executes the instruction.  A byte that is no
opcode stops the machine: the fault is logged, then reported to the sink, and
returned.  A halted machine ignores ticks.

**Results.**
* `tick_of_halted`: a tick of a halted machine changes nothing.
* `tick_of_fault`: a faulting tick stops the machine and leaves the rest of its
  core, the fetch apart, as it was.
* `tick_of_opcode`: any other tick counts one instruction and has the effect of
  the fetched opcode.
-/

namespace ByteMachine
namespace Machine

section

variable {μ ω : Type}

/-- An operation that changes the core only, without a result or a record. -/
def edit (m : Machine μ ω) (f : Core μ → Core μ) : Machine μ ω :=
  { m with core := f m.core }

/-- Whether the machine ignores ticks. -/
def isHalted (m : Machine μ ω) : Bool :=
  m.core.isHalted

/-- Let the machine take ticks.  Only a halted machine logs that it starts. -/
def start (v : Verbosity) (m : Machine μ ω) : Outcome Unit μ ω :=
  ⟨(), m.edit Core.resume,
    if m.isHalted then v.note (.started m.core.regs.pc) else []⟩

/-- Let the machine take no more ticks.  Only a running machine logs that it
stops. -/
def stop (v : Verbosity) (m : Machine μ ω) : Outcome Unit μ ω :=
  ⟨(), m.edit Core.halt,
    if m.isHalted then [] else v.note (.stopped m.core.regs.pc)⟩

end

section

variable {μ ω : Type} [Sink ω]

/-- What an instruction tells the outside: a printed value goes to the sink, and
a halt is logged. -/
def announce (v : Verbosity) (op : Opcode) (c : Core μ) (o : ω) :
    ω × List Record :=
  match op with
  | .halt => (o, v.note (.halted c.regs.pc))
  | .prn =>
      let p := Sink.print o c.value
      (p.1, v.keep p.2)
  | _ => (o, [])

/-- Stop for a fault and report it. -/
def refuse (v : Verbosity) (e : DecodeFault) (m : Machine μ ω) :
    Outcome (Except DecodeFault Unit) μ ω :=
  let p := Sink.fault m.output e
  ⟨.error e, ⟨m.core.halt, p.1⟩, v.note (.faulted e) ++ v.keep p.2⟩

variable [Bus μ]

/-- Execute the instruction at the program counter, once its first byte has been
fetched and decoded. -/
def execute (v : Verbosity) (op : Opcode) (m : Machine μ ω) :
    Outcome (Except DecodeFault Unit) μ ω :=
  let p := announce v op m.core m.output
  ⟨.ok (), ⟨m.core.count.effect op, p.1⟩,
    v.note (.traced (Line.decodeAt m.core.memory m.core.regs.pc)) ++ p.2⟩

/-- Fetch, decode and execute one instruction. -/
def tick (v : Verbosity) (m : Machine μ ω) :
    Outcome (Except DecodeFault Unit) μ ω :=
  if m.isHalted then
    ⟨.ok (), m, []⟩
  else
    let m := m.edit Core.fetch
    match Opcode.decode m.core.regs.mdr m.core.regs.pc with
    | .ok op => m.execute v op
    | .error e => m.refuse v e

variable (v : Verbosity) (m : Machine μ ω)

theorem tick_of_halted (h : m.core.state = .halted) :
    tick v m = ⟨.ok (), m, []⟩ := by
  have h' : m.isHalted = true := m.core.isHalted_eq_true_iff.2 h
  simp [tick, h']

theorem tick_of_opcode {op : Opcode} (h : m.core.state = .running)
    (hop : Opcode.ofByte? (Bus.read m.core.memory m.core.regs.pc) = some op) :
    tick v m =
      ⟨.ok (),
        ⟨m.core.fetch.count.effect op, (announce v op m.core.fetch m.output).1⟩,
        v.note (.traced (Line.decodeAt m.core.memory m.core.regs.pc)) ++
          (announce v op m.core.fetch m.output).2⟩ := by
  have h' : m.isHalted = false := m.core.isHalted_eq_false_iff.2 h
  have hd : Opcode.decode (m.edit Core.fetch).core.regs.mdr
      (m.edit Core.fetch).core.regs.pc = .ok op :=
    Opcode.decode_eq_ok_iff.2 (Opcode.ofByte?_eq_some_iff.1 hop)
  simp only [tick, h', hd]
  rfl

theorem tick_of_fault (h : m.core.state = .running)
    (hop : Opcode.ofByte? (Bus.read m.core.memory m.core.regs.pc) = none) :
    tick v m =
      let e : DecodeFault :=
        ⟨Bus.read m.core.memory m.core.regs.pc, m.core.regs.pc⟩
      ⟨.error e, ⟨m.core.fetch.halt, (Sink.fault m.output e).1⟩,
        v.note (.faulted e) ++ v.keep (Sink.fault m.output e).2⟩ := by
  have h' : m.isHalted = false := m.core.isHalted_eq_false_iff.2 h
  have hd : Opcode.decode (m.edit Core.fetch).core.regs.mdr
      (m.edit Core.fetch).core.regs.pc =
        .error ⟨Bus.read m.core.memory m.core.regs.pc, m.core.regs.pc⟩ :=
    Opcode.decode_eq_error_iff.2 ⟨hop, rfl⟩
  simp only [tick, h', hd]
  rfl

end

end Machine
end ByteMachine
