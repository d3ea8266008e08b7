import ByteMachine.Machine.Command

/-!
# The reference machine

The reference machine is the instruction set as a programmer reads it.  It has
no address register and no data register.  A step reads the opcode byte and the
two bytes after it from the memory as it is before the step, and then makes all
the changes of the instruction at once.

A bounded run counts the steps it takes, one by one, and a clock run is a
bounded run with a report, so neither needs the tick counter.
-/

namespace ByteMachine

/-- An instruction with its operands. -/
inductive Instruction
  | halt
  | init
  | set (i : UInt8)
  | save (x : UInt8)
  | mul (a b : UInt8)
  | prn
  | ld (a : UInt8)
  | st (a : UInt8)
  | push
  | pop
  | add (a b : UInt8)
  | jmp (a : UInt8)
  | jeq (a : UInt8)
  | jne (a : UInt8)
  | cmp (i : UInt8)
  deriving DecidableEq, Repr

namespace Instruction

/-- The table of the instruction set: what an opcode byte stands for, given the
two bytes that follow it. -/
def decode (b o₁ o₂ : UInt8) : Option Instruction :=
  match b with
  | 0x00 => some .halt
  | 0x01 => some .init
  | 0x02 => some (.set o₁)
  | 0x04 => some (.save o₁)
  | 0x05 => some (.mul o₁ o₂)
  | 0x06 => some .prn
  | 0x08 => some (.ld o₁)
  | 0x09 => some (.st o₁)
  | 0x0A => some .push
  | 0x0B => some .pop
  | 0x0C => some (.add o₁ o₂)
  | 0x11 => some (.jmp o₁)
  | 0x13 => some (.jeq o₁)
  | 0x14 => some (.jne o₁)
  | 0x16 => some (.cmp o₁)
  | _ => none

/-- The number of bytes of an instruction. -/
def width : Instruction → UInt8
  | halt | init | prn | push | pop => 1
  | set _ | save _ | ld _ | st _ | jmp _ | jeq _ | jne _ | cmp _ => 2
  | mul _ _ | add _ _ => 3

end Instruction

/-- The state of the reference machine, with its sink. -/
structure Reference (μ ω : Type) where
  general : Bank
  pc : UInt8
  current : UInt8
  equal : Bool
  state : RunState
  ticks : Nat
  memory : μ
  output : ω
  deriving DecidableEq

namespace Reference

section

variable {μ ω : Type} [Bus μ] [Sink ω]

/-- The value of the current register. -/
def value (r : Reference μ ω) : UInt8 :=
  r.general.get r.current

/-- Put a value into the current register. -/
def assign (r : Reference μ ω) (x : UInt8) : Reference μ ω :=
  { r with general := r.general.set r.current x }

/-- Put a value into the stack pointer. -/
def setSp (r : Reference μ ω) (x : UInt8) : Reference μ ω :=
  { r with general := r.general.set 0xFF x }

/-- The stack pointer. -/
def sp (r : Reference μ ω) : UInt8 :=
  r.general.get 0xFF

/-- Execute an instruction, at once. -/
def execute (i : Instruction) (r : Reference μ ω) : Reference μ ω :=
  let s := { r with pc := r.pc + i.width, ticks := r.ticks + 1 }
  match i with
  | .halt => { s with pc := r.pc, state := .halted }
  | .init => { s with current := 0 }
  | .set i => { s with current := i }
  | .save x => s.assign x
  | .mul a b => s.assign (r.general.get a * r.general.get b)
  | .prn => { s with output := (Sink.print r.output r.value).1 }
  | .ld a => s.assign (Bus.read r.memory a)
  | .st a => { s with memory := Bus.write r.memory a r.value }
  | .push =>
      let t := s.setSp (r.sp - 1)
      { t with memory := Bus.write r.memory t.sp t.value }
  | .pop =>
      let t := s.assign (Bus.read r.memory r.sp)
      t.setSp (t.sp + 1)
  | .add a b => s.assign (r.general.get a + r.general.get b)
  | .jmp a => { s with pc := a }
  | .jeq a => if r.equal then { s with pc := a } else s
  | .jne a => if r.equal then s else { s with pc := a }
  | .cmp i => { s with equal := r.value == r.general.get i }

/-- Halt for a byte that is no opcode, and report it. -/
def refuse (e : DecodeFault) (r : Reference μ ω) : Reference μ ω :=
  { r with state := .halted, output := (Sink.fault r.output e).1 }

/-- Take one step. -/
def step (r : Reference μ ω) : Except DecodeFault Unit × Reference μ ω :=
  match r.state with
  | .halted => (.ok (), r)
  | .running =>
      let op := Bus.read r.memory r.pc
      let o₁ := Bus.read r.memory (r.pc + 1)
      let o₂ := Bus.read r.memory (r.pc + 2)
      match Instruction.decode op o₁ o₂ with
      | some i => (.ok (), r.execute i)
      | none => (.error ⟨op, r.pc⟩, r.refuse ⟨op, r.pc⟩)

/-- Take steps until the machine halts, but no more than `budget`, and count
them. -/
def runFor : Nat → Reference μ ω → Except DecodeFault Nat × Reference μ ω
  | 0, r => (.ok 0, r)
  | budget + 1, r =>
      match r.state with
      | .halted => (.ok 0, r)
      | .running =>
          match r.step with
          | (.error e, s) => (.error e, s)
          | (.ok _, s) => ((runFor budget s).1.map (· + 1), (runFor budget s).2)

/-- Start the machine and let it run for the limit of a clock, or for `patience`
steps. -/
def runClock (k : Clock) (patience : Nat) (r : Reference μ ω) :
    Response × Reference μ ω :=
  match runFor (k.limit.getD patience) { r with state := .running } with
  | (.error e, s) => (.fault e, s)
  | (.ok n, s) =>
      if s.state = .halted ∨ k.limit.isSome then
        (.report ⟨n, s.state = .halted⟩, s)
      else
        (.unfinished, s)

/-- Carry out a command. -/
def perform (cmd : Command) (r : Reference μ ω) : Response × Reference μ ω :=
  match cmd with
  | .tick => (.ofExcept (fun _ => .done) r.step.1, r.step.2)
  | .runFor budget => (.ofExcept .count (r.runFor budget).1, (r.runFor budget).2)
  | .runUntilHalt budget =>
      let s := (r.runFor budget).2
      (.ofExcept (fun _ => .halted (s.state = .halted)) (r.runFor budget).1, s)
  | .clock k patience => r.runClock k patience
  | .start => (.done, { r with state := .running })
  | .stop => (.done, { r with state := .halted })
  | .reset => (.done, ⟨Bank.zero, 0, 0, false, .running, 0, r.memory, r.output⟩)
  | .poke a x => (.done, { r with memory := Bus.write r.memory a x })
  | .loadProgram program => (.done, { r with memory := Bus.load r.memory program })
  | .read a => (.byte (Bus.read r.memory a), r)
  | .register i => (.byte (r.general.get i), r)
  | .setPc x => (.done, { r with pc := x })
  | .setSp x => (.done, r.setSp x)
  | .setRegister i x => (.done, { r with general := r.general.set i x })
  | .select i => (.done, { r with current := i })
  | .setEqual b => (.done, { r with equal := b })
  | .print x => (.done, { r with output := (Sink.print r.output x).1 })
  | .fault e => (.done, { r with output := (Sink.fault r.output e).1 })
  | .drain =>
      (.printed (Sink.drain r.output).1, { r with output := (Sink.drain r.output).2 })
  | .listing start count => (.lines (Line.listing r.memory start count), r)
  | .dump => (.contents (Bus.snapshot r.memory) r.general, r)

/-- Carry out a list of commands in order, and list their responses. -/
def performAll : List Command → Reference μ ω → List Response × Reference μ ω
  | [], r => ([], r)
  | cmd :: cmds, r =>
      let p := r.perform cmd
      let q := performAll cmds p.2
      (p.1 :: q.1, q.2)

end

end Reference

/-- Forget the address register and the data register. -/
def Machine.erase {μ ω : Type} (m : Machine μ ω) : Reference μ ω where
  general := m.core.regs.general
  pc := m.core.regs.pc
  current := m.core.current
  equal := m.core.flags.equal
  state := m.core.state
  ticks := m.core.ticks
  memory := m.core.memory
  output := m.output

end ByteMachine
