import ByteMachine.Clock.Run

/-!
# Commands

A command is one operation that a host carries out on the machine, and a
response is what the host gets back.  Every operation of the machine has a
command, so that a history of the machine is a list of commands.

**Results.**
* `performAll_append`: a history may be cut into two at any point.
-/

namespace ByteMachine

/-- An operation of a host on the machine. -/
inductive Command
  | tick
  | runFor (budget : Nat)
  /-- Execute up to `budget` instructions, and ask whether the machine halted. -/
  | runUntilHalt (budget : Nat)
  /-- Let a clock run, and give up after `patience` ticks if it has no limit. -/
  | clock (k : Clock) (patience : Nat)
  | start
  | stop
  /-- Put everything but the memory and the sink back to power-on. -/
  | reset
  | poke (a x : UInt8)
  | loadProgram (program : List UInt8)
  | read (a : UInt8)
  | register (i : UInt8)
  | setPc (x : UInt8)
  | setSp (x : UInt8)
  | setRegister (i x : UInt8)
  | select (i : UInt8)
  | setEqual (b : Bool)
  | print (x : UInt8)
  | fault (e : DecodeFault)
  | drain
  | listing (start : UInt8) (count : Nat)
  | dump
  deriving DecidableEq

/-- What a host gets back for a command. -/
inductive Response
  | done
  | fault (e : DecodeFault)
  | count (n : Nat)
  | halted (b : Bool)
  | report (r : Clock.Report)
  /-- A clock run was given up. -/
  | unfinished
  | byte (x : UInt8)
  | printed (xs : Option (List UInt8))
  | lines (ls : List Line)
  | contents (memory general : Bank)
  deriving DecidableEq

namespace Response

/-- The response to an operation that a fault can stop. -/
def ofExcept {α : Type} (f : α → Response) : Except DecodeFault α → Response
  | .ok a => f a
  | .error e => .fault e

def ofClock : Option (Except DecodeFault Clock.Report) → Response
  | some r => ofExcept .report r
  | none => .unfinished

end Response

namespace Machine

section

variable {μ ω : Type} [Bus μ] [Sink ω]

/-- Answer a question about the machine, which changes nothing. -/
def answer (m : Machine μ ω) (r : Response) : Outcome Response μ ω :=
  ⟨r, m, []⟩

/-- Change the core alone, without a response. -/
def revise (m : Machine μ ω) (f : Core μ → Core μ) : Outcome Response μ ω :=
  ⟨.done, m.edit f, []⟩

def perform (v : Verbosity) (cmd : Command) (m : Machine μ ω) :
    Outcome Response μ ω :=
  match cmd with
  | .tick => (m.tick v).map fun r _ => .ofExcept (fun _ => .done) r
  | .runFor budget => (m.runFor v budget).map fun r _ => .ofExcept .count r
  | .runUntilHalt budget =>
      (m.runUntilHalt v budget).map fun r _ => .ofExcept .halted r
  | .clock k patience => (k.run v patience m).map fun r _ => .ofClock r
  | .start => (m.start v).map fun _ _ => .done
  | .stop => (m.stop v).map fun _ _ => .done
  | .reset => m.revise Core.reset
  | .poke a x => m.revise fun c => c.poke a x
  | .loadProgram program => m.revise fun c => c.loadProgram program
  | .read a => m.answer (.byte (Bus.read m.core.memory a))
  | .register i => m.answer (.byte (m.core.regs.get i))
  | .setPc x => m.revise fun c => c.jump x
  | .setSp x => m.revise fun c => c.setSp x
  | .setRegister i x => m.revise fun c => c.setRegister i x
  | .select i => m.revise fun c => c.select i
  | .setEqual b => m.revise fun c => c.setEqual b
  | .print x =>
      let p := Sink.print m.output x
      ⟨.done, { m with output := p.1 }, v.keep p.2⟩
  | .fault e =>
      let p := Sink.fault m.output e
      ⟨.done, { m with output := p.1 }, v.keep p.2⟩
  | .drain =>
      let p := Sink.drain m.output
      ⟨.printed p.1, { m with output := p.2 }, []⟩
  | .listing start count => m.answer (.lines (Line.listing m.core.memory start count))
  | .dump => m.answer (.contents (Bus.snapshot m.core.memory) m.core.regs.general)

/-- Carry out a list of commands in order.  The result lists their responses. -/
def performAll (v : Verbosity) :
    List Command → Machine μ ω → Outcome (List Response) μ ω
  | [], m => ⟨[], m, []⟩
  | cmd :: cmds, m =>
      let o := m.perform v cmd
      let p := performAll v cmds o.machine
      ⟨o.result :: p.result, p.machine, o.log ++ p.log⟩

section

variable (v : Verbosity) (m : Machine μ ω)

@[simp]
theorem performAll_nil : performAll v [] m = ⟨[], m, []⟩ := rfl

theorem performAll_cons (cmd : Command) (cmds : List Command) :
    performAll v (cmd :: cmds) m =
      (m.perform v cmd).andThen fun m' =>
        (performAll v cmds m').map fun rs _ => (m.perform v cmd).result :: rs :=
  rfl

/-- A history may be cut into two at any point. -/
theorem performAll_append (before after : List Command) :
    performAll v (before ++ after) m =
      (performAll v before m).andThen fun m' =>
        (performAll v after m').map fun rs _ =>
          (performAll v before m).result ++ rs := by
  induction before generalizing m with
  | nil =>
      simp [Outcome.andThen, Outcome.map]
  | cons cmd cmds ih =>
      have h := ih (m.perform v cmd).machine
      simp [performAll, h, Outcome.andThen, Outcome.map]

end

end

end Machine
end ByteMachine
