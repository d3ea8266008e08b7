import ByteMachine.Emulator.Basic

/-!
# Commands of the emulator

The operations that an embedding host can call, and what it gets back.  Each of
them is an operation of the machine too.

**Results.**
* `machine_perform`, `log_perform`: an emulator is left in the state in which the machine
  is left by the same operation, and with the same log.
* `machine_performAll`, `log_performAll`: the same for histories.
-/

namespace ByteMachine
namespace Emulator

/-- An operation of the host on the emulator. -/
inductive Command
  | tick
  | runFor (budget : UInt32)
  | start
  | stop
  | reset
  | poke (a x : UInt8)
  | loadProgram (program : List UInt8)
  | readMemory (a : UInt8)
  | register (i : UInt8)
  | memory
  | disassemble (a : UInt8)
  deriving DecidableEq

/-- What the host gets back. -/
inductive Response
  | done
  | error (e : Error)
  | count (n : UInt32)
  | byte (x : UInt8)
  | bytes (xs : List UInt8)
  | text (s : String)
  deriving DecidableEq

def Response.ofExcept {α : Type} (f : α → Response) : Except Error α → Response
  | .ok a => f a
  | .error e => .error e

/-- The operation of the machine that an operation of the emulator stands for. -/
def Command.toMachine : Command → ByteMachine.Command
  | tick => .tick
  | runFor budget => .runFor budget.toNat
  | start => .start
  | stop => .stop
  | reset => .reset
  | poke a x => .poke a x
  | loadProgram program => .loadProgram program
  | readMemory a => .read a
  | register i => .register i
  | memory => .dump
  | disassemble a => .listing a 1

section

variable {σ : Type}

def perform (v : Verbosity) (cmd : Command) (m : Emulator σ) :
    Outcome Response Bank (Callback σ) :=
  match cmd with
  | .tick => (tick v m).map fun r _ => .ofExcept (fun _ => .done) r
  | .runFor budget => (runFor v budget m).map fun r _ => .ofExcept .count r
  | .start => (Machine.start v m).map fun _ _ => .done
  | .stop => (Machine.stop v m).map fun _ _ => .done
  | .reset => ⟨.done, m.edit Core.reset, []⟩
  | .poke a x => ⟨.done, m.edit fun c => c.poke a x, []⟩
  | .loadProgram program => ⟨.done, m.edit fun c => c.loadProgram program, []⟩
  | .readMemory a => ⟨.byte (m.core.memory.get a), m, []⟩
  | .register i => ⟨.byte (m.core.regs.get i), m, []⟩
  | .memory => ⟨.bytes m.core.memory.toList, m, []⟩
  | .disassemble a => ⟨.text (disassemble m a), m, []⟩

/-- Carry out a list of commands in order.  The result lists their responses. -/
def performAll (v : Verbosity) :
    List Command → Emulator σ → Outcome (List Response) Bank (Callback σ)
  | [], m => ⟨[], m, []⟩
  | cmd :: cmds, m =>
      let o := perform v cmd m
      let p := performAll v cmds o.machine
      ⟨o.result :: p.result, p.machine, o.log ++ p.log⟩

variable (v : Verbosity) (cmd : Command) (m : Emulator σ)

/-- The emulator and the machine are left in the same state. -/
theorem machine_perform :
    (perform v cmd m).machine = (Machine.perform v cmd.toMachine m).machine := by
  cases cmd <;> rfl

/-- The emulator and the machine log the same. -/
theorem log_perform :
    (perform v cmd m).log = (Machine.perform v cmd.toMachine m).log := by
  cases cmd <;> rfl

theorem performAll_cons (cmds : List Command) :
    performAll v (cmd :: cmds) m =
      (perform v cmd m).andThen fun m' =>
        (performAll v cmds m').map fun rs _ => (perform v cmd m).result :: rs :=
  rfl

/-- A history of the emulator and that of the machine leave the same state. -/
theorem machine_performAll (cmds : List Command) :
    (performAll v cmds m).machine =
      (Machine.performAll v (cmds.map Command.toMachine) m).machine := by
  induction cmds generalizing m with
  | nil => rfl
  | cons cmd cmds ih =>
      rw [List.map_cons, Machine.performAll_cons, performAll_cons]
      simp only [Outcome.machine_andThen, Outcome.machine_map, ih, machine_perform]

/-- A history of the emulator and that of the machine log the same. -/
theorem log_performAll (cmds : List Command) :
    (performAll v cmds m).log =
      (Machine.performAll v (cmds.map Command.toMachine) m).log := by
  induction cmds generalizing m with
  | nil => rfl
  | cons cmd cmds ih =>
      rw [List.map_cons, Machine.performAll_cons, performAll_cons]
      simp only [Outcome.log_andThen, Outcome.log_map, ih, machine_perform, log_perform]

end

end Emulator
end ByteMachine
