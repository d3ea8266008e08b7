import ByteMachine.Proofs.Reference.Basic
import ByteMachine.Proofs.Trajectory
import ByteMachine.Sink.Buffer

/-!
# The machine refines the reference machine

**Results.**
* `decode_eq_map`: the table of the instruction set lists the opcodes of the
  machine, and no other bytes.
* `erase_tick`: a tick is one step of the reference machine.
* `erase_runFor`: a bounded run counts the steps of the reference machine.
* `performAll_refines_reference`: whatever a host does with the machine, it gets
  the responses of the reference machine and leaves the same state behind.
-/

namespace ByteMachine
namespace Instruction

/-- The instruction of an opcode, with its operands among the next two bytes. -/
def ofOpcode (op : Opcode) (o₁ o₂ : UInt8) : Instruction :=
  match op with
  | .halt => halt
  | .init => init
  | .set => set o₁
  | .save => save o₁
  | .mul => mul o₁ o₂
  | .prn => prn
  | .ld => ld o₁
  | .st => st o₁
  | .push => push
  | .pop => pop
  | .add => add o₁ o₂
  | .jmp => jmp o₁
  | .jeq => jeq o₁
  | .jne => jne o₁
  | .cmp => cmp o₁

/-- The table of the instruction set lists the opcodes and nothing else. -/
theorem decode_eq_map (b o₁ o₂ : UInt8) :
    decode b o₁ o₂ = (Opcode.ofByte? b).map fun op => ofOpcode op o₁ o₂ := by
  cases h : Opcode.ofByte? b with
  | some op =>
      rw [← Opcode.ofByte?_eq_some_iff.1 h]
      cases op <;> rfl
  | none =>
      unfold decode
      split
      case h_16 => rfl
      -- The other fifteen rows are bytes of opcodes.
      all_goals exact absurd h (by decide)

end Instruction

namespace Reference

section

variable {μ ω : Type} [Bus μ] [Sink ω] {r : Reference μ ω}

theorem step_of_halted (h : r.state = .halted) : r.step = (.ok (), r) := by
  simp [step, h]

theorem step_of_opcode {op : Opcode} (h : r.state = .running)
    (hb : Opcode.ofByte? (Bus.read r.memory r.pc) = some op) :
    r.step =
      (.ok (),
        r.execute
          (Instruction.ofOpcode op (Bus.read r.memory (r.pc + 1))
            (Bus.read r.memory (r.pc + 2)))) := by
  simp [step, h, Instruction.decode_eq_map, hb]

theorem step_of_fault (h : r.state = .running)
    (hb : Opcode.ofByte? (Bus.read r.memory r.pc) = none) :
    r.step =
      (.error ⟨Bus.read r.memory r.pc, r.pc⟩,
        r.refuse ⟨Bus.read r.memory r.pc, r.pc⟩) := by
  simp [step, h, Instruction.decode_eq_map, hb]

theorem runFor_of_halted (h : r.state = .halted) (n : Nat) :
    r.runFor n = (.ok 0, r) := by
  cases n with
  | zero => rfl
  | succ n => simp [runFor, h]

theorem runFor_succ_of_ok (h : r.state = .running) (hr : r.step.1 = .ok ()) (n : Nat) :
    r.runFor (n + 1) =
      ((r.step.2.runFor n).1.map (· + 1), (r.step.2.runFor n).2) := by
  rcases hp : r.step with ⟨x, s⟩
  rw [hp] at hr
  subst hr
  simp [runFor, h, hp]

theorem runFor_succ_of_error {e : DecodeFault} (h : r.state = .running)
    (hr : r.step.1 = .error e) (n : Nat) :
    r.runFor (n + 1) = (.error e, r.step.2) := by
  rcases hp : r.step with ⟨x, s⟩
  rw [hp] at hr
  subst hr
  simp [runFor, h, hp]

end

end Reference

namespace Machine

section

variable {μ ω : Type}

theorem isHalted_eq_decide (m : Machine μ ω) :
    m.isHalted = decide (m.erase.state = .halted) := by
  rw [Bool.eq_iff_iff, decide_eq_true_iff]
  exact m.core.isHalted_eq_true_iff

variable [Bus μ] [Sink ω] (v : Verbosity)

/-- The steps of an instruction amount to the change that it makes at once. -/
theorem erase_effect (op : Opcode) (c : Core μ) (o : ω) :
    erase ⟨c.fetch.count.effect op, (announce v op c.fetch o).1⟩ =
      (erase ⟨c, o⟩).execute
        (Instruction.ofOpcode op (Bus.read c.memory (c.regs.pc + 1))
          (Bus.read c.memory (c.regs.pc + 2))) := by
  obtain ⟨regs, ⟨equal⟩, current, state, ticks, memory⟩ := c
  cases op with
  | jeq =>
      cases equal with
      | false => rfl
      | true => rfl
  | jne =>
      cases equal with
      | false => rfl
      | true => rfl
  | _ => rfl

/-- A tick is one step of the reference machine. -/
theorem erase_tick (m : Machine μ ω) :
    (m.tick v).result = m.erase.step.1 ∧ (m.tick v).machine.erase = m.erase.step.2 := by
  cases h : m.core.outlook with
  | idle =>
      have hs : m.erase.state = .halted := Core.outlook_eq_idle_iff.1 h
      rw [tick_of_idle v m h, Reference.step_of_halted hs]
      exact ⟨rfl, rfl⟩
  | fault =>
      obtain ⟨hs, hb⟩ := Core.outlook_eq_fault_iff.1 h
      rw [tick_of_fault v m hs hb, Reference.step_of_fault hs hb]
      exact ⟨rfl, rfl⟩
  | execute op =>
      obtain ⟨hs, hb⟩ := Core.outlook_eq_execute_iff.1 h
      rw [tick_of_opcode v m hs hb, Reference.step_of_opcode hs hb]
      exact ⟨rfl, erase_effect v op m.core m.output⟩

/-- A bounded run takes the steps of the reference machine and counts them. -/
theorem erase_runFor (n : Nat) (m : Machine μ ω) :
    (m.runFor v n).result = (m.erase.runFor n).1 ∧
      (m.runFor v n).machine.erase = (m.erase.runFor n).2 := by
  induction n generalizing m with
  | zero =>
      rw [runFor_zero]
      exact ⟨rfl, rfl⟩
  | succ n ih =>
      cases hs : m.core.state with
      | halted =>
          rw [runFor_of_halted v _ hs, Reference.runFor_of_halted hs]
          exact ⟨rfl, rfl⟩
      | running =>
          obtain ⟨hres, hstate⟩ := erase_tick v m
          rcases tick_of_running v hs with ⟨hr, _⟩ | ⟨hr, _⟩
          · have hstep : m.erase.step.1 = .ok () := by rw [← hres, hr]
            obtain ⟨ihr, ihs⟩ := ih (m.tick v).machine
            rw [runFor_succ_of_ok v n hs hr, Reference.runFor_succ_of_ok hs hstep,
              ← hstate, ← ihr, ← ihs]
            exact ⟨rfl, rfl⟩
          · have hstep : m.erase.step.1 = .error m.core.faultHere := by rw [← hres, hr]
            rw [runFor_succ_of_error v n hs hr, Reference.runFor_succ_of_error hs hstep,
              ← hstate]
            exact ⟨rfl, rfl⟩

/-- A clock run is a bounded run of the reference machine, with a report. -/
theorem erase_clock (k : Clock) (patience : Nat) (m : Machine μ ω) :
    Response.ofClock (k.run v patience m).result = (m.erase.runClock k patience).1 ∧
      (k.run v patience m).machine.erase = (m.erase.runClock k patience).2 := by
  obtain ⟨hres, hstate⟩ := erase_runFor v (k.limit.getD patience) (m.start v).machine
  change _ = (Reference.runFor _ { m.erase with state := .running }).1 at hres
  change _ = (Reference.runFor _ { m.erase with state := .running }).2 at hstate
  rw [Clock.run_eq_conclude]
  rcases hp : Reference.runFor (k.limit.getD patience)
      { m.erase with state := .running } with ⟨x, s⟩
  rw [hp] at hres hstate
  simp only [Reference.runClock, hp, Clock.conclude, Outcome.andThen]
  cases x with
  | error e =>
      rw [hres]
      exact ⟨rfl, hstate⟩
  | ok n =>
      rw [hres]
      simp only [isHalted_eq_decide, hstate]
      by_cases hd : s.state = .halted ∨ k.limit.isSome = true
      · have hb : (decide (s.state = .halted) || k.limit.isSome) = true := by
          simpa using hd
        rw [if_pos hd, if_pos hb]
        exact ⟨rfl, hstate⟩
      · have hb : ¬ (decide (s.state = .halted) || k.limit.isSome) = true := by
          simpa using hd
        rw [if_neg hd, if_neg hb]
        exact ⟨rfl, hstate⟩

/-- A command does to the machine what it does to the reference machine. -/
theorem erase_perform (cmd : Command) (m : Machine μ ω) :
    (m.perform v cmd).result = (m.erase.perform cmd).1 ∧
      (m.perform v cmd).machine.erase = (m.erase.perform cmd).2 := by
  cases cmd with
  | tick =>
      obtain ⟨hres, hstate⟩ := erase_tick v m
      exact ⟨congrArg (Response.ofExcept fun _ => .done) hres, hstate⟩
  | runFor budget =>
      obtain ⟨hres, hstate⟩ := erase_runFor v budget m
      exact ⟨congrArg (Response.ofExcept .count) hres, hstate⟩
  | runUntilHalt budget =>
      obtain ⟨hres, hstate⟩ := erase_runFor v budget m
      refine ⟨?_, hstate⟩
      change Response.ofExcept .halted
        ((m.runFor v budget).result.map fun _ => (m.runFor v budget).machine.isHalted) = _
      rw [hres, isHalted_eq_decide, hstate]
      cases h : (m.erase.runFor budget).1 with
      | error e => simp [Reference.perform, h, Except.map, Response.ofExcept]
      | ok n => simp [Reference.perform, h, Except.map, Response.ofExcept]
  | clock k patience => exact erase_clock v k patience m
  | _ => exact ⟨rfl, rfl⟩

/-- **Refinement of the instruction set.**  Whatever a host does with the machine,
it gets the responses of the reference machine and leaves the same state behind,
but for the address register and the data register. -/
theorem performAll_refines_reference (cmds : List Command) (m : Machine μ ω) :
    (m.performAll v cmds).result = (m.erase.performAll cmds).1 ∧
      (m.performAll v cmds).machine.erase = (m.erase.performAll cmds).2 := by
  induction cmds generalizing m with
  | nil => exact ⟨rfl, rfl⟩
  | cons cmd cmds ih =>
      obtain ⟨hres, hstate⟩ := erase_perform v cmd m
      obtain ⟨ihr, ihs⟩ := ih (m.perform v cmd).machine
      rw [hstate] at ihr ihs
      rw [performAll_cons]
      refine ⟨?_, ihs⟩
      simp [Outcome.andThen, Outcome.map, Reference.performAll, hres, ihr]

end

/-- Save 7, store it, push it, and halt. -/
theorem performAll_refines_reference_storing :
    let fresh := powerOn Bank.zero Buffer.empty
    let cmds : List Command :=
      [.loadProgram [0x04, 7, 0x09, 0x40, 0x0A], .runUntilHalt 9, .register 0, .register 0xFF,
        .read 0x40, .read 0xFF, .read 0x41]
    let done := fresh.performAll .off cmds
    done.result =
        [.done, .halted true, .byte 7, .byte 0xFF, .byte 7, .byte 7, .byte 0] ∧
      done.machine.erase.pc = 5 ∧ done.machine.erase.ticks = 4 ∧
      [(0, 0x04), (1, 7), (2, 0x09), (3, 0x40), (4, 0x0A), (0x40, 7), (0xFF, 7)] ⊆
        Bank.zero.changes done.machine.erase.memory ∧
      [(0, 7), (0xFF, 0xFF)] ⊆ Bank.zero.changes done.machine.erase.general := by
  intro fresh cmds done
  obtain ⟨hresult, hstate⟩ := performAll_refines_reference .off cmds fresh
  have htold : (fresh.erase.performAll cmds).1 =
      [.done, .halted true, .byte 7, .byte 0xFF, .byte 7, .byte 7, .byte 0] := by
    decide +kernel
  refine ⟨hresult.trans htold, ?_⟩
  rw [hstate]
  refine ⟨by decide +kernel, by decide +kernel, ?_, ?_⟩
  · exact Bank.subset_changes_zero (by decide +kernel) (by simp)
  · exact Bank.subset_changes_zero (by decide +kernel) (by simp)

end Machine
end ByteMachine
