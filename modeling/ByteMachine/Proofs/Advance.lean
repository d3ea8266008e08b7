import ByteMachine.Proofs.Effect
import ByteMachine.Proofs.Trajectory
import ByteMachine.Sink.Buffer

/-!
# How an instruction moves the program counter

How long an instruction is and where it leaves the program counter is told in three places:
by the data of its opcode, by the line of a listing, and by the effect of the instruction,
which never asks how its opcode is said to advance.  On every core the three agree, also
where an instruction overwrites itself or goes round the end of the memory, because a line
is taken from the memory as the instruction finds it.

**Results.**
* `verdict_eq_error_iff_decode`: a tick of a running core fails exactly if decoding the
  fetched byte fails.
* `next_of_sequential`, `next_of_halt`, `next_of_jump`: what a tick does to the program
  counter and to the run state, by the way in which the opcode advances.
* `table_listing_and_execution_agree`: the three accounts compared.
-/

namespace ByteMachine
namespace Opcode

/-- Whether a jump is taken, for either state of the flag. -/
def takes (op : Opcode) (equal : Bool) : Bool :=
  match op with
  | jmp => true
  | jeq => equal
  | jne => !equal
  | _ => false

theorem takes_of_sequential {op : Opcode} (h : op.advance = .sequential) (equal : Bool) :
    op.takes equal = false := by
  cases op with
  | jmp => cases h
  | jeq => cases h
  | jne => cases h
  | _ => rfl

theorem operandCount_of_jump {op : Opcode} (h : op.advance = .jump) :
    op.operandCount = 1 := by
  cases op with
  | jmp => rfl
  | jeq => rfl
  | jne => rfl
  | _ => cases h

theorem eq_halt_of_advance {op : Opcode} (h : op.advance = .halt) : op = .halt := by
  cases op with
  | halt => rfl
  | _ => cases h

end Opcode

namespace Core

section

variable {μ : Type} [Bus μ] {c : Core μ}

/-- A tick of a running core fails exactly if decoding the fetched byte fails, and with the
same fault. -/
theorem verdict_eq_error_iff_decode (hs : c.state = .running) {e : DecodeFault} :
    c.verdict = .error e ↔ Opcode.decode c.opcodeByte c.regs.pc = .error e := by
  rw [verdict_eq_error_iff, outlook_eq_fault_iff, Opcode.decode_eq_error_iff, faultHere]
  simp only [hs, true_and]

theorem outlook_eq_execute_iff_decode (hs : c.state = .running) {op : Opcode} :
    c.outlook = .execute op ↔ Opcode.decode c.opcodeByte c.regs.pc = .ok op := by
  rw [outlook_eq_execute_iff, Opcode.decode_eq_ok_iff, Opcode.ofByte?_eq_some_iff]
  simp only [hs, true_and]

variable {op : Opcode} (ho : c.outlook = .execute op)
include ho

/-- A jump that is taken goes to the operand.  Any other instruction that does not halt
goes past itself. -/
theorem pc_next_of_ne_halt (hop : op ≠ .halt) :
    c.next.regs.pc =
      if op.takes c.flags.equal then Bus.read c.memory (c.regs.pc + 1)
      else c.regs.pc + UInt8.ofNat op.size := by
  rw [next_of_execute ho, pc_effect]
  cases op with
  | halt => exact absurd rfl hop
  | jne =>
      change (if c.flags.equal = true then _ else _) = if (!c.flags.equal) = true then _ else _
      cases c.flags.equal with
      | false => rfl
      | true => rfl
  | _ => rfl

theorem next_of_sequential (hop : op.advance = .sequential) :
    c.next.regs.pc = c.regs.pc + UInt8.ofNat op.size ∧ c.next.state = .running := by
  have hne : op ≠ .halt := by
    rintro rfl
    cases hop
  refine ⟨?_, state_next_of_ne_halt ho hne⟩
  rw [pc_next_of_ne_halt ho hne, Opcode.takes_of_sequential hop]
  rfl

theorem next_of_halt (hop : op.advance = .halt) :
    c.next.regs.pc = c.regs.pc ∧ c.next.state = .halted := by
  obtain rfl := Opcode.eq_halt_of_advance hop
  rw [next_of_execute ho]
  exact ⟨rfl, rfl⟩

theorem next_of_jump (hop : op.advance = .jump) :
    c.next.regs.pc =
        (if op.takes c.flags.equal then Bus.read c.memory (c.regs.pc + 1)
        else c.regs.pc + UInt8.ofNat op.size) ∧
      c.next.state = .running := by
  have hne : op ≠ .halt := by
    rintro rfl
    cases hop
  exact ⟨pc_next_of_ne_halt ho hne, state_next_of_ne_halt ho hne⟩

end

end Core

namespace Advance

section

variable {μ ω : Type} [Bus μ] [Sink ω] (v : Verbosity)

/-- **The table, the listing and the execution agree.**  A tick of a running machine fails
exactly if decoding the fetched byte fails, and exactly if the line at the program counter
names no instruction.  Otherwise the line names the decoded instruction, and it is as long
as the opcode says.  After the tick the program counter is where the advance of the opcode
puts it: behind the line, at the line if the machine has halted, or at the one operand of
the line if a jump is taken. -/
theorem table_listing_and_execution_agree (m : Machine μ ω)
    (hs : m.core.state = .running) :
    let pc := m.core.regs.pc
    let decoded := Opcode.decode (Bus.read m.core.memory pc) pc
    let line := Line.decodeAt m.core.memory pc
    let behind := pc + UInt8.ofNat line.size
    let after := (m.tick v).machine.core
    (∀ e, (m.tick v).result = .error e ↔ decoded = .error e) ∧
    ((∃ e, decoded = .error e) ↔ line.instruction = none) ∧
    ∀ op, decoded = .ok op →
      line.instruction = some op ∧ line.size = op.size ∧
      op.size = 1 + op.operandCount ∧ op.size = 1 + line.operands.length ∧
      (op.advance = .sequential → after.regs.pc = behind ∧ after.state = .running) ∧
      (op.advance = .halt → after.regs.pc = pc ∧ after.state = .halted) ∧
      (op.advance = .jump → after.state = .running ∧
        ∃ target, line.operands = [target] ∧
          after.regs.pc = if op.takes m.core.flags.equal then target else behind) := by
  intro pc decoded line behind after
  have hafter : after = m.core.next := Machine.core_tick v m
  refine ⟨?_, ?_, ?_⟩
  · intro e
    rw [Machine.result_tick]
    exact Core.verdict_eq_error_iff_decode hs
  · rw [Line.instruction_decodeAt]
    constructor
    · rintro ⟨e, he⟩
      exact (Opcode.decode_eq_error_iff.1 he).1
    · intro hnone
      exact ⟨_, Opcode.decode_eq_error_iff.2 ⟨hnone, rfl⟩⟩
  · intro op hop
    have ho : m.core.outlook = .execute op := (Core.outlook_eq_execute_iff_decode hs).2 hop
    have hb := (Core.outlook_eq_execute_iff.1 ho).2
    have hline : line = ⟨pc, op.byte, some op, Line.operandsAt _ _ op.operandCount⟩ :=
      Line.decodeAt_of_ofByte? hb
    have hsize : line.size = op.size := Line.size_decodeAt hb
    have hbehind : behind = pc + UInt8.ofNat op.size := by
      rw [← hsize]
    rw [hafter, hbehind]
    refine ⟨by rw [hline], hsize, Nat.add_comm _ _, ?_, ?_, ?_, ?_⟩
    · rw [← hsize]
      exact Nat.add_comm _ _
    · exact Core.next_of_sequential ho
    · exact Core.next_of_halt ho
    · intro hjump
      obtain ⟨hpc, hrunning⟩ := Core.next_of_jump ho hjump
      refine ⟨hrunning, Bus.read m.core.memory (pc + 1), ?_, hpc⟩
      rw [hline, Opcode.operandCount_of_jump hjump]
      rfl

end

/-- A store at the end of the memory that overwrites itself. -/
def overwriting : Machine Bank Buffer :=
  ⟨((Core.powerOn (Bus.replay Bank.zero [(0xFF, 0x09), (0x00, 0xFF)])).assign 7).jump 0xFF,
    Buffer.empty⟩

/-- A jump to 0x40 at the end of the memory, which the flag lets happen. -/
def leaping : Machine Bank Buffer :=
  ⟨(Core.powerOn (Bus.replay Bank.zero [(0xFF, 0x14), (0x00, 0x40)])).jump 0xFF,
    Buffer.empty⟩

theorem table_listing_and_execution_agree_overwriting :
    overwriting.core.state = .running ∧
      (overwriting.tick .off).machine.core.memory.get 0xFF = 7 ∧
      (overwriting.tick .off).machine.core.regs.pc = 1 ∧
      leaping.core.state = .running ∧
      ∃ target, (Line.decodeAt leaping.core.memory 0xFF).operands = [target] ∧
        (leaping.tick .off).machine.core.regs.pc = target := by
  have hstored : (overwriting.tick .off).machine.core.memory.get 0xFF = 7 := by
    decide +kernel
  have hsize : (Line.decodeAt overwriting.core.memory 0xFF).size = 2 := by
    rfl
  obtain ⟨_, _, hst⟩ := table_listing_and_execution_agree .off overwriting rfl
  obtain ⟨_, _, _, _, hsequential, _⟩ := hst .st rfl
  obtain ⟨_, _, hjne⟩ := table_listing_and_execution_agree .off leaping rfl
  obtain ⟨_, _, _, _, _, _, hjump⟩ := hjne .jne rfl
  obtain ⟨_, target, hoperands, htaken⟩ := hjump rfl
  refine ⟨rfl, hstored, ?_, rfl, target, hoperands, htaken⟩
  rw [(hsequential rfl).1]
  change 0xFF + UInt8.ofNat (Line.decodeAt overwriting.core.memory 0xFF).size = 1
  rw [hsize]
  rfl

end Advance
end ByteMachine
