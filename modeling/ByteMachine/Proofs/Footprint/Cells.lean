import ByteMachine.Proofs.Trajectory

/-!
# The cells that a tick reads and writes

A tick looks at its memory in a few cells only: the bytes of the instruction at the
program counter, and the one data cell of a load or a pop.  It writes one cell at
most.  So a tick does the same on any two memories, even on different kinds of bus,
that agree on the cells it reads.

**Results.**
* `memory_next`: the memory after a tick is the memory before it with the writes of
  the tick carried out.
* `next_withMemory`, `verdict_withMemory`, `notices_withMemory`,
  `records_withMemory`: on another memory that agrees on the cells it reads, a tick
  does and shows the same, and makes the same writes.
-/

namespace ByteMachine
namespace Core

section

variable {μ ν : Type}

/-- The core with another memory. -/
def withMemory (c : Core μ) (memory : ν) : Core ν :=
  ⟨c.regs, c.flags, c.current, c.state, c.ticks, memory⟩

/-- The cells of the instruction of an opcode at the program counter. -/
def span (c : Core μ) (op : Opcode) : List UInt8 :=
  (List.range op.size).map fun k => c.regs.pc + UInt8.ofNat k

theorem regs_withMemory (c : Core μ) (memory : ν) :
    (c.withMemory memory).regs = c.regs := rfl

theorem address_withMemory (c : Core μ) (memory : ν) (a : UInt8) :
    (c.withMemory memory).address a = (c.address a).withMemory memory := rfl

theorem mem_span (c : Core μ) {op : Opcode} {k : Nat} (h : k < op.size) :
    c.regs.pc + UInt8.ofNat k ∈ c.span op :=
  List.mem_map.2 ⟨k, List.mem_range.2 h, rfl⟩

variable [Bus μ]

/-- The byte after the one at the program counter. -/
def operandByte (c : Core μ) : UInt8 :=
  Bus.read c.memory (c.regs.pc + 1)

/-- The writes of the next tick, address and byte. -/
def written (c : Core μ) : List (UInt8 × UInt8) :=
  match c.outlook with
  | .execute .st => [(c.operandByte, c.value)]
  | .execute .push => [(c.regs.sp - 1, (c.setSp (c.regs.sp - 1)).value)]
  | _ => []

/-- The data cell of a load or a pop. -/
def dataCell (c : Core μ) (op : Opcode) : List UInt8 :=
  match op with
  | .ld => [c.operandByte]
  | .pop => [c.regs.sp]
  | _ => []

/-- The cells that the next tick reads. -/
def cells (c : Core μ) : List UInt8 :=
  match c.outlook with
  | .idle => []
  | .fault => [c.regs.pc]
  | .execute op => c.span op ++ c.dataCell op

/-! ### Writes -/

section

variable {c : Core μ}

theorem written_of_execute {op : Opcode} (h : c.outlook = .execute op) :
    c.written = (writeOf op c.fetch.count).toList := by
  cases op with
  | st =>
      simp only [written, h]
      rfl
  | push =>
      simp only [written, h]
      change _ = [((c.regs.setSp (c.regs.sp - 1)).sp, (c.setSp (c.regs.sp - 1)).value)]
      rw [Registers.sp_setSp]
  | _ => simp [written, h, writeOf]

/-- The memory after a tick is the memory before it with the writes of the tick
carried out. -/
theorem memory_next (c : Core μ) : c.next.memory = Bus.replay c.memory c.written := by
  cases h : c.outlook with
  | idle => simp [next_of_idle h, written, h]
  | fault =>
      rw [next_of_fault h]
      simp [written, h, halt]
  | execute op =>
      rw [next_of_execute h, written_of_execute h]
      exact memory_effect op c.fetch.count

end

/-! ### Another memory -/

section

variable [Bus ν] {c : Core μ} {memory : ν}

theorem load_withMemory (h : Bus.read memory c.regs.mar = Bus.read c.memory c.regs.mar) :
    (c.withMemory memory).load = c.load.withMemory memory := by
  simp only [load, withMemory, h]
  rfl

theorem operand_withMemory {n : UInt8}
    (h : Bus.read memory (c.regs.pc + n) = Bus.read c.memory (c.regs.pc + n)) :
    (c.withMemory memory).operand n = (c.operand n).withMemory memory :=
  load_withMemory (c := c.address (c.regs.pc + n)) h

theorem fetch_withMemory (h : Bus.read memory c.regs.pc = c.opcodeByte) :
    (c.withMemory memory).fetch = c.fetch.withMemory memory :=
  load_withMemory (c := c.address c.regs.pc) h

theorem branch_withMemory {op : Opcode} {taken : Bool}
    (h : Bus.read memory (c.regs.pc + 1) = Bus.read c.memory (c.regs.pc + 1)) :
    (c.withMemory memory).branch op taken = (c.branch op taken).withMemory memory := by
  cases taken with
  | false => rfl
  | true =>
      simp only [branch, if_true, operand_withMemory h]
      rfl

theorem combine_withMemory {f : Registers → UInt8 → UInt8 → UInt8}
    (h₁ : Bus.read memory (c.regs.pc + 1) = Bus.read c.memory (c.regs.pc + 1))
    (h₂ : Bus.read memory (c.regs.pc + 2) = Bus.read c.memory (c.regs.pc + 2)) :
    (c.withMemory memory).combine f = (c.combine f).withMemory memory := by
  have h₂' : Bus.read memory ((c.operand 1).regs.pc + 2) =
      Bus.read (c.operand 1).memory ((c.operand 1).regs.pc + 2) := h₂
  simp only [combine, operand_withMemory h₁, operand_withMemory h₂']
  rfl

/-- On another memory that agrees on the cells it reads, an instruction has the same
effect, and makes the same write. -/
theorem effect_withMemory (op : Opcode)
    (h : ∀ a ∈ c.span op ++ c.dataCell op, Bus.read memory a = Bus.read c.memory a) :
    effect op (c.withMemory memory) =
      (effect op c).withMemory (Bus.replay memory (writeOf op c).toList) := by
  have h₁ : 1 < op.size →
      Bus.read memory (c.regs.pc + 1) = Bus.read c.memory (c.regs.pc + 1) := by
    intro hop
    exact h _ (List.mem_append_left _ (c.mem_span hop))
  have h₂ : 2 < op.size →
      Bus.read memory (c.regs.pc + 2) = Bus.read c.memory (c.regs.pc + 2) := by
    intro hop
    exact h _ (List.mem_append_left _ (c.mem_span hop))
  cases op with
  | halt => rfl
  | init => rfl
  | prn => rfl
  | push => rfl
  | set =>
      simp only [effect, operand_withMemory (h₁ (by decide))]
      rfl
  | save =>
      simp only [effect, operand_withMemory (h₁ (by decide))]
      rfl
  | jmp =>
      simp only [effect, operand_withMemory (h₁ (by decide))]
      rfl
  | cmp =>
      simp only [effect, operand_withMemory (h₁ (by decide))]
      rfl
  | st =>
      simp only [effect, operand_withMemory (h₁ (by decide)), writeOf]
      rfl
  | jeq => exact branch_withMemory (h₁ (by decide))
  | jne => exact branch_withMemory (h₁ (by decide))
  | add =>
      simp only [effect, combine_withMemory (h₁ (by decide)) (h₂ (by decide))]
      rfl
  | mul =>
      simp only [effect, combine_withMemory (h₁ (by decide)) (h₂ (by decide))]
      rfl
  | ld =>
      have hdata : Bus.read memory c.operandByte = Bus.read c.memory c.operandByte :=
        h _ (List.mem_append_right _ (List.mem_singleton_self _))
      have hload := load_withMemory
        (c := (c.operand 1).address (c.operand 1).regs.mdr) hdata
      simp only [effect, operand_withMemory (h₁ (by decide)), regs_withMemory,
        address_withMemory, hload]
      rfl
  | pop =>
      have hdata : Bus.read memory c.regs.sp = Bus.read c.memory c.regs.sp :=
        h _ (List.mem_append_right _ (List.mem_singleton_self _))
      have hload := load_withMemory (c := c.address c.regs.sp) hdata
      simp only [effect, pop, regs_withMemory, address_withMemory, hload]
      rfl

/-! ### A tick on another memory -/

theorem span_eq_addresses {op : Opcode} (h : c.outlook = .execute op) :
    c.span op = c.lineHere.addresses :=
  (Line.addresses_decodeAt (outlook_eq_execute_iff.1 h).2).symm

theorem pc_mem_cells (h : c.state = .running) : c.regs.pc ∈ c.cells := by
  cases ho : c.outlook with
  | idle =>
      rw [outlook_eq_idle_iff, h] at ho
      cases ho
  | fault => simp [cells, ho]
  | execute op =>
      simp only [cells, ho, span_eq_addresses ho]
      exact List.mem_append_left _ (Line.mem_addresses_decodeAt _ _)

variable (h : ∀ a ∈ c.cells, Bus.read memory a = Bus.read c.memory a)
include h

theorem opcodeByte_withMemory (hs : c.state = .running) :
    (c.withMemory memory).opcodeByte = c.opcodeByte :=
  h _ (pc_mem_cells hs)

theorem outlook_withMemory : (c.withMemory memory).outlook = c.outlook := by
  cases hs : c.state with
  | halted =>
      rw [outlook_eq_idle_iff.2 hs]
      exact outlook_eq_idle_iff.2 hs
  | running =>
      unfold outlook
      rw [opcodeByte_withMemory h hs]
      rfl

theorem lineHere_withMemory (hs : c.state = .running) :
    (c.withMemory memory).lineHere = c.lineHere := by
  apply Line.decodeAt_congr
  intro a ha
  rw [regs_withMemory] at ha
  apply h
  cases ho : c.outlook with
  | idle =>
      rw [outlook_eq_idle_iff, hs] at ho
      cases ho
  | fault =>
      have hb := (outlook_eq_fault_iff.1 ho).2
      rw [Line.decodeAt_of_ofByte?_eq_none hb] at ha
      simpa [cells, ho, Line.addresses, Line.size] using ha
  | execute op =>
      simp only [cells, ho, span_eq_addresses ho]
      exact List.mem_append_left _ ha

theorem faultHere_withMemory (hs : c.state = .running) :
    (c.withMemory memory).faultHere = c.faultHere := by
  rw [faultHere, opcodeByte_withMemory h hs]
  rfl

theorem verdict_withMemory : (c.withMemory memory).verdict = c.verdict := by
  unfold verdict
  rw [outlook_withMemory h]
  cases ho : c.outlook with
  | fault => rw [faultHere_withMemory h (outlook_eq_fault_iff.1 ho).1]
  | _ => rfl

theorem notices_withMemory : (c.withMemory memory).notices = c.notices := by
  unfold notices
  rw [outlook_withMemory h]
  cases ho : c.outlook with
  | idle => rfl
  | fault => rw [faultHere_withMemory h (outlook_eq_fault_iff.1 ho).1]
  | execute op => cases op <;> rfl

theorem records_withMemory : (c.withMemory memory).records = c.records := by
  unfold records
  rw [outlook_withMemory h]
  cases ho : c.outlook with
  | idle => rfl
  | fault => rw [faultHere_withMemory h (outlook_eq_fault_iff.1 ho).1]
  | execute op =>
      rw [lineHere_withMemory h (outlook_eq_execute_iff.1 ho).1]
      cases op <;> rfl

/-- On another memory that agrees on the cells it reads, a tick makes the same of the
core, and the same writes. -/
theorem next_withMemory :
    (c.withMemory memory).next = c.next.withMemory (Bus.replay memory c.written) := by
  have ho' := outlook_withMemory h
  cases ho : c.outlook with
  | idle =>
      rw [ho] at ho'
      rw [next_of_idle ho, next_of_idle ho']
      simp [written, ho]
  | fault =>
      rw [ho] at ho'
      have hb := opcodeByte_withMemory h (outlook_eq_fault_iff.1 ho).1
      rw [next_of_fault ho, next_of_fault ho', fetch_withMemory hb]
      simp only [written, ho]
      rfl
  | execute op =>
      rw [ho] at ho'
      have hb := opcodeByte_withMemory h (outlook_eq_execute_iff.1 ho).1
      have hcells : ∀ a ∈ c.span op ++ c.dataCell op,
          Bus.read memory a = Bus.read c.memory a := by
        intro a ha
        apply h
        simpa only [cells, ho] using ha
      rw [next_of_execute ho, next_of_execute ho', fetch_withMemory hb,
        written_of_execute ho]
      exact effect_withMemory (c := c.fetch.count) op hcells

end

end

end Core
end ByteMachine
