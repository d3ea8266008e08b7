import ByteMachine.Proofs.Footprint.Cells

/-!
# The general registers that a tick reads and writes

Every instruction reads a few general registers at most, and the stack pointer is one
of them.  A register that an instruction does not read may hold anything before it.
The instruction does the same, and afterwards the register holds what it held before,
unless the instruction has written it.

**Results.**
* `effect_setRegister`: an instruction on a core with another value in a register
  that it does not read.
* `next_setRegister`, `notices_setRegister`: the same of a tick.
-/

namespace ByteMachine
namespace Core

section

variable {μ : Type} [Bus μ]

/-- The general registers that an instruction reads. -/
def registersReadBy (op : Opcode) (c : Core μ) : List UInt8 :=
  match op with
  | .add | .mul => [c.operandByte, Bus.read c.memory (c.regs.pc + 2)]
  | .cmp => [c.current, c.operandByte]
  | .st | .prn => [c.current]
  | .push => [c.current, Registers.spIndex]
  | .pop => [Registers.spIndex]
  | .halt | .init | .set | .save | .ld | .jmp | .jeq | .jne => []

/-- The general registers that an instruction writes. -/
def registersWrittenBy (op : Opcode) (c : Core μ) : List UInt8 :=
  match op with
  | .save | .ld | .add | .mul => [c.current]
  | .push => [Registers.spIndex]
  | .pop => [c.current, Registers.spIndex]
  | .halt | .init | .set | .prn | .st | .jmp | .jeq | .jne | .cmp => []

/-- The general registers that the next tick reads. -/
def registersRead (c : Core μ) : List UInt8 :=
  match c.outlook with
  | .execute op => c.registersReadBy op
  | _ => []

/-- The general registers that the next tick writes. -/
def registersWritten (c : Core μ) : List UInt8 :=
  match c.outlook with
  | .execute op => c.registersWrittenBy op
  | _ => []

end

/-! ### Steps of an instruction -/

section

variable {μ : Type} {c : Core μ} {i : UInt8} (x : UInt8)

theorem value_setRegister_of_ne (h : i ≠ c.current) :
    (c.setRegister i x).value = c.value :=
  c.regs.get_set_of_ne x h

theorem sp_setRegister_of_ne (h : i ≠ Registers.spIndex) :
    (c.setRegister i x).regs.sp = c.regs.sp :=
  c.regs.get_set_of_ne x h

theorem setSp_setRegister_of_ne (h : i ≠ Registers.spIndex) (y : UInt8) :
    (c.setRegister i x).setSp y = (c.setSp y).setRegister i x := by
  have hregs := c.regs.set_comm x y h
  simp only [setSp, Registers.setSp, setRegister, hregs]

theorem assign_setRegister_self (y : UInt8) :
    (c.setRegister c.current x).assign y = c.assign y := by
  have hregs := c.regs.set_set_self c.current x y
  simp only [assign, setRegister, hregs]

theorem assign_setRegister_of_ne (h : i ≠ c.current) (y : UInt8) :
    (c.setRegister i x).assign y = (c.assign y).setRegister i x := by
  have hregs := c.regs.set_comm x y h
  simp only [assign, setRegister, hregs]

/-- An instruction that ends with an assignment overwrites the current register, and
leaves any other register as it was. -/
theorem advance_assign_setRegister (op : Opcode) (y : UInt8) :
    ((c.setRegister i x).assign y).advance op =
      if i ∈ [c.current] then (c.assign y).advance op
      else ((c.assign y).advance op).setRegister i x := by
  by_cases h : i = c.current
  · subst h
    rw [if_pos (List.mem_singleton_self _), assign_setRegister_self]
  · rw [if_neg (by simpa using h), assign_setRegister_of_ne x h]
    rfl

end

/-! ### Instructions -/

section

variable {μ : Type} [Bus μ] {c : Core μ} {i : UInt8} (x : UInt8)

theorem branch_setRegister (op : Opcode) (taken : Bool) :
    (c.setRegister i x).branch op taken = (c.branch op taken).setRegister i x := by
  cases taken with
  | false => rfl
  | true => rfl

/-- Write the current register to the cell at the stack pointer. -/
def storeTop (c : Core μ) : Core μ :=
  ((c.address c.regs.sp).data c.value).store

/-- Read the cell at the stack pointer. -/
def loadTop (c : Core μ) : Core μ :=
  (c.address c.regs.sp).load

theorem push_eq (c : Core μ) : c.push = (c.setSp (c.regs.sp - 1)).storeTop := rfl

theorem pop_eq (c : Core μ) :
    c.pop = (c.loadTop.assign c.loadTop.regs.mdr).setSp
      ((c.loadTop.assign c.loadTop.regs.mdr).regs.sp + 1) := rfl

theorem storeTop_setRegister (hcur : i ≠ c.current) (hsp : i ≠ Registers.spIndex) :
    (c.setRegister i x).storeTop = c.storeTop.setRegister i x := by
  rw [storeTop, value_setRegister_of_ne x hcur, sp_setRegister_of_ne x hsp]
  rfl

theorem loadTop_setRegister (hsp : i ≠ Registers.spIndex) :
    (c.setRegister i x).loadTop = c.loadTop.setRegister i x := by
  rw [loadTop, sp_setRegister_of_ne x hsp]
  rfl

theorem push_setRegister (hcur : i ≠ c.current) (hsp : i ≠ Registers.spIndex) :
    (c.setRegister i x).push = c.push.setRegister i x := by
  rw [push_eq, sp_setRegister_of_ne x hsp, setSp_setRegister_of_ne x hsp]
  exact storeTop_setRegister x hcur hsp

/-- A pop overwrites the current register before it moves the stack pointer. -/
theorem pop_setRegister (hsp : i ≠ Registers.spIndex) :
    (c.setRegister i x).pop = if i = c.current then c.pop else c.pop.setRegister i x := by
  rw [pop_eq, loadTop_setRegister x hsp]
  by_cases h : i = c.current
  · subst h
    have hassign := assign_setRegister_self (c := c.loadTop) x c.loadTop.regs.mdr
    rw [if_pos rfl]
    exact congrArg (fun d : Core μ => d.setSp (d.regs.sp + 1)) hassign
  · have hassign := assign_setRegister_of_ne (c := c.loadTop) x h c.loadTop.regs.mdr
    change (((c.loadTop.setRegister i x).assign c.loadTop.regs.mdr).setSp
      (((c.loadTop.setRegister i x).assign c.loadTop.regs.mdr).regs.sp + 1)) = _
    rw [if_neg h, hassign, sp_setRegister_of_ne x hsp, setSp_setRegister_of_ne x hsp,
      ← pop_eq]

theorem combine_setRegister {f : Registers → UInt8 → UInt8 → UInt8} (op : Opcode)
    (hf : ∀ r : Registers, f (r.set i x) c.operandByte (Bus.read c.memory (c.regs.pc + 2)) =
      f r c.operandByte (Bus.read c.memory (c.regs.pc + 2))) :
    ((c.setRegister i x).combine f).advance op =
      if i ∈ [c.current] then (c.combine f).advance op
      else ((c.combine f).advance op).setRegister i x := by
  have hvalue := hf ((c.operand 1).operand 2).regs
  change ((((c.operand 1).operand 2).setRegister i x).assign
    (f (((c.operand 1).operand 2).regs.set i x) c.operandByte
      (Bus.read c.memory (c.regs.pc + 2)))).advance op = _
  rw [hvalue]
  exact advance_assign_setRegister x op _

/-- An instruction does not look at a register that it does not read.  Afterwards the
register holds what it held before, unless the instruction has written it. -/
theorem effect_setRegister (op : Opcode) (h : i ∉ c.registersReadBy op) :
    effect op (c.setRegister i x) =
      if i ∈ c.registersWrittenBy op then effect op c
      else (effect op c).setRegister i x := by
  cases op with
  | halt => rfl
  | init => rfl
  | set => rfl
  | prn => rfl
  | jmp => rfl
  | jeq => exact branch_setRegister x .jeq c.flags.equal
  | jne => exact branch_setRegister x .jne !c.flags.equal
  | save => exact advance_assign_setRegister (c := c.operand 1) x .save _
  | ld =>
      exact advance_assign_setRegister
        (c := ((c.operand 1).address c.operandByte).load) x .ld _
  | st =>
      have hvalue : (c.setRegister i x).value = c.value :=
        value_setRegister_of_ne x (by simpa [registersReadBy] using h)
      change ((((c.setRegister i x).operand 1).address c.operandByte).data
        (c.setRegister i x).value).store.advance .st = _
      rw [hvalue]
      rfl
  | cmp =>
      obtain ⟨hcur, hother⟩ : i ≠ c.current ∧ i ≠ c.operandByte := by
        simpa [registersReadBy] using h
      have hcmp : Alu.cmp (c.regs.set i x) c.current c.operandByte =
          Alu.cmp c.regs c.current c.operandByte := by
        rw [Alu.cmp, c.regs.get_set_of_ne x hcur, c.regs.get_set_of_ne x hother, Alu.cmp]
      change ({ (c.setRegister i x).operand 1 with
        flags := Alu.cmp (c.regs.set i x) c.current c.operandByte } : Core μ).advance .cmp = _
      rw [hcmp]
      rfl
  | add =>
      obtain ⟨h₁, h₂⟩ : i ≠ c.operandByte ∧ i ≠ Bus.read c.memory (c.regs.pc + 2) := by
        simpa [registersReadBy] using h
      refine combine_setRegister x .add fun r => ?_
      rw [Alu.add, r.get_set_of_ne x h₁, r.get_set_of_ne x h₂, Alu.add]
  | mul =>
      obtain ⟨h₁, h₂⟩ : i ≠ c.operandByte ∧ i ≠ Bus.read c.memory (c.regs.pc + 2) := by
        simpa [registersReadBy] using h
      refine combine_setRegister x .mul fun r => ?_
      rw [Alu.mul, r.get_set_of_ne x h₁, r.get_set_of_ne x h₂, Alu.mul]
  | push =>
      obtain ⟨hcur, hsp⟩ : i ≠ c.current ∧ i ≠ Registers.spIndex := by
        simpa [registersReadBy] using h
      have hpush := push_setRegister x hcur hsp
      rw [if_neg (by simpa [registersWrittenBy] using hsp)]
      simp only [effect, hpush]
      rfl
  | pop =>
      have hsp : i ≠ Registers.spIndex := by
        simpa [registersReadBy] using h
      have hpop := pop_setRegister (c := c) x hsp
      by_cases hcur : i = c.current
      · rw [if_pos hcur] at hpop
        rw [if_pos (by simp [registersWrittenBy, hcur])]
        simp only [effect, hpop]
      · rw [if_neg hcur] at hpop
        rw [if_neg (by simp [registersWrittenBy, hcur, hsp])]
        simp only [effect, hpop]
        rfl

/-! ### Ticks -/

theorem outlook_setRegister : (c.setRegister i x).outlook = c.outlook := rfl

theorem verdict_setRegister : (c.setRegister i x).verdict = c.verdict := rfl

theorem records_setRegister : (c.setRegister i x).records = c.records := rfl

theorem notices_setRegister (h : i ∉ c.registersRead) :
    (c.setRegister i x).notices = c.notices := by
  unfold notices
  rw [outlook_setRegister]
  cases ho : c.outlook with
  | idle => rfl
  | fault => rfl
  | execute op =>
      cases op with
      | prn =>
          have hcur : i ≠ c.current := by
            simpa [registersRead, registersReadBy, ho] using h
          rw [value_setRegister_of_ne x hcur]
      | _ => rfl

/-- A tick does not look at a register that it does not read.  Afterwards the register
holds what it held before, unless the tick has written it. -/
theorem next_setRegister (h : i ∉ c.registersRead) :
    (c.setRegister i x).next =
      if i ∈ c.registersWritten then c.next else c.next.setRegister i x := by
  have ho' := outlook_setRegister (c := c) (i := i) x
  cases ho : c.outlook with
  | idle =>
      rw [ho] at ho'
      simp only [next_of_idle ho, next_of_idle ho', registersWritten, ho]
      rfl
  | fault =>
      rw [ho] at ho'
      simp only [next_of_fault ho, next_of_fault ho', registersWritten, ho]
      rfl
  | execute op =>
      rw [ho] at ho'
      simp only [registersRead, ho] at h
      simp only [next_of_execute ho, next_of_execute ho', registersWritten, ho]
      exact effect_setRegister (c := c.fetch.count) x op h

end

end Core
end ByteMachine
