import ByteMachine.Proofs.Outlook

/-!
# The effect on the registers

**Results.**
* `pc_effect`: where each instruction moves the program counter.
* `general_effect`: the general registers after each instruction.
* `sp_effect`: the stack pointer moves with a push and a pop, and stays where it
  is under any other instruction that does not assign to it.
-/

namespace ByteMachine

/-- Whether an instruction puts a value of its own into the current register. -/
def Opcode.assigns : Opcode → Bool
  | save | mul | ld | pop | add => true
  | _ => false

namespace Core

section

variable {μ : Type} [Bus μ] (op : Opcode) (c : Core μ)

@[simp]
theorem general_branch (taken : Bool) :
    (c.branch op taken).regs.general = c.regs.general := by
  cases taken with
  | false => rfl
  | true => rfl

/-- Only a halt instruction and a jump that is taken keep the program counter from
moving past the instruction. -/
theorem pc_effect :
    (effect op c).regs.pc =
      match op with
      | .halt => c.regs.pc
      | .jmp => Bus.read c.memory (c.regs.pc + 1)
      | .jeq =>
          if c.flags.equal then Bus.read c.memory (c.regs.pc + 1)
          else c.regs.pc + UInt8.ofNat op.size
      | .jne =>
          if c.flags.equal then c.regs.pc + UInt8.ofNat op.size
          else Bus.read c.memory (c.regs.pc + 1)
      | _ => c.regs.pc + UInt8.ofNat op.size := by
  cases op with
  | jeq =>
      simp only [effect, branch]
      split <;> rfl
  | jne =>
      simp only [effect, branch]
      cases c.flags.equal <;> rfl
  | _ => rfl

/-- Five instructions assign to the current register, and the two stack
instructions step the stack pointer. -/
theorem general_effect :
    (effect op c).regs.general =
      match op with
      | .save => c.regs.general.set c.current (Bus.read c.memory (c.regs.pc + 1))
      | .mul =>
          c.regs.general.set c.current
            (Alu.mul c.regs (Bus.read c.memory (c.regs.pc + 1))
              (Bus.read c.memory (c.regs.pc + 2)))
      | .add =>
          c.regs.general.set c.current
            (Alu.add c.regs (Bus.read c.memory (c.regs.pc + 1))
              (Bus.read c.memory (c.regs.pc + 2)))
      | .ld =>
          c.regs.general.set c.current
            (Bus.read c.memory (Bus.read c.memory (c.regs.pc + 1)))
      | .push => c.regs.general.set Registers.spIndex (c.regs.sp - 1)
      | .pop =>
          let g := c.regs.general.set c.current (Bus.read c.memory c.regs.sp)
          g.set Registers.spIndex (g.get Registers.spIndex + 1)
      | _ => c.regs.general := by
  cases op with
  | jeq => exact general_branch .jeq c c.flags.equal
  | jne => exact general_branch .jne c !c.flags.equal
  | _ => rfl

theorem sp_effect (h : op.assigns = true → c.current ≠ Registers.spIndex) :
    (effect op c).regs.sp =
      match op with
      | .push => c.regs.sp - 1
      | .pop => c.regs.sp + 1
      | _ => c.regs.sp := by
  simp only [Registers.sp, Registers.get, general_effect]
  cases op with
  | save => exact Bank.get_set_of_ne _ _ (h rfl)
  | mul => exact Bank.get_set_of_ne _ _ (h rfl)
  | ld => exact Bank.get_set_of_ne _ _ (h rfl)
  | add => exact Bank.get_set_of_ne _ _ (h rfl)
  | push => exact Bank.get_set_self _ _ _
  | pop =>
      rw [Bank.get_set_self, Bank.get_set_of_ne _ _ (h rfl)]
  | _ => rfl

end

end Core
end ByteMachine
