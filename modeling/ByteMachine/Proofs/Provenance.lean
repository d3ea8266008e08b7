import ByteMachine.Proofs.Effect
import ByteMachine.Proofs.Footprint.Cells
import ByteMachine.Proofs.History.Steps
import ByteMachine.Sink.Buffer

/-!
# Where the flag and the current register come from

The flag and the current register are the two parts of the core that an instruction
leaves for a later one to use.  Few steps put anything there, and each of them puts a
value there that can be told from the core it finds.

**Invariant.**  The flag is what the last step that set it has put there, or false if
there is none, and the current register is the one last selected, or 0.  So a conditional
jump goes by the last comparison, whatever has become of the compared registers.

**Results.**
* `Command.equal_apply`, `Command.current_apply`: one step keeps the invariant.
* `flag_and_selection_are_the_last_ones`: the invariant at every point of a history, and
  what the conditional jumps make of it.
-/

namespace ByteMachine
namespace Core

section

variable {μ : Type} [Bus μ]

/-- What the next tick puts into the flag: whether the two registers that it compares are
equal. -/
def comparisons (c : Core μ) : List Bool :=
  match c.outlook with
  | .execute .cmp => [c.regs.get c.current == c.regs.get c.operandByte]
  | _ => []

/-- The register that the next tick selects. -/
def selections (c : Core μ) : List UInt8 :=
  match c.outlook with
  | .execute .set => [c.operandByte]
  | .execute .init => [0]
  | _ => []

variable {c : Core μ}

/-- A tick leaves the flag alone unless it compares. -/
theorem equal_next : c.next.flags.equal = c.comparisons.getLastD c.flags.equal := by
  cases h : c.outlook with
  | idle => simp only [next_of_idle h, comparisons, h, List.getLastD_nil]
  | fault =>
      rw [next_of_fault h]
      simp only [comparisons, h]
      rfl
  | execute op =>
      rw [next_of_execute h, flags_effect]
      simp only [comparisons, h]
      cases op <;> rfl

theorem current_next : c.next.current = c.selections.getLastD c.current := by
  cases h : c.outlook with
  | idle => simp only [next_of_idle h, selections, h, List.getLastD_nil]
  | fault =>
      rw [next_of_fault h]
      simp only [selections, h]
      rfl
  | execute op =>
      rw [next_of_execute h, current_effect]
      simp only [selections, h]
      cases op <;> rfl

/-- A conditional jump goes by the flag. -/
theorem pc_next_of_jeq (h : c.outlook = .execute .jeq) :
    c.next.regs.pc = if c.flags.equal then c.operandByte else c.regs.pc + 2 := by
  rw [next_of_execute h, pc_effect]
  rfl

theorem pc_next_of_jne (h : c.outlook = .execute .jne) :
    c.next.regs.pc = if c.flags.equal then c.regs.pc + 2 else c.operandByte := by
  rw [next_of_execute h, pc_effect]
  rfl

theorem comparisons_of_advance_eq_jump {op : Opcode} (h : c.outlook = .execute op)
    (hop : op.advance = .jump) : c.comparisons = [] := by
  simp only [comparisons, h]
  cases op with
  | cmp => cases hop
  | _ => rfl

end

end Core

namespace Command

section

variable {μ : Type} [Bus μ]

/-- What a single step puts into the flag. -/
def comparisons (cmd : Command) (c : Core μ) : List Bool :=
  match cmd with
  | tick => c.comparisons
  | setEqual b => [b]
  | reset => [false]
  | _ => []

/-- The register that a single step selects. -/
def selections (cmd : Command) (c : Core μ) : List UInt8 :=
  match cmd with
  | tick => c.selections
  | select i => [i]
  | reset => [0]
  | _ => []

variable {cmd : Command}

theorem equal_apply (h : cmd.isRun = false) (c : Core μ) :
    (cmd.apply c).flags.equal = (cmd.comparisons c).getLastD c.flags.equal := by
  cases cmd with
  | tick => exact Core.equal_next
  | runFor budget => cases h
  | runUntilHalt budget => cases h
  | clock k patience => cases h
  | _ => rfl

theorem current_apply (h : cmd.isRun = false) (c : Core μ) :
    (cmd.apply c).current = (cmd.selections c).getLastD c.current := by
  cases cmd with
  | tick => exact Core.current_next
  | runFor budget => cases h
  | runUntilHalt budget => cases h
  | clock k patience => cases h
  | _ => rfl

end

end Command

namespace Provenance

section

variable {μ ω : Type} [Bus μ] [Sink ω] (v : Verbosity)

/-- **The flag and the current register are the last ones set.**  At every point of a
history, which starts at power-on, the flag is the outcome of the last comparison, or
what the host or a reset has put there since, and the current register is the last one
selected.  No other step changes either of them.  A conditional jump goes by that flag,
and no jump changes it. -/
theorem flag_and_selection_are_the_last_ones (memory : μ) (o : ω) (cmds : List Command) :
    let start := Machine.powerOn memory o
    let steps := cmds.flatMap Command.unroll
    let core n := (Machine.performAll v (steps.take n) start).machine.core
    let flag n := (Machine.chronicle v Command.comparisons (steps.take n) start).getLastD false
    let selected n :=
      (Machine.chronicle v Command.selections (steps.take n) start).getLastD 0
    (∀ j, (Machine.performAll v (cmds.take j) start).machine.core =
      core ((cmds.take j).flatMap Command.unroll).length) ∧
    (∀ n, (core n).flags.equal = flag n ∧ (core n).current = selected n) ∧
    (∀ n step, steps[n]? = some step →
      (step.comparisons (core n) = [] → (core (n + 1)).flags = (core n).flags) ∧
        (step.selections (core n) = [] → (core (n + 1)).current = (core n).current)) ∧
    (∀ n, steps[n]? = some .tick →
      ((core n).outlook = .execute .jeq →
        (core (n + 1)).regs.pc =
          if flag n then (core n).operandByte else (core n).regs.pc + 2) ∧
      ((core n).outlook = .execute .jne →
        (core (n + 1)).regs.pc =
          if flag n then (core n).regs.pc + 2 else (core n).operandByte) ∧
      (∀ op, (core n).outlook = .execute op → op.advance = .jump →
        (core (n + 1)).flags = (core n).flags)) := by
  intro start steps core flag selected
  have hsingle : ∀ n, ∀ step ∈ steps.take n, step.isRun = false := by
    intro n step hstep
    exact Command.isRun_of_mem_flatMap_unroll (List.mem_of_mem_take hstep)
  have hflag : ∀ n, (core n).flags.equal = flag n := by
    intro n
    exact Machine.eq_getLastD_chronicle v (fun c => c.flags.equal)
      (fun _ c h => Command.equal_apply h c) (hsingle n) start
  have hselected : ∀ n, (core n).current = selected n := by
    intro n
    exact Machine.eq_getLastD_chronicle v Core.current
      (fun _ c h => Command.current_apply h c) (hsingle n) start
  have hnext : ∀ n step, steps[n]? = some step → core (n + 1) = step.apply (core n) := by
    intro n step hstep
    exact Machine.core_performAll_take_succ v hstep start
  have hrun : ∀ (n : Nat) (step : Command), steps[n]? = some step → step.isRun = false := by
    intro n step hstep
    exact Command.isRun_of_mem_flatMap_unroll (List.mem_of_getElem? hstep)
  have hkeep : ∀ n step, steps[n]? = some step → step.comparisons (core n) = [] →
      (core (n + 1)).flags = (core n).flags := by
    intro n step hstep hnone
    have hequal := Command.equal_apply (hrun n step hstep) (core n)
    rw [hnone, ← hnext n step hstep] at hequal
    exact congrArg Flags.mk hequal
  refine ⟨?_, fun n => ⟨hflag n, hselected n⟩, ?_, ?_⟩
  · intro j
    exact congrArg Machine.core (Machine.machine_performAll_take_unroll v cmds j start).symm
  · intro n step hstep
    refine ⟨hkeep n step hstep, ?_⟩
    intro hnone
    rw [hnext n step hstep, Command.current_apply (hrun n step hstep), hnone]
    rfl
  · intro n hstep
    refine ⟨?_, ?_, ?_⟩
    · intro ho
      rw [← hflag n, hnext n _ hstep]
      exact Core.pc_next_of_jeq ho
    · intro ho
      rw [← hflag n, hnext n _ hstep]
      exact Core.pc_next_of_jne ho
    · intro op ho hop
      exact hkeep n _ hstep (Core.comparisons_of_advance_eq_jump ho hop)

end

/-- Compare registers 0 and 1, give register 0 another value, and jump if they were
equal. -/
def comparing : Bank :=
  Bank.ofImage [0x16, 1, 0x04, 5, 0x13, 0x20]

theorem flag_and_selection_are_the_last_ones_comparing :
    let cmds : List Command := [.runFor 2, .select 3, .tick]
    let core n := (Machine.performAll .off ((cmds.flatMap Command.unroll).take n)
      (Machine.powerOn comparing Buffer.empty)).machine.core
    (core 3).outlook = .execute .jeq ∧ (core 3).flags.equal = true ∧
      (core 4).regs.pc = 0x20 ∧ (core 4).flags = (core 3).flags ∧ (core 4).current = 3 := by
  intro cmds core
  let start := Machine.powerOn comparing Buffer.empty
  let steps := cmds.flatMap Command.unroll
  have hjump : (core 3).outlook = .execute .jeq := by
    decide +kernel
  have hcompared :
      Machine.chronicle .off Command.comparisons (steps.take 3) start = [true] := by
    decide +kernel
  have hselected : Machine.chronicle .off Command.selections (steps.take 4) start = [3] := by
    decide +kernel
  have htarget : (core 3).operandByte = 0x20 := by
    decide +kernel
  obtain ⟨_, hlast, _, hjumps⟩ :=
    flag_and_selection_are_the_last_ones .off comparing Buffer.empty cmds
  obtain ⟨hjeq, _, hkeep⟩ := hjumps 3 rfl
  have hflag : (Machine.chronicle .off Command.comparisons (steps.take 3) start).getLastD false
      = true := by
    rw [hcompared]
    rfl
  refine ⟨hjump, (hlast 3).1.trans hflag, ?_, ?_, ?_⟩
  · rw [hjeq hjump, if_pos hflag]
    exact htarget
  · rw [hkeep .jeq hjump rfl]
  · exact (hlast 4).2.trans (congrArg (List.getLastD · 0) hselected)

end Provenance
end ByteMachine
