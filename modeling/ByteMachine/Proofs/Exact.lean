import ByteMachine.Proofs.Observers.Notices
import ByteMachine.Proofs.Reference.Refinement
import Mathlib.Logic.Function.Basic

/-!
# Bytes as remainders of exact numbers

The exact machine follows the rules of the instruction set, but its general registers hold
natural numbers of any size, and sums and products are not reduced.  It lacks the four
instructions that make something else of the value of a register: a byte of the memory, an
address, or the flag.  Of what is left nothing depends on the numbers but other numbers, so
both machines execute the same instructions, and reduction modulo 256 takes the numbers of
the one to the bytes of the other.

**Invariant.**  `Exact.ReducesTo`: the bytes are the remainders of the numbers, in the
registers and among what has been printed, and all else is the same.

**Results.**
* `ReducesTo.sum`, `ReducesTo.product`: reduction commutes with the two operations.
* `ReducesTo.execute`, `ReducesTo.step`: one instruction and one tick keep the invariant, and
  the exact machine has the instruction.
* `ReducesTo.run`: any number of ticks keep it, and the exact machine takes as many steps.
* `bytes_are_exact_numbers_reduced`: a machine and the exact machine that starts from it.
-/

namespace ByteMachine

/-- The instructions of the exact machine.  The four that are left out write the value of a
register to the memory, use one as an address, or compare two of them. -/
def Opcode.isExact : Opcode → Bool
  | halt | init | set | save | mul | prn | ld | add | jmp | jeq | jne => true
  | st | push | pop | cmp => false

/-- Whether a tick executes no instruction that the exact machine lacks. -/
def Outlook.isExact : Outlook → Bool
  | execute op => op.isExact
  | idle | fault => true

/-- The machine with natural numbers in its general registers. -/
structure Exact (μ : Type) where
  general : UInt8 → Nat
  pc : UInt8
  current : UInt8
  equal : Bool
  state : RunState
  memory : μ
  /-- The numbers printed so far, oldest first. -/
  printed : List Nat

namespace Exact

section

variable {μ : Type}

/-- The exact machine that starts with the values of a core, and has printed nothing. -/
def ofCore (c : Core μ) : Exact μ where
  general i := (c.regs.get i).toNat
  pc := c.regs.pc
  current := c.current
  equal := c.flags.equal
  state := c.state
  memory := c.memory
  printed := []

/-- The number in the current register. -/
def value (x : Exact μ) : Nat :=
  x.general x.current

/-- Put a number into the current register. -/
def assign (x : Exact μ) (n : Nat) : Exact μ :=
  { x with general := Function.update x.general x.current n }

def jump (x : Exact μ) (a : UInt8) : Exact μ :=
  { x with pc := a }

def select (x : Exact μ) (i : UInt8) : Exact μ :=
  { x with current := i }

def halt (x : Exact μ) : Exact μ :=
  { x with state := .halted }

def print (x : Exact μ) : Exact μ :=
  { x with printed := x.printed ++ [x.value] }

end

section

variable {μ : Type} [Bus μ]

/-- Execute an instruction, unless it is one of those that the exact machine lacks. -/
def execute (i : Instruction) (x : Exact μ) : Option (Exact μ) :=
  let next := x.pc + i.width
  match i with
  | .halt => some x.halt
  | .init => some ((x.select 0).jump next)
  | .set i => some ((x.select i).jump next)
  | .save b => some ((x.assign b.toNat).jump next)
  | .mul a b => some ((x.assign (x.general a * x.general b)).jump next)
  | .prn => some (x.print.jump next)
  | .ld a => some ((x.assign (Bus.read x.memory a).toNat).jump next)
  | .add a b => some ((x.assign (x.general a + x.general b)).jump next)
  | .jmp a => some (x.jump a)
  | .jeq a => some (x.jump (if x.equal then a else next))
  | .jne a => some (x.jump (if x.equal then next else a))
  | .st _ | .push | .pop | .cmp _ => none

/-- Take one step.  A byte that is no opcode halts the exact machine. -/
def step (x : Exact μ) : Option (Exact μ) :=
  match x.state with
  | .halted => some x
  | .running =>
      match Instruction.decode (Bus.read x.memory x.pc) (Bus.read x.memory (x.pc + 1))
          (Bus.read x.memory (x.pc + 2)) with
      | some i => x.execute i
      | none => some x.halt

/-- Take `n` steps. -/
def run : Nat → Exact μ → Option (Exact μ)
  | 0, x => some x
  | n + 1, x => x.step.bind (run n)

theorem run_succ_of_step {x y : Exact μ} (h : x.step = some y) (n : Nat) :
    run (n + 1) x = run n y := by
  rw [run, h, Option.bind_some]

end

/-! ### Reduction -/

section

variable {μ : Type}

/-- The core `c`, which has printed `bytes`, is the exact machine with its numbers reduced
modulo 256. -/
structure ReducesTo (x : Exact μ) (c : Core μ) (bytes : List UInt8) : Prop where
  general : ∀ i, (c.regs.get i).toNat = x.general i % 256
  pc : c.regs.pc = x.pc
  current : c.current = x.current
  equal : c.flags.equal = x.equal
  state : c.state = x.state
  memory : c.memory = x.memory
  printed : bytes.map UInt8.toNat = x.printed.map (· % 256)

theorem reducesTo_ofCore (c : Core μ) : (ofCore c).ReducesTo c [] where
  general i := (Nat.mod_eq_of_lt (c.regs.get i).toNat_lt).symm
  pc := rfl
  current := rfl
  equal := rfl
  state := rfl
  memory := rfl
  printed := rfl

end

namespace ReducesTo

section

variable {μ : Type} {x : Exact μ} {c : Core μ} {bytes : List UInt8}
    (h : x.ReducesTo c bytes)
include h

/-! ### The parts of an instruction -/

theorem jump (a : UInt8) : (x.jump a).ReducesTo (c.jump a) bytes :=
  ⟨h.general, rfl, h.current, h.equal, h.state, h.memory, h.printed⟩

theorem select (i : UInt8) : (x.select i).ReducesTo (c.select i) bytes :=
  ⟨h.general, h.pc, rfl, h.equal, h.state, h.memory, h.printed⟩

theorem halt : x.halt.ReducesTo c.halt bytes :=
  ⟨h.general, h.pc, h.current, h.equal, rfl, h.memory, h.printed⟩

/-- The tick counter has no counterpart. -/
theorem count : x.ReducesTo c.count bytes :=
  ⟨h.general, h.pc, h.current, h.equal, h.state, h.memory, h.printed⟩

theorem advance (op : Opcode) :
    (x.jump (x.pc + UInt8.ofNat op.size)).ReducesTo (c.advance op) bytes := by
  rw [← h.pc]
  exact h.jump _

theorem assign {b : UInt8} {n : Nat} (hb : b.toNat = n % 256) :
    (x.assign n).ReducesTo (c.assign b) bytes := by
  refine ⟨?_, h.pc, h.current, h.equal, h.state, h.memory, h.printed⟩
  intro i
  rw [Core.get_assign, h.current]
  simp only [Exact.assign, Function.update_apply]
  by_cases hi : x.current = i
  · rw [if_pos hi, if_pos hi.symm]
    exact hb
  · rw [if_neg hi, if_neg (Ne.symm hi)]
    exact h.general i

theorem assign_byte (b : UInt8) : (x.assign b.toNat).ReducesTo (c.assign b) bytes :=
  h.assign (Nat.mod_eq_of_lt b.toNat_lt).symm

theorem value : c.value.toNat = x.value % 256 := by
  rw [Core.value, h.current]
  exact h.general x.current

theorem print : x.print.ReducesTo c (bytes ++ [c.value]) := by
  refine ⟨h.general, h.pc, h.current, h.equal, h.state, h.memory, ?_⟩
  simp only [Exact.print, List.map_append, List.map_cons, List.map_nil]
  rw [h.printed, h.value]

/-! ### Sums and products -/

theorem sum (a b : UInt8) :
    (Alu.add c.regs a b).toNat = (x.general a + x.general b) % 256 := by
  calc
    (Alu.add c.regs a b).toNat
        = ((c.regs.get a).toNat + (c.regs.get b).toNat) % 256 := UInt8.toNat_add _ _
    _ = (x.general a % 256 + x.general b % 256) % 256 := by rw [h.general, h.general]
    _ = (x.general a + x.general b) % 256 := (Nat.add_mod _ _ _).symm

theorem product (a b : UInt8) :
    (Alu.mul c.regs a b).toNat = x.general a * x.general b % 256 := by
  calc
    (Alu.mul c.regs a b).toNat
        = (c.regs.get a).toNat * (c.regs.get b).toNat % 256 := UInt8.toNat_mul _ _
    _ = (x.general a % 256) * (x.general b % 256) % 256 := by rw [h.general, h.general]
    _ = x.general a * x.general b % 256 := (Nat.mul_mod _ _ _).symm

end

section

variable {μ : Type} [Bus μ] {x : Exact μ} {c : Core μ} {bytes : List UInt8}
    (h : x.ReducesTo c bytes)
include h

/-! ### One tick -/

/-- A read of the memory shows in the address and data registers only, and these have no
counterpart. -/
theorem load (a : UInt8) : x.ReducesTo (c.address a).load bytes :=
  ⟨h.general, h.pc, h.current, h.equal, h.state, h.memory, h.printed⟩

theorem fetch : x.ReducesTo c.fetch bytes :=
  h.load c.regs.pc

theorem operand (n : UInt8) : x.ReducesTo (c.operand n) bytes :=
  h.load (c.regs.pc + n)

/-- A jump depends on the flag only, which no instruction of the exact machine changes. -/
theorem branch (op : Opcode) (taken : Bool) :
    (x.jump (if taken then Bus.read c.memory (c.regs.pc + 1)
      else x.pc + UInt8.ofNat op.size)).ReducesTo (c.branch op taken) bytes := by
  cases taken with
  | false => exact h.advance op
  | true => exact (h.operand 1).jump _

/-- An instruction does to the numbers what it does to the bytes. -/
theorem execute {op : Opcode} (hop : op.isExact = true) :
    ∃ y, x.execute (Instruction.ofOpcode op (Bus.read c.memory (c.regs.pc + 1))
        (Bus.read c.memory (c.regs.pc + 2))) = some y ∧
      y.ReducesTo (c.effect op) (bytes ++ if op = .prn then [c.value] else []) := by
  by_cases hprn : op = .prn
  · subst hprn
    exact ⟨_, rfl, h.print.advance .prn⟩
  rw [if_neg hprn, List.append_nil]
  have hoperand := h.operand 1
  cases op with
  | halt => exact ⟨_, rfl, h.halt⟩
  | init => exact ⟨_, rfl, (h.select 0).advance .init⟩
  | set => exact ⟨_, rfl, (hoperand.select _).advance .set⟩
  | save => exact ⟨_, rfl, (hoperand.assign_byte _).advance .save⟩
  | mul =>
      have hboth := hoperand.operand 2
      exact ⟨_, rfl, (hboth.assign (hboth.product _ _)).advance .mul⟩
  | prn => exact absurd rfl hprn
  | ld =>
      refine ⟨_, rfl, ?_⟩
      rw [← h.memory]
      exact ((hoperand.load _).assign_byte _).advance .ld
  | add =>
      have hboth := hoperand.operand 2
      exact ⟨_, rfl, (hboth.assign (hboth.sum _ _)).advance .add⟩
  | jmp => exact ⟨_, rfl, hoperand.jump _⟩
  | jeq =>
      refine ⟨_, rfl, ?_⟩
      rw [← h.equal]
      exact h.branch .jeq c.flags.equal
  | jne =>
      refine ⟨_, rfl, ?_⟩
      -- This jump is taken on the negated flag.
      change Exact.ReducesTo _ (c.branch .jne !c.flags.equal) bytes
      rw [← h.equal]
      cases c.flags.equal with
      | false => exact h.branch .jne true
      | true => exact h.branch .jne false
  | st => cases hop
  | push => cases hop
  | pop => cases hop
  | cmp => cases hop

/-- The step of the exact machine reads the instruction that the tick executes. -/
theorem step_of_running (hs : c.state = .running) :
    x.step =
      match Instruction.decode c.opcodeByte (Bus.read c.memory (c.regs.pc + 1))
          (Bus.read c.memory (c.regs.pc + 2)) with
      | some i => x.execute i
      | none => some x.halt := by
  rw [h.state] at hs
  unfold Exact.step Core.opcodeByte
  rw [hs, h.memory, h.pc]

/-- A tick does to the numbers what it does to the bytes. -/
theorem step (hexact : c.outlook.isExact = true) :
    ∃ y, x.step = some y ∧ y.ReducesTo c.next (bytes ++ c.printed) := by
  cases ho : c.outlook with
  | idle =>
      have hs := Core.outlook_eq_idle_iff.1 ho
      rw [h.state] at hs
      refine ⟨x, ?_, ?_⟩
      · rw [Exact.step, hs]
      · rw [Core.next_of_idle ho, Core.printed, ho, List.append_nil]
        exact h
  | fault =>
      obtain ⟨hs, hbyte⟩ := Core.outlook_eq_fault_iff.1 ho
      refine ⟨x.halt, ?_, ?_⟩
      · rw [h.step_of_running hs, Instruction.decode_eq_map, hbyte]
        rfl
      · rw [Core.next_of_fault ho, Core.printed, ho, List.append_nil]
        exact h.fetch.halt
  | execute op =>
      obtain ⟨hs, hbyte⟩ := Core.outlook_eq_execute_iff.1 ho
      rw [ho] at hexact
      obtain ⟨y, hy, hreduces⟩ := h.fetch.count.execute hexact
      refine ⟨y, ?_, ?_⟩
      · rw [h.step_of_running hs, Instruction.decode_eq_map, hbyte]
        exact hy
      · have hprinted : c.printed = if op = .prn then [c.value] else [] := by
          rw [Core.printed, ho]
          cases op <;> rfl
        rw [Core.next_of_execute ho, hprinted]
        exact hreduces

/-! ### Any number of ticks -/

theorem run {n : Nat} (hexact : ∀ k < n, (Core.next^[k] c).outlook.isExact = true) :
    ∃ y, Exact.run n x = some y ∧
      y.ReducesTo (Core.next^[n] c) (bytes ++ c.gather Core.printed n) := by
  induction n generalizing x c bytes with
  | zero =>
      rw [Core.gather_zero, List.append_nil]
      exact ⟨x, rfl, h⟩
  | succ n ih =>
      obtain ⟨y, hy, hstep⟩ := h.step (hexact 0 (Nat.succ_pos n))
      obtain ⟨z, hz, hrun⟩ := ih hstep fun k hk => hexact (k + 1) (Nat.succ_lt_succ hk)
      refine ⟨z, ?_, ?_⟩
      · rw [run_succ_of_step hy]
        exact hz
      · rw [Core.gather_succ, ← List.append_assoc]
        exact hrun

end

end ReducesTo

/-! ### Machines with a sink -/

section

variable {μ ω : Type} [Bus μ] [Sink ω] (v : Verbosity)

/-- **Bytes are exact numbers reduced.**  Of the next `n` ticks of a machine none executes an
instruction that the exact machine lacks.  Then the exact machine that starts with the values
of the machine takes as many steps, and after each of them the registers of the machine and
the bytes that it has printed are the numbers of the exact machine modulo 256, and the rest
of its state is the same.  These bytes are the values that the sink has received. -/
theorem bytes_are_exact_numbers_reduced (m : Machine μ ω) (n : Nat)
    (hexact : ∀ k < n, (m.after v k).core.outlook.isExact = true) :
    ∀ k ≤ n,
      (∃ x, run k (ofCore m.core) = some x ∧
        x.ReducesTo (m.after v k).core (m.core.gather Core.printed k)) ∧
      (m.after v k).output = Sink.receiveAll m.output (m.core.noticesOf k) ∧
      (m.core.noticesOf k).filterMap Notice.value? = m.core.gather Core.printed k := by
  intro k hk
  refine ⟨?_, Machine.output_after v k m, ?_⟩
  · have hsteps : ∀ j < k, (Core.next^[j] m.core).outlook.isExact = true := by
      intro j hj
      rw [← Machine.core_after v]
      exact hexact j (Nat.lt_of_lt_of_le hj hk)
    rw [Machine.core_after]
    exact (reducesTo_ofCore m.core).run hsteps
  · have hvalues := Core.map_gather List.filterMap_nil
      (fun _ _ => List.filterMap_append) Core.notices k m.core (F := List.filterMap Notice.value?)
    simp only [Core.filterMap_value_notices] at hvalues
    exact hvalues

end

/-- A program that puts 201 into register 0, and then squares and prints it for ever. -/
def squaring : Machine Bank Buffer :=
  Machine.powerOn
    (Bus.replay Bank.zero
      [(0, 0x04), (1, 201), (2, 0x05), (3, 0), (4, 0), (5, 0x06), (6, 0x11), (7, 2)])
    Buffer.empty

theorem bytes_are_exact_numbers_reduced_squaring :
    (∀ k < 6, (squaring.after .off k).core.outlook.isExact = true) ∧
      (∃ x, run 6 (ofCore squaring.core) = some x ∧
        x.printed = [40401, 1632240801] ∧ x.general 0 = 1632240801 ∧
        x.ReducesTo (squaring.after .off 6).core [209, 161]) ∧
      (squaring.after .off 6).output = ⟨#[209, 161], #[]⟩ := by
  have hexact : ∀ k < 6, (squaring.after .off k).core.outlook.isExact = true := by
    decide
  have hbytes : squaring.core.gather Core.printed 6 = [209, 161] := by
    rfl
  have hnotices : squaring.core.noticesOf 6 = [.printed 209, .printed 161] := by
    rfl
  have hnumbers : (run 6 (ofCore squaring.core)).map (fun x => (x.printed, x.general 0)) =
      some ([40401, 1632240801], 1632240801) := by
    rfl
  obtain ⟨⟨x, hrun, hreduces⟩, houtput, -⟩ :=
    bytes_are_exact_numbers_reduced .off squaring 6 hexact 6 (Nat.le_refl 6)
  rw [hrun, Option.map_some] at hnumbers
  obtain ⟨hprinted, hgeneral⟩ := Prod.mk.inj (Option.some.inj hnumbers)
  rw [hbytes] at hreduces
  rw [hnotices] at houtput
  exact ⟨hexact, ⟨x, hrun, hprinted, hgeneral, hreduces⟩, houtput⟩

end Exact
end ByteMachine
