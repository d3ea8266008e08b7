import ByteMachine.Proofs.Effect
import ByteMachine.Proofs.Stack.Word

/-!
# The stack in memory is a stack

The stack of the machine lies in the memory that programs and data lie in, and
its pointer is a general register that any instruction may select.  So it is a
stack only as long as the program leaves it alone.  A program is disciplined if
it never assigns to the stack pointer, pops nothing from an empty stack, and
stores to no cell of the stack.

**Invariant.**  `Holds base c st`: the stack pointer is as many cells below
`base` as the list `st` is long, and the cells from `base` downwards hold the
elements of `st`, the oldest first.  All addresses are modulo 256.

**Results.**
* `Holds.next`: one tick of a disciplined program keeps the invariant.
* `lifo_of_disciplined`: in a whole run of a disciplined program the memory holds
  the abstract stack, every pop returns the value of the push that matches it,
  and after a balanced run the stack pointer is back where it was.
-/

namespace ByteMachine
namespace Stack

/-- The cell of the `j`-th oldest element. -/
def cell (base : UInt8) (j : Nat) : UInt8 :=
  base - 1 - UInt8.ofNat j

/-- The memory holds the list `st` in the cells below `base`. -/
structure Holds (base : UInt8) (c : Core Bank) (st : List UInt8) : Prop where
  sp_eq : c.regs.sp = base - UInt8.ofNat st.length
  cell_eq : ∀ j x, st.reverse[j]? = some x → c.memory.get (cell base j) = x

/-- The next tick leaves the stack to the stack instructions. -/
structure Disciplined (base : UInt8) (c : Core Bank) (st : List UInt8) : Prop where
  current_ne :
    c.outlook ∈
        [.execute .push, .execute .pop, .execute .save, .execute .ld, .execute .add,
          .execute .mul] →
      c.current ≠ Registers.spIndex
  nonempty : c.outlook = .execute .pop → st ≠ []
  clear :
    c.outlook = .execute .st →
      ∀ j < st.length, c.memory.get (c.regs.pc + 1) ≠ cell base j

instance (base : UInt8) (c : Core Bank) (st : List UInt8) :
    Decidable (Disciplined base c st) :=
  decidable_of_iff
    ((c.outlook ∈
          [.execute .push, .execute .pop, .execute .save, .execute .ld, .execute .add,
            .execute .mul] →
        c.current ≠ Registers.spIndex) ∧
      (c.outlook = .execute .pop → st ≠ []) ∧
      (c.outlook = .execute .st →
        ∀ j < st.length, c.memory.get (c.regs.pc + 1) ≠ cell base j))
    ⟨fun ⟨h₁, h₂, h₃⟩ => ⟨h₁, h₂, h₃⟩,
      fun h => ⟨h.current_ne, h.nonempty, h.clear⟩⟩

section

variable {base : UInt8} {c d : Core Bank} {st : List UInt8}

/-- The cell of the next element lies right below the stack pointer. -/
theorem sub_one_eq_cell (n : Nat) : base - UInt8.ofNat n - 1 = cell base n := by
  simp only [cell]
  grind

/-- The cell of the newest element is the one at the stack pointer. -/
theorem sub_succ_eq_cell (n : Nat) : base - UInt8.ofNat (n + 1) = cell base n := by
  rw [cell, UInt8.ofNat_add]
  grind

/-- The cells of a stack that fits into memory are different cells. -/
theorem cell_inj {i j : Nat} (hi : i < 256) (hj : j < 256)
    (h : cell base i = cell base j) : i = j := by
  have h' : UInt8.ofNat i = UInt8.ofNat j := by
    simpa [cell] using h
  have hn := congrArg UInt8.toNat h'
  rwa [UInt8.toNat_ofNat_of_lt' hi, UInt8.toNat_ofNat_of_lt' hj] at hn

theorem Holds.empty (c : Core Bank) : Holds c.regs.sp c [] := by
  constructor
  · simp
  · intro j x h
    simp at h

/-- The invariant looks at the stack pointer and at the cells of the stack only. -/
theorem Holds.congr (h : Holds base c st) (hsp : d.regs.sp = c.regs.sp)
    (hmem : ∀ j < st.length, d.memory.get (cell base j) = c.memory.get (cell base j)) :
    Holds base d st := by
  constructor
  · rw [hsp]
    exact h.sp_eq
  · intro j x hj
    have hlt : j < st.length := by
      obtain ⟨hlt, _⟩ := List.getElem?_eq_some_iff.1 hj
      simpa using hlt
    rw [hmem j hlt]
    exact h.cell_eq j x hj

/-- The stack pointer points at the top of a stack that is not empty. -/
theorem Holds.get_sp {x : UInt8} (h : Holds base c (x :: st)) :
    c.memory.get c.regs.sp = x := by
  have hsp : c.regs.sp = cell base st.length := by
    rw [h.sp_eq, List.length_cons, sub_succ_eq_cell]
  rw [hsp]
  apply h.cell_eq
  simp

theorem Holds.push (h : Holds base c st) (hfit : st.length < 256) (x : UInt8)
    (hsp : d.regs.sp = c.regs.sp - 1)
    (hmem : d.memory = c.memory.set (c.regs.sp - 1) x) : Holds base d (x :: st) := by
  have htop : c.regs.sp - 1 = cell base st.length := by
    rw [h.sp_eq, sub_one_eq_cell]
  constructor
  · rw [hsp, htop, List.length_cons, sub_succ_eq_cell]
  · intro j y hj
    rw [List.reverse_cons] at hj
    rw [hmem, htop]
    by_cases hlt : j < st.length
    · have hne : cell base st.length ≠ cell base j := by
        intro he
        have := cell_inj hfit (by omega) he
        omega
      rw [Bank.get_set_of_ne _ _ hne]
      apply h.cell_eq
      rwa [List.getElem?_append_left (by simpa using hlt)] at hj
    · have hle : j < st.length + 1 := by
        obtain ⟨hle, _⟩ := List.getElem?_eq_some_iff.1 hj
        simpa using hle
      obtain rfl : j = st.length := by omega
      rw [Bank.get_set_self]
      simpa using hj

theorem Holds.pop {x : UInt8} (h : Holds base c (x :: st))
    (hsp : d.regs.sp = c.regs.sp + 1) (hmem : d.memory = c.memory) :
    Holds base d st := by
  constructor
  · rw [hsp, h.sp_eq, List.length_cons, UInt8.ofNat_add]
    grind
  · intro j y hj
    rw [hmem]
    apply h.cell_eq
    obtain ⟨hlt, _⟩ := List.getElem?_eq_some_iff.1 hj
    rwa [List.reverse_cons, List.getElem?_append_left hlt]

/-- One tick of a disciplined program keeps the invariant. -/
theorem Holds.next (h : Holds base c st) (hd : Disciplined base c st)
    (hfit : (c.move.apply st).length ≤ 256) : Holds base c.next (c.move.apply st) := by
  cases ho : c.outlook with
  | idle =>
      have hmv : c.move = .other := by simp [Core.move, ho]
      rw [hmv, Core.next_of_idle ho]
      exact h
  | fault =>
      have hmv : c.move = .other := by simp [Core.move, ho]
      rw [hmv, Core.next_of_fault ho]
      exact h.congr rfl fun _ _ => rfl
  | execute op =>
      have hassign : op.assigns = true → c.current ≠ Registers.spIndex := by
        intro hop
        apply hd.current_ne
        rw [ho]
        cases op <;> simp [Opcode.assigns] at hop ⊢
      have hsp := Core.sp_effect op c.fetch.count hassign
      have hmem := Core.memory_effect op c.fetch.count
      rw [Core.next_of_execute ho]
      cases op with
      | push =>
          have hmv : c.move = .push c.value := by simp [Core.move, ho]
          have hne : c.current ≠ Registers.spIndex := hd.current_ne (by simp [ho])
          rw [hmv] at hfit ⊢
          apply h.push (Nat.lt_of_succ_le hfit) c.value hsp
          rw [hmem]
          change c.memory.set (c.regs.setSp (c.regs.sp - 1)).sp
            ((c.regs.setSp (c.regs.sp - 1)).get c.current) = _
          rw [Registers.sp_setSp, Registers.setSp, c.regs.get_set_of_ne _ hne.symm]
          rfl
      | pop =>
          have hmv : c.move = .pop := by simp [Core.move, ho]
          rw [hmv]
          cases st with
          | nil => exact absurd rfl (hd.nonempty ho)
          | cons x rest => exact h.pop hsp hmem
      | st =>
          have hmv : c.move = .other := by simp [Core.move, ho]
          rw [hmv]
          apply h.congr hsp
          intro j hj
          rw [hmem]
          exact Bank.get_set_of_ne _ _ (hd.clear ho j hj)
      | _ =>
          have hmv : c.move = .other := by simp [Core.move, ho]
          rw [hmv]
          apply h.congr hsp
          intro j _
          rw [hmem]
          rfl

/-- A pop puts the newest element into the current register. -/
theorem Holds.value_of_pop {x : UInt8} (h : Holds base c (x :: st))
    (ho : c.outlook = .execute .pop) (hc : c.current ≠ Registers.spIndex) :
    c.next.regs.get c.current = x := by
  rw [Core.next_of_execute ho, Registers.get, Core.general_effect]
  change ((c.regs.general.set c.current (c.memory.get c.regs.sp)).set
    Registers.spIndex _).get c.current = x
  rw [Bank.get_set_of_ne _ _ hc.symm, Bank.get_set_self, h.get_sp]

end

section

variable {ω : Type} [Sink ω] (v : Verbosity) {m : Machine Bank ω} {n : Nat}

/-- Along a run of a disciplined program the memory holds the abstract stack. -/
theorem holds_after
    (hd : ∀ k < n, Disciplined m.core.regs.sp (m.after v k).core (m.ghost v k))
    (hfit : ∀ k ≤ n, (m.ghost v k).length ≤ 256) :
    ∀ k ≤ n, Holds m.core.regs.sp (m.after v k).core (m.ghost v k) := by
  intro k hk
  induction k with
  | zero =>
      rw [Machine.ghost_zero]
      exact Holds.empty m.core
  | succ k ih =>
      have hfit' := hfit (k + 1) hk
      rw [Machine.ghost_succ] at hfit' ⊢
      rw [Machine.after_succ', Machine.core_tick]
      exact (ih (by omega)).next (hd k (by omega)) hfit'

theorem outlook_of_move_eq_pop {c : Core Bank} (h : c.move = .pop) :
    c.outlook = .execute .pop := by
  unfold Core.move at h
  split at h
  · cases h
  · assumption
  · cases h

/-- A pop takes the newest element off the abstract stack, and puts it into the
current register. -/
theorem exists_cons_of_pop
    (hd : ∀ k < n, Disciplined m.core.regs.sp (m.after v k).core (m.ghost v k))
    (hfit : ∀ k ≤ n, (m.ghost v k).length ≤ 256) {k : Nat} (hk : k < n)
    (hpop : (m.after v k).core.move = .pop) :
    ∃ x, m.ghost v k = x :: m.ghost v (k + 1) ∧
      (m.after v (k + 1)).core.regs.get (m.after v k).core.current = x := by
  have ho := outlook_of_move_eq_pop hpop
  have hholds := holds_after v hd hfit k (by omega)
  have hcur := (hd k hk).current_ne (by simp [ho])
  rw [Machine.ghost_succ, hpop, Machine.after_succ', Machine.core_tick]
  cases hg : m.ghost v k with
  | nil => exact absurd hg ((hd k hk).nonempty ho)
  | cons x rest =>
      rw [hg] at hholds
      exact ⟨x, rfl, hholds.value_of_pop ho hcur⟩

/-- **The stack is last in, first out.**  In every run of a disciplined program the
memory holds the abstract stack, every pop returns the value of the push that
matches it, and a balanced run brings the stack pointer back. -/
theorem lifo_of_disciplined
    (hd : ∀ k < n, Disciplined m.core.regs.sp (m.after v k).core (m.ghost v k))
    (hfit : ∀ k ≤ n, (m.ghost v k).length ≤ 256) :
    (∀ k ≤ n, Holds m.core.regs.sp (m.after v k).core (m.ghost v k)) ∧
      (∀ k < n, (m.after v k).core.move = .pop →
        ∃ x, m.ghost v k = x :: m.ghost v (k + 1) ∧
          (m.after v (k + 1)).core.regs.get (m.after v k).core.current = x) ∧
      (∀ j < n, (m.after v j).core.move = .pop →
        ∃ i < j, ∃ x, (m.after v i).core.move = .push x ∧
          Move.Balanced (m.moves v (i + 1) j)) ∧
      (∀ i j x, i < j → j < n → (m.after v i).core.move = .push x →
        (m.after v j).core.move = .pop → Move.Balanced (m.moves v (i + 1) j) →
          (m.after v (j + 1)).core.regs.get (m.after v j).core.current = x) ∧
      (Move.Balanced (m.moves v 0 n) → (m.after v n).core.regs.sp = m.core.regs.sp) := by
  refine ⟨holds_after v hd hfit, fun k hk => exists_cons_of_pop v hd hfit hk, ?_, ?_, ?_⟩
  · intro j hj hpop
    obtain ⟨x, hg, _⟩ := exists_cons_of_pop v hd hfit hj hpop
    obtain ⟨i, hij, hpush, _, hb⟩ := m.exists_push_of_ghost_eq_cons v j x _ hg
    exact ⟨i, hij, x, hpush, hb⟩
  · intro i j x hij hj hpush hpop hb
    obtain ⟨y, hg, hy⟩ := exists_cons_of_pop v hd hfit hj hpop
    rw [m.ghost_eq_cons_of_balanced v hij hpush hb] at hg
    obtain ⟨rfl, _⟩ := List.cons.inj hg
    exact hy
  · intro hb
    have h := (holds_after v hd hfit n (Nat.le_refl n)).sp_eq
    have hg : m.ghost v n = [] := Move.replay_of_balanced hb []
    rw [h, hg]
    simp

end

/-- A program that pushes 7 and 9 from two registers and pops them into a third one,
on a stack that crosses address 0. -/
def crossing : Machine Bank Buffer :=
  let program : List (UInt8 × UInt8) :=
    [(0x10, 0x04), (0x11, 0x07), (0x12, 0x0A), (0x13, 0x02), (0x14, 0x01),
      (0x15, 0x04), (0x16, 0x09), (0x17, 0x0A), (0x18, 0x02), (0x19, 0x02),
      (0x1A, 0x0B), (0x1B, 0x0B)]
  (Machine.powerOn (Bus.replay Bank.zero program) Buffer.empty).edit fun c =>
    (c.jump 0x10).setSp 1

theorem lifo_of_crossing :
    (∀ k < 8, Disciplined crossing.core.regs.sp (crossing.after .off k).core
        (crossing.ghost .off k)) ∧
      (∀ k ≤ 8, (crossing.ghost .off k).length ≤ 256) ∧
      (crossing.after .off 8).core.regs.get 2 = 7 ∧
      (crossing.after .off 8).core.regs.sp = 1 := by
  have hd : ∀ k < 8, Disciplined crossing.core.regs.sp (crossing.after .off k).core
      (crossing.ghost .off k) := by
    decide +kernel
  have hfit : ∀ k ≤ 8, (crossing.ghost .off k).length ≤ 256 := by
    decide +kernel
  have hbetween : Move.Balanced (crossing.moves .off 2 7) := by
    have hword : crossing.moves .off 2 7 = [.other, .other, .push 9, .other, .pop] := by
      decide +kernel
    rw [hword]
    exact .other (.other (.nested 9 (u := [.other]) (.other .nil) .nil))
  have hall : Move.Balanced (crossing.moves .off 0 8) := by
    have hword : crossing.moves .off 0 8 =
        .other :: .push 7 :: (crossing.moves .off 2 7 ++ [.pop]) := by
      decide +kernel
    rw [hword]
    exact .other (.nested 7 hbetween .nil)
  obtain ⟨_, _, _, hmatch, hsp⟩ := lifo_of_disciplined .off hd hfit
  refine ⟨hd, hfit, ?_, hsp hall⟩
  exact hmatch 1 7 7 (by decide) (by decide) (by decide +kernel) (by decide +kernel)
    hbetween

end Stack
end ByteMachine
