import ByteMachine.Proofs.Accounting
import ByteMachine.Proofs.Noninterference
import Mathlib.Data.List.Basic

/-!
# A state that recurs

What a tick makes of a running core does not depend on the tick counter, and what the address
and data registers held before is overwritten by the fetch.  Two cores that agree in
everything else are on the same course: they do the same from then on.  So a machine that
comes back to the course it was on has come round a loop, and it will come round again and
again.

**Invariant.**  Behind any number of rounds the core is on the course that it was on at the
same point of the first round.

**Results.**
* `SameCourse.next`, `SameCourse.notices`: one tick on the same course.
* `SameCourse.iterate_mul_add`: the invariant.
* `SameCourse.state_iterate`: a core that comes round a loop never halts.
* `SameCourse.gather_mul_add`: what is listed of the ticks is listed anew in each round.
* `recurring_state_recurs_forever`: all of it, for a machine and its bounded runs.
-/

namespace ByteMachine
namespace Core

section

variable {μ : Type}

/-- The cores differ in the address and data registers and in the tick counter at most. -/
structure SameCourse (c d : Core μ) : Prop where
  general_eq : d.regs.general = c.regs.general
  pc_eq : d.regs.pc = c.regs.pc
  current_eq : d.current = c.current
  flags_eq : d.flags = c.flags
  state_eq : d.state = c.state
  memory_eq : d.memory = c.memory

/-- The core with another count of ticks. -/
def withTicks (c : Core μ) (ticks : Nat) : Core μ :=
  { c with ticks := ticks }

variable [Bus μ]

theorem branch_withTicks (c : Core μ) (op : Opcode) (taken : Bool) (ticks : Nat) :
    (c.withTicks ticks).branch op taken = (c.branch op taken).withTicks ticks := by
  cases taken with
  | false => rfl
  | true => rfl

/-- No instruction looks at the tick counter. -/
theorem effect_withTicks (op : Opcode) (c : Core μ) (ticks : Nat) :
    effect op (c.withTicks ticks) = (effect op c).withTicks ticks := by
  cases op with
  | jeq => exact c.branch_withTicks .jeq c.flags.equal ticks
  | jne => exact c.branch_withTicks .jne (!c.flags.equal) ticks
  | _ => rfl

theorem gather_congr {α : Type} {f g : Core μ → List α} {c : Core μ}
    (h : ∀ k, f (next^[k] c) = g (next^[k] c)) (n : Nat) : c.gather f n = c.gather g n :=
  List.flatMap_congr fun k _ => h k

theorem notices_eq_printed {c : Core μ} (h : c.outlook ≠ .fault) :
    c.notices = c.printed.map .printed := by
  unfold notices printed
  cases ho : c.outlook with
  | idle => rfl
  | fault => exact absurd ho h
  | execute op => cases op <;> rfl

end

/-! ### One tick on the same course -/

namespace SameCourse

section

variable {μ : Type} {c d e : Core μ}

theorem refl (c : Core μ) : c.SameCourse c :=
  ⟨rfl, rfl, rfl, rfl, rfl, rfl⟩

theorem trans (h : c.SameCourse d) (h' : d.SameCourse e) : c.SameCourse e :=
  ⟨h'.general_eq.trans h.general_eq, h'.pc_eq.trans h.pc_eq,
    h'.current_eq.trans h.current_eq, h'.flags_eq.trans h.flags_eq,
    h'.state_eq.trans h.state_eq, h'.memory_eq.trans h.memory_eq⟩

theorem withTicks (c : Core μ) (ticks : Nat) : c.SameCourse (c.withTicks ticks) :=
  ⟨rfl, rfl, rfl, rfl, rfl, rfl⟩

/-- Apart from the tick counter the control parts are the same. -/
theorem sameControl (h : c.SameCourse d) : c.SameControl (d.withTicks c.ticks) :=
  ⟨h.pc_eq, h.current_eq, h.flags_eq, h.state_eq, rfl, h.memory_eq⟩

theorem value (h : c.SameCourse d) : d.value = c.value := by
  rw [Core.value, Registers.get, h.general_eq, h.current_eq]
  rfl

variable [Bus μ] (h : c.SameCourse d)
include h

theorem outlook : d.outlook = c.outlook :=
  h.sameControl.outlook

theorem printed : d.printed = c.printed := by
  unfold Core.printed
  rw [h.outlook, h.value]

/-- The fetch overwrites the address and data registers. -/
theorem fetch : d.fetch = c.fetch.withTicks d.ticks := by
  obtain ⟨⟨general, pc, mar, mdr⟩, flags, current, state, ticks, memory⟩ := c
  obtain ⟨⟨general', pc', mar', mdr'⟩, flags', current', state', ticks', memory'⟩ := d
  obtain ⟨rfl, rfl, rfl, rfl, rfl, rfl⟩ := h
  rfl

/-- A tick keeps two cores on the same course. -/
theorem next : c.next.SameCourse d.next := by
  have ho' := h.outlook
  cases ho : c.outlook with
  | idle =>
      rw [ho] at ho'
      rw [next_of_idle ho, next_of_idle ho']
      exact h
  | fault =>
      rw [ho] at ho'
      rw [next_of_fault ho, next_of_fault ho', h.fetch]
      exact withTicks c.fetch.halt d.ticks
  | execute op =>
      rw [ho] at ho'
      have hcount : d.fetch.count = c.fetch.count.withTicks (d.ticks + 1) := by
        rw [h.fetch]
        rfl
      rw [next_of_execute ho, next_of_execute ho', hcount, effect_withTicks]
      exact withTicks _ _

theorem iterate (n : Nat) : (Core.next^[n] c).SameCourse (Core.next^[n] d) := by
  induction n generalizing c d with
  | zero => exact h
  | succ n ih => exact ih h.next

theorem gather {α : Type} {f : Core μ → List α}
    (hf : ∀ {c d : Core μ}, c.SameCourse d → f d = f c) (n : Nat) :
    d.gather f n = c.gather f n := by
  induction n generalizing c d with
  | zero => rfl
  | succ n ih => rw [gather_succ, gather_succ, hf h, ih h.next]

end

/-! ### Coming round -/

section

variable {μ : Type} [Bus μ] {c : Core μ} {n : Nat} (h : c.SameCourse (Core.next^[n] c))
include h

/-- Behind any number of rounds the core is on the course of the first round. -/
theorem iterate_mul_add (q r : Nat) :
    (Core.next^[r] c).SameCourse (Core.next^[q * n + r] c) := by
  induction q with
  | zero =>
      rw [Nat.zero_mul, Nat.zero_add]
      exact refl _
  | succ q ih =>
      have hround : (q + 1) * n + r = (q * n + r) + n := by
        rw [Nat.succ_mul]
        omega
      rw [hround, Function.iterate_add_apply]
      exact ih.trans (h.iterate (q * n + r))

/-- A core that comes round a loop never halts. -/
theorem state_iterate (hs : c.state = .running) (hn : 1 ≤ n) (k : Nat) :
    (Core.next^[k] c).state = .running := by
  have hback : (Core.next^[n] c).state = .running := by
    rw [h.state_eq, hs]
  have hfirst : (Core.next^[k % n] c).state = .running :=
    state_iterate_of_le hback (Nat.le_of_lt (Nat.mod_lt k hn))
  rw [← Nat.div_add_mod' k n, (h.iterate_mul_add (k / n) (k % n)).state_eq, hfirst]

/-- What is listed of the ticks of a round is listed anew in each round. -/
theorem gather_mul_add {α : Type} {f : Core μ → List α}
    (hf : ∀ {c d : Core μ}, c.SameCourse d → f d = f c) (q r : Nat) :
    c.gather f (q * n + r) = (List.replicate q (c.gather f n)).flatten ++ c.gather f r := by
  induction q with
  | zero => rw [Nat.zero_mul, Nat.zero_add, List.replicate_zero, List.flatten_nil, List.nil_append]
  | succ q ih =>
      have hround : (q + 1) * n + r = n + (q * n + r) := by
        rw [Nat.succ_mul]
        omega
      rw [hround, gather_add, h.gather hf, ih, List.replicate_succ, List.flatten_cons,
        List.append_assoc]

end

end SameCourse
end Core

namespace Recurrence

section

variable {μ ω : Type} [Bus μ] [Sink ω] (v : Verbosity)

/-- **A state that recurs recurs forever.**  Let a running machine, after at least one tick,
still run and agree with what it was in all but the address and data registers, the tick
counter and the sink.  Then it never halts and never faults, and every bounded run spends its
budget.  After each number of rounds and some ticks more it agrees with what it was after so
many ticks of the first round, and it has printed what it prints in a round as often as it
has come round.  The sink is told nothing else. -/
theorem recurring_state_recurs_forever (m : Machine μ ω) (n : Nat)
    (hs : m.core.state = .running) (hn : 1 ≤ n) (h : m.core.SameCourse (m.after v n).core) :
    let printed k := m.core.gather Core.printed k
    (∀ max,
      (m.after v max).core.state = .running ∧
        (m.runUntilHalt v max).result = .ok false ∧ (m.runFor v max).result = .ok max) ∧
    (∀ q r, (m.after v r).core.SameCourse (m.after v (q * n + r)).core) ∧
    (∀ q r, printed (q * n + r) = (List.replicate q (printed n)).flatten ++ printed r) ∧
    ∀ k, (m.after v k).output = Sink.receiveAll m.output ((printed k).map .printed) := by
  intro printed
  rw [Machine.core_after] at h
  have hrunning := h.state_iterate hs hn
  refine ⟨?_, ?_, ?_, ?_⟩
  · intro max
    have hmax : (m.after v max).core.state = .running := by
      rw [Machine.core_after]
      exact hrunning max
    exact ⟨hmax, Machine.result_runUntilHalt_of_running v hmax,
      Machine.result_runFor_of_running v hmax⟩
  · intro q r
    rw [Machine.core_after, Machine.core_after]
    exact h.iterate_mul_add q r
  · exact h.gather_mul_add Core.SameCourse.printed
  · intro k
    have hok : ∀ j, (Core.next^[j] m.core).outlook ≠ .fault := by
      intro j ho
      have hhalted := Core.state_next_of_fault ho
      rw [← Function.iterate_succ_apply' Core.next, hrunning (j + 1)] at hhalted
      cases hhalted
    have htold : m.core.noticesOf k = (printed k).map .printed := by
      rw [Core.map_gather List.map_nil fun _ _ => List.map_append]
      exact Core.gather_congr (fun j => Core.notices_eq_printed (hok j)) k
    rw [Machine.output_after, htold]

end

/-- A loop that prints the current register and adds 128 to it, so that it takes two turns to
come back. -/
def turning : Machine Bank Buffer :=
  let memory := Bus.replay Bank.zero
    [(0, 0x06), (1, 0x0C), (2, 0), (3, 1), (4, 0x11), (5, 0)]
  ⟨((Core.powerOn memory).setRegister 0 5).setRegister 1 0x80, Buffer.empty⟩

theorem recurring_state_recurs_forever_turning :
    turning.core.state = .running ∧ turning.core.SameCourse (turning.after .off 6).core ∧
      (turning.runFor .off 1000000).result = .ok 1000000 ∧
      (turning.after .off (100000 * 6 + 1)).core.SameCourse (turning.after .off 1).core ∧
      turning.core.gather Core.printed (2 * 6 + 1) = [5, 133, 5, 133, 5] := by
  have h : turning.core.SameCourse (turning.after .off 6).core :=
    ⟨rfl, rfl, rfl, rfl, rfl, rfl⟩
  have hround : turning.core.gather Core.printed 6 = [5, 133] := by
    rfl
  have hfirst : turning.core.gather Core.printed 1 = [5] := by
    rfl
  obtain ⟨hruns, hrecurs, hprinted, _⟩ :=
    recurring_state_recurs_forever .off turning 6 rfl (by decide) h
  refine ⟨rfl, h, (hruns 1000000).2.2, ?_, ?_⟩
  · obtain ⟨hgeneral, hpc, hcurrent, hflags, hstate, hmemory⟩ := hrecurs 100000 1
    exact ⟨hgeneral.symm, hpc.symm, hcurrent.symm, hflags.symm, hstate.symm, hmemory.symm⟩
  · refine (hprinted 2 1).trans ?_
    simp only [hround, hfirst]
    rfl

end Recurrence
end ByteMachine
