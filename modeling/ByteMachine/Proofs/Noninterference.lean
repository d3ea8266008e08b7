import ByteMachine.Proofs.Effect
import ByteMachine.Proofs.Footprint.Cells
import ByteMachine.Proofs.Observers.Trace

/-!
# How data reaches control

What the machine does next is decided by its control part: the program counter, the
current register, the flag, the run state and the memory.  The general registers hold
data.  An instruction that computes on them leaves its result among them, and a printed
value is lost to the machine.  Three instructions only pass data on to the control part: a
store and a push write it to memory, and a comparison of two registers sets the flag.  A
comparison of a register with itself always finds its operands equal, whatever they are.

**Invariant.**  Two machines that run side by side have the same control part, although
their general registers, and with them their stack pointers, have nothing in common.

**Results.**
* `SameControl.effect`, `SameControl.next`: an instruction and a tick that pass no data on
  keep the invariant.
* `SameControl.records`, `SameControl.notices`: under the invariant a tick makes the same
  records, and tells the sink the same but for the printed values.
* `data_reaches_control_through_three_instructions`: the two runs, tick by tick.
-/

namespace ByteMachine
namespace Core

section

variable {μ : Type}

/-- The two cores have the same control part. -/
structure SameControl (c d : Core μ) : Prop where
  pc_eq : d.regs.pc = c.regs.pc
  current_eq : d.current = c.current
  flags_eq : d.flags = c.flags
  state_eq : d.state = c.state
  ticks_eq : d.ticks = c.ticks
  memory_eq : d.memory = c.memory

variable [Bus μ]

/-- Whether the next tick stores, pushes, or compares the current register with another
one. -/
def reveals (c : Core μ) : Bool :=
  match c.outlook with
  | .execute .st | .execute .push => true
  | .execute .cmp => c.operandByte != c.current
  | _ => false

end

/-! ### One step on two machines -/

namespace SameControl

section

variable {μ : Type} [Bus μ] {c d : Core μ} (h : c.SameControl d)
include h

theorem opcodeByte : d.opcodeByte = c.opcodeByte := by
  rw [Core.opcodeByte, h.memory_eq, h.pc_eq]
  rfl

theorem outlook : d.outlook = c.outlook := by
  unfold Core.outlook
  rw [h.state_eq, h.opcodeByte]

theorem faultHere : d.faultHere = c.faultHere := by
  rw [Core.faultHere, h.opcodeByte, h.pc_eq]
  rfl

theorem lineHere : d.lineHere = c.lineHere := by
  rw [Core.lineHere, h.memory_eq, h.pc_eq]
  rfl

theorem verdict : d.verdict = c.verdict := by
  unfold Core.verdict
  rw [h.outlook, h.faultHere]

/-- The records of a tick show nothing of the registers but the program counter. -/
theorem records : d.records = c.records := by
  unfold Core.records
  rw [h.outlook, h.faultHere, h.lineHere, h.pc_eq]

/-- The sink is told the same, but for the values that are printed. -/
theorem notices : d.notices.map Notice.fault? = c.notices.map Notice.fault? := by
  unfold Core.notices
  rw [h.outlook, h.faultHere]
  cases c.outlook with
  | idle => rfl
  | fault => rfl
  | execute op => cases op <;> rfl

/-- An instruction that neither writes nor compares two registers. -/
theorem effect {op : Opcode} (hst : op ≠ .st) (hpush : op ≠ .push)
    (hcmp : op = .cmp → c.operandByte = c.current) :
    (Core.effect op c).SameControl (Core.effect op d) where
  pc_eq := by
    rw [pc_effect, pc_effect, h.pc_eq, h.memory_eq, h.flags_eq]
  current_eq := by
    rw [current_effect, current_effect, h.pc_eq, h.memory_eq, h.current_eq]
  flags_eq := by
    rw [flags_effect, flags_effect]
    cases op with
    | cmp =>
        -- Both comparisons are of a register with itself.
        have hself : Bus.read c.memory (c.regs.pc + 1) = c.current := hcmp rfl
        simp only [h.pc_eq, h.memory_eq, h.current_eq, hself, Alu.cmp, beq_self_eq_true]
    | _ => exact h.flags_eq
  state_eq := by
    rw [state_effect, state_effect, h.state_eq]
  ticks_eq := by
    rw [ticks_effect, ticks_effect, h.ticks_eq]
  memory_eq := by
    rw [memory_effect, memory_effect, h.memory_eq]
    cases op with
    | st => exact absurd rfl hst
    | push => exact absurd rfl hpush
    | _ => rfl

/-- A tick that reveals no register. -/
theorem next (hr : c.reveals = false) : c.next.SameControl d.next := by
  have ho' := h.outlook
  cases ho : c.outlook with
  | idle =>
      rw [ho] at ho'
      rw [next_of_idle ho, next_of_idle ho']
      exact h
  | fault =>
      rw [ho] at ho'
      rw [next_of_fault ho, next_of_fault ho']
      exact ⟨h.pc_eq, h.current_eq, h.flags_eq, rfl, h.ticks_eq, h.memory_eq⟩
  | execute op =>
      rw [ho] at ho'
      simp only [reveals, ho] at hr
      have hfetched : c.fetch.count.SameControl d.fetch.count :=
        ⟨h.pc_eq, h.current_eq, h.flags_eq, h.state_eq, congrArg (· + 1) h.ticks_eq,
          h.memory_eq⟩
      rw [next_of_execute ho, next_of_execute ho']
      apply hfetched.effect
      · rintro rfl
        cases hr
      · rintro rfl
        cases hr
      · rintro rfl
        exact bne_eq_false_iff_eq.1 hr

/-- Two runs whose ticks reveal no register of the first machine. -/
theorem iterate {n : Nat} (hr : ∀ k < n, (Core.next^[k] c).reveals = false) :
    ∀ k ≤ n, (Core.next^[k] c).SameControl (Core.next^[k] d) := by
  intro k hk
  induction k with
  | zero => exact h
  | succ k ih =>
      rw [Function.iterate_succ_apply', Function.iterate_succ_apply']
      exact (ih (Nat.le_of_succ_le hk)).next (hr k hk)

end

end SameControl
end Core

namespace Noninterference

section

variable {μ ω ω' : Type} [Bus μ] [Sink ω] [Sink ω'] (v : Verbosity)

/-- **Data reaches control through three instructions only.**  Let two machines agree in
everything but the general registers, the address and data registers and the sink, and let
no tick of a run of the first one store, push, or compare the current register with
another one.  Then the ticks of the second machine return the same.  After each of them
the two machines still agree, and each tick makes the same records, the traces among them,
and tells the two sinks of the same faults and of as many printed values. -/
theorem data_reaches_control_through_three_instructions (s : Machine μ ω)
    (t : Machine μ ω') (n : Nat) (h : s.core.SameControl t.core)
    (hr : ∀ k < n, (s.after v k).core.reveals = false) :
    (t.tickTimes v n).result = (s.tickTimes v n).result ∧
    (∀ k ≤ n, (s.after v k).core.SameControl (t.after v k).core) ∧
    (∀ k < n,
      let first := s.after v k
      let second := t.after v k
      (second.tick v).result = (first.tick v).result ∧
        (∃ own : List Record,
          (first.tick v).log =
              v.keep (own ++ Sink.recordAll first.output first.core.notices) ∧
            (second.tick v).log =
              v.keep (own ++ Sink.recordAll second.output second.core.notices)) ∧
        (Sink.Untraced ω → Sink.Untraced ω' →
          Record.ofSeverity .trace (second.tick v).log =
            Record.ofSeverity .trace (first.tick v).log) ∧
        (first.tick v).machine.output = Sink.receiveAll first.output first.core.notices ∧
        (second.tick v).machine.output =
          Sink.receiveAll second.output second.core.notices ∧
        second.core.notices.map Notice.fault? = first.core.notices.map Notice.fault?) := by
  have hrun : ∀ k ≤ n, (s.after v k).core.SameControl (t.after v k).core := by
    simp only [Machine.core_after] at hr ⊢
    exact h.iterate hr
  refine ⟨?_, hrun, ?_⟩
  · rw [Machine.result_tickTimes, Machine.result_tickTimes]
    apply List.map_congr_left
    intro k hk
    have hsame := hrun k (Nat.le_of_lt (List.mem_range.1 hk))
    rw [Machine.core_after, Machine.core_after] at hsame
    exact hsame.verdict
  · intro k hk first second
    have hsame : first.core.SameControl second.core := hrun k (Nat.le_of_lt hk)
    refine ⟨?_, ⟨first.core.records, Machine.log_tick v first, ?_⟩, ?_,
      Machine.output_tick v first, Machine.output_tick v second, hsame.notices⟩
    · rw [Machine.result_tick, Machine.result_tick, hsame.verdict]
    · rw [← hsame.records]
      exact Machine.log_tick v second
    · intro hω hω'
      rw [Machine.ofSeverity_trace_log_tick hω', Machine.ofSeverity_trace_log_tick hω,
        hsame.records]

end

/-- Pop a value and print it, compare the current register with itself, and jump to a byte
that is no opcode. -/
def showing : Machine Bank Buffer :=
  Machine.powerOn
    (Bus.replay Bank.zero
      [(0, 0x0B), (1, 0x06), (2, 0x16), (4, 0x13), (5, 0x08), (8, 0xFF)])
    Buffer.empty

/-- The same program on another stack, with another value in the data register. -/
def elsewhere : Machine Bank Logger :=
  ⟨(showing.core.setSp 5).data 9, ⟨⟩⟩

theorem data_reaches_control_through_three_instructions_showing :
    showing.core.SameControl elsewhere.core ∧
      (∀ k < 5, (showing.after .off k).core.reveals = false) ∧
      (elsewhere.tickTimes .off 5).result =
        [.ok (), .ok (), .ok (), .ok (), .error ⟨0xFF, 8⟩] ∧
      (elsewhere.after .off 5).core.regs.pc = 8 ∧
      Sink.Untraced Buffer ∧ Sink.Untraced Logger ∧
      Record.ofSeverity .trace ((elsewhere.after (.upTo .trace) 1).tick (.upTo .trace)).log =
        [.traced ⟨1, 0x06, some .prn, []⟩] := by
  -- For any core, so that the memory need not be compared cell by cell.
  have hdata : ∀ c : Core Bank, c.SameControl ((c.setSp 5).data 9) :=
    fun c => ⟨rfl, rfl, rfl, rfl, rfl, rfl⟩
  have h : showing.core.SameControl elsewhere.core := hdata showing.core
  have hr : ∀ v : Verbosity, ∀ k < 5, (showing.after v k).core.reveals = false := by
    have hcores : ∀ k < 5, (Core.next^[k] showing.core).reveals = false := by
      decide +kernel
    intro v k hk
    rw [Machine.core_after]
    exact hcores k hk
  have hresult : (showing.tickTimes .off 5).result =
      [.ok (), .ok (), .ok (), .ok (), .error ⟨0xFF, 8⟩] := by
    rfl
  have htrace : Record.ofSeverity .trace
      ((showing.after (.upTo .trace) 1).tick (.upTo .trace)).log =
        [.traced ⟨1, 0x06, some .prn, []⟩] := by
    rfl
  obtain ⟨hresults, hsame, _⟩ :=
    data_reaches_control_through_three_instructions .off showing elsewhere 5 h (hr .off)
  obtain ⟨_, _, hticks⟩ := data_reaches_control_through_three_instructions (.upTo .trace)
    showing elsewhere 5 h (hr (.upTo .trace))
  obtain ⟨_, _, htraces, _⟩ := hticks 1 (by decide)
  refine ⟨h, hr .off, hresults.trans hresult, ?_, Buffer.untraced, Logger.untraced,
    (htraces Buffer.untraced Logger.untraced).trans htrace⟩
  rw [(hsame 5 (Nat.le_refl 5)).pc_eq]
  rfl

end Noninterference
end ByteMachine
