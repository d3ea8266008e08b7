import ByteMachine.Proofs.Observers.Notices
import ByteMachine.Sink.Buffer

/-!
# The account of a bounded run

A bounded run takes its ticks off a budget, and what it returns is the difference of two
readings of the tick counter.  The two numbers are linked by what the ticks do.  A tick of
a running machine executes an instruction, which is counted, or it meets a fault, which is
not.  So a run ends in one of three ways: the budget is spent, a halt instruction has been
executed, or a fault was met.

**Invariant.**  An instruction other than a halt adds one to the budget, to the executed
instructions and to the count, and does not change the way in which the run ends.

**Results.**
* `ticks_after`, `length_gather_executing_le`: the tick counter advances by the number of
  executed instructions, which is no more than the number of ticks.
* `eq_length_of_result_runFor`: so a bounded run returns the number of executed
  instructions, wherever the counter stands.
* `Ending.Of.prepend`: one instruction keeps the invariant.
* `exists_ending`, `Ending.Of.unique`: every run of a running machine ends in one way and
  in one way only.
* `result_runUntilHalt_of_running`, `result_runUntilHalt_of_halted`: what a run that asks for
  a halt returns, by the state at its end.
* `bounded_runs_account_exactly`: the whole account, and what is told of it by the run
  that asks for a halt.
-/

namespace ByteMachine

/-- The ways in which a bounded run of a running machine can end. -/
inductive Ending
  /-- The budget is spent and the machine still runs. -/
  | spent
  /-- A halt instruction was executed. -/
  | halted
  /-- A byte was fetched that is no opcode. -/
  | faulted (e : DecodeFault)
  deriving DecidableEq

/-- What a bounded run leaves behind, and what it has done on the way. -/
structure Account (μ : Type) where
  budget : Nat
  /-- The core that each executed instruction has found, in order. -/
  executed : List (Core μ)
  /-- What the sink was told, in order. -/
  told : List Notice
  result : Except DecodeFault Nat
  /-- The core at the end. -/
  last : Core μ

namespace Account

section

variable {μ : Type} [Bus μ]

/-- The budget went into instructions other than halts, and the machine still runs. -/
structure Spent (a : Account μ) : Prop where
  result_eq : a.result = .ok a.executed.length
  length_eq : a.executed.length = a.budget
  running : a.last.state = .running
  haltless : ∀ c ∈ a.executed, c.outlook ≠ .execute .halt
  told_eq : a.told.filterMap Notice.fault? = []

/-- The last instruction, and no earlier one, was a halt, and it stands at the program
counter. -/
structure Halted (a : Account μ) : Prop where
  result_eq : a.result = .ok a.executed.length
  length_pos : 1 ≤ a.executed.length
  length_le : a.executed.length ≤ a.budget
  halted : a.last.state = .halted
  halt_last : ∃ before c, a.executed = before ++ [c] ∧ c.outlook = .execute .halt ∧
    ∀ d ∈ before, d.outlook ≠ .execute .halt
  byte_eq : Bus.read a.last.memory a.last.regs.pc = 0x00
  told_eq : a.told.filterMap Notice.fault? = []

/-- The run has met the fault `e`, which it returns, and of which the sink was told once.
The byte that is no opcode stands at the program counter, and the address register and
the data register show its fetch. -/
structure Faulted (a : Account μ) (e : DecodeFault) : Prop where
  result_eq : a.result = .error e
  length_lt : a.executed.length < a.budget
  halted : a.last.state = .halted
  pc_eq : a.last.regs.pc = e.pc
  mar_eq : a.last.regs.mar = e.pc
  byte_eq : Bus.read a.last.memory e.pc = e.opcode
  mdr_eq : a.last.regs.mdr = e.opcode
  unmapped : Opcode.ofByte? e.opcode = none
  told_eq : a.told.filterMap Notice.fault? = [e]
  haltless : ∀ c ∈ a.executed, c.outlook ≠ .execute .halt

/-- The account of a run that has executed one more instruction, which has found `c`. -/
def prepend (c : Core μ) (a : Account μ) : Account μ :=
  ⟨a.budget + 1, c :: a.executed, c.notices ++ a.told, a.result.map (· + 1), a.last⟩

end

end Account

/-- Whether a run with this account has ended in this way. -/
def Ending.Of {μ : Type} [Bus μ] (a : Account μ) : Ending → Prop
  | spent => a.Spent
  | halted => a.Halted
  | faulted e => a.Faulted e

/-! ### Endings -/

namespace Ending

section

variable {μ : Type} [Bus μ] {a : Account μ}

/-- The result tells a fault from the other endings, and the run state at the end tells
the other two apart. -/
theorem Of.unique {x y : Ending} (hx : x.Of a) (hy : y.Of a) : x = y := by
  cases x with
  | spent =>
      cases y with
      | spent => rfl
      | halted => exact absurd (hx.running.symm.trans hy.halted) (by decide)
      | faulted e => exact absurd (hx.result_eq.symm.trans hy.result_eq) (by simp)
  | halted =>
      cases y with
      | spent => exact absurd (hy.running.symm.trans hx.halted) (by decide)
      | halted => rfl
      | faulted e => exact absurd (hx.result_eq.symm.trans hy.result_eq) (by simp)
  | faulted e =>
      cases y with
      | spent => exact absurd (hx.result_eq.symm.trans hy.result_eq) (by simp)
      | halted => exact absurd (hx.result_eq.symm.trans hy.result_eq) (by simp)
      | faulted e' =>
          have he : Except.error e = (Except.error e' : Except DecodeFault Nat) :=
            hx.result_eq.symm.trans hy.result_eq
          rw [Except.error.inj he]

/-- An instruction other than a halt does not change the way in which the run ends. -/
theorem Of.prepend {x : Ending} (h : x.Of a) {c : Core μ} {op : Opcode}
    (ho : c.outlook = .execute op) (hop : op ≠ .halt) : x.Of (a.prepend c) := by
  have hfirst : c.outlook ≠ .execute .halt := by
    rw [ho]
    exact fun he => hop (Outlook.execute.inj he)
  have htold : (a.prepend c).told.filterMap Notice.fault? =
      a.told.filterMap Notice.fault? := by
    have hverdict : c.verdict = .ok () := Core.verdict_eq_ok_iff.2 (by rw [ho]; simp)
    change (c.notices ++ a.told).filterMap Notice.fault? = _
    rw [List.filterMap_append, Core.filterMap_fault_notices,
      Core.faults_of_verdict_ok hverdict, List.nil_append]
  have hhaltless : (∀ d ∈ a.executed, d.outlook ≠ .execute .halt) →
      ∀ d ∈ (a.prepend c).executed, d.outlook ≠ .execute .halt := by
    intro hrest d hd
    rcases List.mem_cons.1 hd with rfl | hmem
    · exact hfirst
    · exact hrest d hmem
  cases x with
  | spent =>
      obtain ⟨hresult, hlength, hrunning, hrest, hnone⟩ := h
      refine ⟨?_, congrArg (· + 1) hlength, hrunning, hhaltless hrest, htold.trans hnone⟩
      exact congrArg (Except.map (· + 1)) hresult
  | halted =>
      obtain ⟨hresult, _, hlength, hhalted, ⟨before, d, hcut, hd, hbefore⟩, hbyte, hnone⟩ := h
      refine ⟨congrArg (Except.map (· + 1)) hresult, Nat.succ_pos _,
        Nat.succ_le_succ hlength, hhalted, ⟨c :: before, d, ?_, hd, ?_⟩, hbyte,
        htold.trans hnone⟩
      · exact congrArg (c :: ·) hcut
      · intro b hb
        rcases List.mem_cons.1 hb with rfl | hmem
        · exact hfirst
        · exact hbefore b hmem
  | faulted e =>
      obtain ⟨hresult, hlength, hhalted, hpc, hmar, hbyte, hmdr, hunmapped, hone, hrest⟩ := h
      exact ⟨congrArg (Except.map (· + 1)) hresult, Nat.succ_lt_succ hlength, hhalted, hpc,
        hmar, hbyte, hmdr, hunmapped, htold.trans hone, hhaltless hrest⟩

end

end Ending

namespace Core

section

variable {μ : Type} [Bus μ]

theorem length_executing_le (c : Core μ) : c.executing.length ≤ 1 := by
  unfold executing
  split
  · exact Nat.le_refl 1
  · exact Nat.zero_le 1

/-- No more instructions are executed than ticks are taken. -/
theorem length_gather_executing_le (n : Nat) (c : Core μ) :
    (c.gather executing n).length ≤ n := by
  induction n generalizing c with
  | zero => exact Nat.le_refl 0
  | succ n ih =>
      have hfirst := c.length_executing_le
      have hrest := ih c.next
      rw [gather_succ, List.length_append]
      omega

end

end Core

namespace Machine

section

variable {μ ω : Type} [Bus μ] [Sink ω] (v : Verbosity)

/-- The tick counter advances by the number of executed instructions. -/
theorem ticks_after (n : Nat) (m : Machine μ ω) :
    (m.after v n).core.ticks =
      m.core.ticks + (m.core.gather Core.executing n).length := by
  induction n generalizing m with
  | zero => rfl
  | succ n ih =>
      rw [after_succ, ih, core_tick, Core.ticks_next, Core.gather_succ, List.length_append]
      omega

/-- The difference of the tick counters is the number of executed instructions, wherever
the counter stands. -/
theorem eq_length_of_result_runFor {n k : Nat} {m : Machine μ ω}
    (h : (m.runFor v n).result = .ok k) : k = (m.core.gather Core.executing n).length := by
  have hticks := ticks_after v n m
  rw [← machine_runFor] at hticks
  have hcount : k = (m.runFor v n).machine.core.ticks - m.core.ticks := by
    simp only [runFor, Outcome.map] at h ⊢
    cases hr : (m.runUntil v isHalted n).result with
    | error e =>
        rw [hr] at h
        cases h
    | ok u =>
        rw [hr] at h
        exact (Except.ok.inj h).symm
  rw [hcount, hticks, Nat.add_sub_cancel_left]

/-- The account of a bounded run. -/
def account (budget : Nat) (m : Machine μ ω) : Account μ :=
  let run := m.runFor v budget
  ⟨budget, m.core.gather Core.executing budget, m.core.noticesOf budget, run.result,
    run.machine.core⟩

theorem account_zero (m : Machine μ ω) : m.account v 0 = ⟨0, [], [], .ok 0, m.core⟩ := by
  rw [account, runFor_zero]
  rfl

/-- A halted machine does nothing with its budget. -/
theorem account_of_halted {m : Machine μ ω} (h : m.core.state = .halted) (n : Nat) :
    m.account v n = ⟨n, [], [], .ok 0, m.core⟩ := by
  have hidle := Core.outlook_eq_idle_iff.2 h
  have hexecuted : m.core.gather Core.executing n = [] :=
    Core.gather_of_halted h (by simp only [Core.executing, hidle]) n
  have htold : m.core.noticesOf n = [] :=
    Core.gather_of_halted h (Core.notices_of_idle hidle) n
  rw [account, runFor_of_halted v n h, hexecuted, htold]

theorem account_succ_of_fault {m : Machine μ ω} (h : m.core.outlook = .fault) (n : Nat) :
    m.account v (n + 1) =
      ⟨n + 1, [], [.faulted m.core.faultHere], .error m.core.faultHere, m.core.next⟩ := by
  have hs := (Core.outlook_eq_fault_iff.1 h).1
  have hverdict : (m.tick v).result = .error m.core.faultHere := by
    rw [result_tick]
    exact Core.verdict_eq_error_iff.2 ⟨h, rfl⟩
  have hhalted := Core.state_next_of_fault h
  have hidle := Core.outlook_eq_idle_iff.2 hhalted
  have hexecuted : m.core.gather Core.executing (n + 1) = [] := by
    rw [Core.gather_succ, Core.executing_eq_nil (by rw [h]; simp), List.nil_append]
    exact Core.gather_of_halted hhalted (by simp only [Core.executing, hidle]) n
  have htold : m.core.noticesOf (n + 1) = [.faulted m.core.faultHere] := by
    rw [Core.noticesOf_succ, Core.notices_of_fault h]
    exact congrArg _ (Core.gather_of_halted hhalted (Core.notices_of_idle hidle) n)
  rw [account, runFor_succ_of_error v n hs hverdict, hexecuted, htold, core_tick]

/-- An instruction stands at the head of the account of the rest of the run. -/
theorem account_succ_of_execute {m : Machine μ ω} {op : Opcode}
    (h : m.core.outlook = .execute op) (n : Nat) :
    m.account v (n + 1) = ((m.tick v).machine.account v n).prepend m.core := by
  have hs := (Core.outlook_eq_execute_iff.1 h).1
  have hverdict : (m.tick v).result = .ok () := by
    rw [result_tick]
    exact Core.verdict_eq_ok_iff.2 (by rw [h]; simp)
  have hexecuted : m.core.gather Core.executing (n + 1) =
      m.core :: m.core.next.gather Core.executing n := by
    rw [Core.gather_succ]
    simp only [Core.executing, h, List.singleton_append]
  rw [account, runFor_succ_of_ok v n hs hverdict, hexecuted, Core.noticesOf_succ,
    ← core_tick v m]
  rfl

/-- A fault ends the run where it is met. -/
theorem faulted_of_fault {m : Machine μ ω} (h : m.core.outlook = .fault) (n : Nat) :
    (m.account v (n + 1)).Faulted m.core.faultHere := by
  have hunmapped := (Core.outlook_eq_fault_iff.1 h).2
  rw [account_succ_of_fault v h, Core.next_of_fault h]
  exact ⟨rfl, Nat.succ_pos n, rfl, rfl, rfl, rfl, rfl, hunmapped, rfl,
    fun _ hc => absurd hc List.not_mem_nil⟩

/-- A halt instruction ends the run, and is counted. -/
theorem halted_of_halt {m : Machine μ ω} (h : m.core.outlook = .execute .halt) (n : Nat) :
    (m.account v (n + 1)).Halted := by
  have hbyte : Opcode.halt.byte = m.core.opcodeByte :=
    Opcode.ofByte?_eq_some_iff.1 (Core.outlook_eq_execute_iff.1 h).2
  have hnext : (m.tick v).machine.core = m.core.fetch.count.halt := by
    rw [core_tick, Core.next_of_execute h]
    rfl
  have hhalted : (m.tick v).machine.core.state = .halted := by
    rw [hnext]
    rfl
  have htold : m.core.notices = [] := by
    simp only [Core.notices, h]
  rw [account_succ_of_execute v h, account_of_halted v hhalted, hnext]
  refine ⟨rfl, Nat.le_refl 1, Nat.succ_pos n, rfl, ⟨[], m.core, rfl, h, ?_⟩, hbyte.symm, ?_⟩
  · intro d hd
    exact absurd hd List.not_mem_nil
  · change (m.core.notices ++ []).filterMap Notice.fault? = []
    rw [htold]
    rfl

/-- An instruction other than a halt leaves a running machine running. -/
theorem running_tick_of_execute {m : Machine μ ω} {op : Opcode}
    (h : m.core.outlook = .execute op) (hop : op ≠ .halt) :
    (m.tick v).machine.core.state = .running := by
  rw [core_tick]
  exact Core.state_next_of_ne_halt h hop

/-- Every bounded run of a running machine comes to one of the three endings. -/
theorem exists_ending (n : Nat) {m : Machine μ ω} (hs : m.core.state = .running) :
    ∃ x : Ending, x.Of (m.account v n) := by
  induction n generalizing m with
  | zero =>
      refine ⟨.spent, ?_⟩
      rw [account_zero]
      exact ⟨rfl, rfl, hs, fun _ hc => absurd hc List.not_mem_nil, rfl⟩
  | succ n ih =>
      cases ho : m.core.outlook with
      | idle =>
          rw [Core.outlook_eq_idle_iff, hs] at ho
          cases ho
      | fault => exact ⟨.faulted m.core.faultHere, faulted_of_fault v ho n⟩
      | execute op =>
          by_cases hop : op = .halt
          · subst hop
            exact ⟨.halted, halted_of_halt v ho n⟩
          · obtain ⟨x, hx⟩ := ih (running_tick_of_execute v ho hop)
            refine ⟨x, ?_⟩
            rw [account_succ_of_execute v ho]
            exact hx.prepend ho hop

/-- A machine that still runs has spent the whole budget. -/
theorem result_runFor_of_running {n : Nat} {m : Machine μ ω}
    (h : (m.after v n).core.state = .running) : (m.runFor v n).result = .ok n := by
  have hs : m.core.state = .running := by
    rw [core_after] at h
    exact Core.state_iterate_of_le h (Nat.zero_le n)
  rw [← machine_runFor] at h
  obtain ⟨x, hx⟩ := exists_ending v n hs
  cases x with
  | spent =>
      have hresult := hx.result_eq
      rw [hx.length_eq] at hresult
      exact hresult
  | halted => exact absurd (h.symm.trans hx.halted) (by decide)
  | faulted e => exact absurd (h.symm.trans hx.halted) (by decide)

theorem result_runUntilHalt_of_running {n : Nat} {m : Machine μ ω}
    (h : (m.after v n).core.state = .running) : (m.runUntilHalt v n).result = .ok false := by
  rw [runUntilHalt, Outcome.result_map, result_runFor_of_running v h, machine_runFor,
    isHalted_of_running h]
  rfl

/-- A run that comes to a halt without a fault finds the halt. -/
theorem result_runUntilHalt_of_halted {n : Nat} {m : Machine μ ω} (hs : m.core.state = .running)
    (hh : (m.after v n).core.state = .halted)
    (htold : (m.core.noticesOf n).filterMap Notice.fault? = []) :
    (m.runUntilHalt v n).result = .ok true := by
  obtain ⟨x, hx⟩ := exists_ending v n hs
  cases x with
  | spent =>
      have hrunning : (m.runFor v n).machine.core.state = .running := hx.running
      rw [machine_runFor, hh] at hrunning
      cases hrunning
  | halted =>
      have hcount : (m.runFor v n).result = .ok _ := hx.result_eq
      rw [runUntilHalt, Outcome.result_map, hcount, machine_runFor, isHalted_of_halted hh]
      rfl
  | faulted e => exact absurd (hx.told_eq.symm.trans htold) (by simp)

/-- A run that asks for a halt passes on the fault of the bounded run. -/
theorem result_runUntilHalt_of_error {n : Nat} {m : Machine μ ω} {e : DecodeFault}
    (h : (m.runFor v n).result = .error e) : (m.runUntilHalt v n).result = .error e := by
  rw [runUntilHalt, Outcome.result_map, h]
  rfl

/-- A run that asks for a halt finds one if there was one at the start, or if the bounded
run has ended in one. -/
theorem result_runUntilHalt_of_ok {n k : Nat} {m : Machine μ ω}
    (h : (m.runFor v n).result = .ok k) :
    ∃ b, (m.runUntilHalt v n).result = .ok b ∧
      (b = true ↔ m.core.state = .halted ∨ (m.account v n).Halted) := by
  refine ⟨(m.runFor v n).machine.isHalted, ?_, ?_⟩
  · rw [runUntilHalt, Outcome.result_map, h]
    rfl
  · cases hs : m.core.state with
    | halted =>
        rw [runFor_of_halted v n hs]
        exact iff_of_true (isHalted_of_halted hs) (Or.inl rfl)
    | running =>
        obtain ⟨x, hx⟩ := exists_ending v n hs
        have hlast : (m.account v n).last = (m.runFor v n).machine.core := rfl
        cases x with
        | spent =>
            have hrunning : (m.runFor v n).machine.core.state = .running := hx.running
            have hnot : ¬ (m.account v n).Halted := fun hy =>
              absurd (Ending.Of.unique hx (y := .halted) hy) (by decide)
            simp [isHalted_of_running hrunning, hnot]
        | halted =>
            have hhalted : (m.runFor v n).machine.core.state = .halted := hx.halted
            exact iff_of_true (isHalted_of_halted hhalted) (Or.inr hx)
        | faulted e =>
            have herror : (m.runFor v n).result = .error e := hx.result_eq
            rw [h] at herror
            cases herror

end

end Machine

namespace Accounting

section

variable {μ ω : Type} [Bus μ] [Sink ω] (v : Verbosity)

/-- **Bounded runs account exactly for what they do.**  A run of a halted machine does
nothing.  A run of a running machine advances the tick counter by the number of executed
instructions, of which there are no more than the budget allows, and it ends in one of
three ways: the budget is spent, a halt instruction was the last one, or a fault was met.
The run that asks for a halt does the same, returns the same fault, and otherwise finds
the machine halted exactly if it was halted before or a halt instruction was the last
one. -/
theorem bounded_runs_account_exactly (budget : Nat) (m : Machine μ ω) :
    let run := m.runFor v budget
    let asking := m.runUntilHalt v budget
    let account := m.account v budget
    (m.core.state = .halted → run = ⟨.ok 0, m, []⟩) ∧
    (m.core.state = .running →
      run.machine.core.ticks = m.core.ticks + account.executed.length ∧
        account.executed.length ≤ budget ∧
        run.machine.output = Sink.receiveAll m.output account.told ∧
        ∃! ending : Ending, ending.Of account) ∧
    asking.machine = run.machine ∧ asking.log = run.log ∧
    (∀ e, run.result = .error e → asking.result = .error e) ∧
    (∀ k, run.result = .ok k →
      ∃ b, asking.result = .ok b ∧
        (b = true ↔ m.core.state = .halted ∨ account.Halted)) := by
  intro run asking account
  refine ⟨Machine.runFor_of_halted v budget, ?_, rfl, rfl, ?_, ?_⟩
  · intro hs
    obtain ⟨x, hx⟩ := Machine.exists_ending v budget hs
    have hmachine : run.machine = m.after v budget := Machine.machine_runFor v budget m
    refine ⟨?_, Core.length_gather_executing_le budget m.core, ?_, x, hx,
      fun y hy => Ending.Of.unique hy hx⟩
    · rw [hmachine]
      exact Machine.ticks_after v budget m
    · rw [hmachine]
      exact Machine.output_after v budget m
  · intro e he
    exact Machine.result_runUntilHalt_of_error v he
  · intro k hk
    exact Machine.result_runUntilHalt_of_ok v hk

end

/-- Print the current register, and run into a byte that is no opcode. -/
def stumbling : Machine Bank Buffer :=
  Machine.powerOn (Bus.replay Bank.zero [(0, 0x06), (1, 0xFF)]) Buffer.empty

theorem bounded_runs_account_exactly_stumbling :
    let stopped := (stumbling.stop .off).machine
    stopped.core.state = .halted ∧ stopped.runFor .off 9 = ⟨.ok 0, stopped, []⟩ ∧
      stumbling.core.state = .running ∧
      (stumbling.runFor .off 2).machine.core.ticks = 1 ∧
      (stumbling.account .off 2).Faulted ⟨0xFF, 1⟩ ∧
      (stumbling.runUntilHalt .off 2).result = .error ⟨0xFF, 1⟩ ∧
      (stumbling.runFor .off 1).result = .ok 1 ∧
      ∃ b, (stumbling.runUntilHalt .off 1).result = .ok b ∧
        (b = true ↔ stumbling.core.state = .halted ∨ (stumbling.account .off 1).Halted) := by
  intro stopped
  have hs : stumbling.core.state = .running := rfl
  have hfault : (stumbling.runFor .off 2).result = .error ⟨0xFF, 1⟩ := by
    rfl
  have hspent : (stumbling.runFor .off 1).result = .ok 1 := by
    rfl
  have hcount : (stumbling.account .off 2).executed.length = 1 := by
    decide +kernel
  obtain ⟨hhalted, _⟩ := bounded_runs_account_exactly .off 9 stopped
  obtain ⟨_, hrunning, _, _, herror, _⟩ := bounded_runs_account_exactly .off 2 stumbling
  obtain ⟨_, _, _, _, _, hok⟩ := bounded_runs_account_exactly .off 1 stumbling
  obtain ⟨hticks, _, _, x, hx, _⟩ := hrunning hs
  refine ⟨rfl, hhalted rfl, hs, ?_, ?_, herror _ hfault, hspent, hok 1 hspent⟩
  · rw [hticks, hcount]
    rfl
  · -- The result leaves the fault as the only ending.
    have hresult : (stumbling.account .off 2).result = .error ⟨0xFF, 1⟩ := hfault
    cases x with
    | spent => exact absurd (hresult.symm.trans hx.result_eq) (by simp)
    | halted => exact absurd (hresult.symm.trans hx.result_eq) (by simp)
    | faulted e =>
        have he : Except.error ⟨0xFF, 1⟩ = (Except.error e : Except DecodeFault Nat) :=
          hresult.symm.trans hx.result_eq
        rw [Except.error.inj he]
        exact hx

end Accounting
end ByteMachine
