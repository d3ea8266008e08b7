import ByteMachine.Proofs.ClockLoop
import ByteMachine.Sink.Buffer

/-!
# Restarting a machine that has stopped

A machine stops by itself for a halt instruction or for a byte that is no opcode, and both
stay where they are: the program counter still points at the byte, and the address and data
registers show its fetch.  So a clock that starts the machine again fetches the same byte
again, and the machine stops for the same reason.  A halt instruction is counted each time.
A fault is reported each time, and it is not counted.

**Invariant.**  The machine has stopped at a byte, and it shows the fetch of that byte.

**Results.**
* `stopsAt_next`, `stopsAt_iterate`: a running core that comes to a stop establishes the
  invariant.
* `Halts.stopsAt`, `Faults.faultsAt`: so does every run that halts or meets a fault.
* `next_resume_of_halt`, `next_resume_of_fault`: one tick after a restart keeps it.
* `endAll_iff`: what every clock run makes of a machine, several of them make of it one after
  the other.
* `stopping_points_are_stable`: where runs end, and what any number of clock runs makes of a
  machine there.
-/

namespace ByteMachine
namespace Core

section

variable {μ : Type} [Bus μ]

/-- The core has stopped at the byte `x`, which it has fetched from the program counter. -/
structure StopsAt (c : Core μ) (x : UInt8) : Prop where
  halted : c.state = .halted
  mar_eq : c.regs.mar = c.regs.pc
  mdr_eq : c.regs.mdr = x
  byte_eq : Bus.read c.memory c.regs.pc = x

/-- The core has stopped for the fault `e`. -/
structure FaultsAt (c : Core μ) (e : DecodeFault) : Prop extends c.StopsAt e.opcode where
  pc_eq : c.regs.pc = e.pc
  unmapped : Opcode.ofByte? e.opcode = none

variable {c : Core μ}

/-! ### Coming to a stop -/

/-- A running core stops for a halt instruction or for a fault only, and each of them leaves
the fetched byte at the program counter. -/
theorem stopsAt_next (hs : c.state = .running) (hh : c.next.state = .halted) :
    ∃ x, c.next.StopsAt x := by
  cases ho : c.outlook with
  | idle =>
      rw [outlook_eq_idle_iff, hs] at ho
      cases ho
  | fault =>
      rw [next_of_fault ho]
      exact ⟨c.opcodeByte, rfl, rfl, rfl, rfl⟩
  | execute op =>
      by_cases hop : op = .halt
      · subst hop
        rw [next_of_execute ho]
        exact ⟨c.opcodeByte, rfl, rfl, rfl, rfl⟩
      · rw [state_next_of_ne_halt ho hop] at hh
        cases hh

theorem stopsAt_iterate {n : Nat} (hs : c.state = .running)
    (hh : (next^[n] c).state = .halted) : ∃ x, (next^[n] c).StopsAt x := by
  induction n generalizing c with
  | zero =>
      rw [Function.iterate_zero_apply, hs] at hh
      cases hh
  | succ n ih =>
      rw [Function.iterate_succ_apply] at hh ⊢
      cases hnext : c.next.state with
      | running => exact ih hnext hh
      | halted =>
          rw [iterate_of_halted hnext]
          exact stopsAt_next hs hnext

/-! ### The tick after a restart -/

/-- A fetch after a restart shows what is shown already. -/
theorem StopsAt.halt_fetch_resume {x : UInt8} (h : c.StopsAt x) : c.resume.fetch.halt = c := by
  obtain ⟨⟨general, pc, mar, mdr⟩, flags, current, state, ticks, memory⟩ := c
  obtain ⟨hstate, hmar, hmdr, hbyte⟩ := h
  have hdata : mdr = Bus.read memory pc := hmdr.trans hbyte.symm
  change mar = pc at hmar
  change state = .halted at hstate
  subst hmar hstate hdata
  rfl

theorem outlook_resume_of_halt (h : c.StopsAt 0x00) : c.resume.outlook = .execute .halt := by
  refine outlook_eq_execute_iff.2 ⟨rfl, ?_⟩
  change Opcode.ofByte? (Bus.read c.memory c.regs.pc) = _
  rw [h.byte_eq]
  rfl

/-- A halt instruction that is executed again is counted again. -/
theorem next_resume_of_halt (h : c.StopsAt 0x00) : c.resume.next = c.count := by
  rw [next_of_execute (outlook_resume_of_halt h)]
  exact congrArg count h.halt_fetch_resume

theorem outlook_resume_of_fault {e : DecodeFault} (h : c.FaultsAt e) :
    c.resume.outlook = .fault := by
  refine outlook_eq_fault_iff.2 ⟨rfl, ?_⟩
  change Opcode.ofByte? (Bus.read c.memory c.regs.pc) = _
  rw [h.byte_eq]
  exact h.unmapped

theorem faultHere_resume {e : DecodeFault} (h : c.FaultsAt e) : c.resume.faultHere = e := by
  change DecodeFault.mk (Bus.read c.memory c.regs.pc) c.regs.pc = e
  rw [h.byte_eq, h.pc_eq]

/-- A fault that is met again changes nothing. -/
theorem next_resume_of_fault {e : DecodeFault} (h : c.FaultsAt e) : c.resume.next = c := by
  rw [next_of_fault (outlook_resume_of_fault h)]
  exact h.halt_fetch_resume

end

end Core

/-! ### Runs that come to a stop -/

namespace Machine

section

variable {μ ω : Type} [Bus μ] [Sink ω] (v : Verbosity) (m : Machine μ ω)

/-- A run of the machine `m` has halted it and met no fault.  It is a clock run or, if `m` is
running, a bounded one. -/
inductive Halts : Machine μ ω → Prop
  | clock {k : Clock} {o : Outcome (Except DecodeFault Clock.Report) μ ω} {r : Clock.Report}
      (hends : k.Ends v m o) (hr : o.result = .ok r) (hh : r.halted = true) : Halts o.machine
  | runFor {n j : Nat} (hs : m.core.state = .running) (hr : (m.runFor v n).result = .ok j)
      (hh : (m.runFor v n).machine.core.state = .halted) : Halts (m.runFor v n).machine
  | runUntilHalt {n : Nat} (hs : m.core.state = .running)
      (hr : (m.runUntilHalt v n).result = .ok true) : Halts (m.runUntilHalt v n).machine

/-- A run of the machine `m` has met the fault `e`. -/
inductive Faults (e : DecodeFault) : Machine μ ω → Prop
  | clock {k : Clock} {o : Outcome (Except DecodeFault Clock.Report) μ ω}
      (hends : k.Ends v m o) (hr : o.result = .error e) : Faults e o.machine
  | runFor {n : Nat} (hr : (m.runFor v n).result = .error e) : Faults e (m.runFor v n).machine
  | runUntilHalt {n : Nat} (hr : (m.runUntilHalt v n).result = .error e) :
      Faults e (m.runUntilHalt v n).machine

variable {v m}

theorem stopsAt_runFor {n j : Nat} (hs : m.core.state = .running)
    (hr : (m.runFor v n).result = .ok j) (hh : (m.runFor v n).machine.core.state = .halted) :
    (m.runFor v n).machine.core.StopsAt 0x00 := by
  obtain ⟨x, hx⟩ := exists_ending v n hs
  cases x with
  | spent => exact absurd (hx.running.symm.trans hh) (by decide)
  | halted =>
      have hcore : (m.runFor v n).machine.core = Core.next^[n] m.core := by
        rw [machine_runFor, core_after]
      rw [hcore] at hh
      obtain ⟨y, hy⟩ := Core.stopsAt_iterate hs hh
      rw [← hcore] at hy
      -- The account of the run tells which byte it is.
      obtain rfl : y = 0x00 := hy.byte_eq.symm.trans hx.byte_eq
      exact hy
  | faulted e => exact absurd (hr.symm.trans hx.result_eq) (by simp)

theorem exists_count_of_runUntilHalt {n : Nat} {b : Bool}
    (hr : (m.runUntilHalt v n).result = .ok b) : ∃ j, (m.runFor v n).result = .ok j := by
  cases hcount : (m.runFor v n).result with
  | error e =>
      rw [result_runUntilHalt_of_error v hcount] at hr
      cases hr
  | ok j => exact ⟨j, rfl⟩

theorem result_runFor_of_runUntilHalt {n : Nat} {e : DecodeFault}
    (hr : (m.runUntilHalt v n).result = .error e) : (m.runFor v n).result = .error e := by
  cases hcount : (m.runFor v n).result with
  | error f =>
      rw [result_runUntilHalt_of_error v hcount] at hr
      obtain rfl : f = e := Except.error.inj hr
      rfl
  | ok j =>
      obtain ⟨b, hb, _⟩ := result_runUntilHalt_of_ok v hcount
      rw [hb] at hr
      cases hr

theorem faultsAt_runFor {n : Nat} {e : DecodeFault} (hr : (m.runFor v n).result = .error e) :
    (m.runFor v n).machine.core.FaultsAt e := by
  have hs : m.core.state = .running := by
    cases hs : m.core.state with
    | running => rfl
    | halted =>
        rw [runFor_of_halted v n hs] at hr
        cases hr
  obtain ⟨x, hx⟩ := exists_ending v n hs
  cases x with
  | spent => exact absurd (hr.symm.trans hx.result_eq) (by simp)
  | halted => exact absurd (hr.symm.trans hx.result_eq) (by simp)
  | faulted f =>
      obtain rfl : e = f := Except.error.inj (hr.symm.trans hx.result_eq)
      have hbyte := hx.byte_eq
      rw [← hx.pc_eq] at hbyte
      exact ⟨⟨hx.halted, hx.mar_eq.trans hx.pc_eq.symm, hx.mdr_eq, hbyte⟩, hx.pc_eq,
        hx.unmapped⟩

end

end Machine

namespace Clock

theorem result_settle_eq_error {μ ω : Type} {v : Verbosity}
    {o : Outcome (Except DecodeFault Nat) μ ω} {e : DecodeFault}
    (h : (settle v o).result = .error e) : o.result = .error e := by
  unfold settle at h
  cases ho : o.result with
  | error f =>
      rw [ho] at h
      obtain rfl : f = e := Except.error.inj h
      rfl
  | ok n =>
      rw [ho] at h
      cases h

section

variable {μ ω : Type} [Bus μ] [Sink ω] {v : Verbosity} {m m' : Machine μ ω} {k : Clock}

/-- A clock run that has come to its end has been a bounded run. -/
theorem exists_budget_of_ends {o : Outcome (Except DecodeFault Report) μ ω}
    (h : k.Ends v m o) :
    ∃ n, o = settle v ((m.start v).andThen (Machine.runFor v n)) := by
  cases hk : k.limit with
  | none =>
      obtain ⟨n, hn⟩ := exists_halted_of_ends hk h
      exact ⟨_, (ends_iff_of_suffices (suffices_of_halted hk hn (Nat.le_refl n))).1 h⟩
  | some limit => exact ⟨_, (ends_iff_of_suffices (suffices_of_limit hk 0)).1 h⟩

/-- A clock that is allowed a tick, on a machine that any such clock halts, and from which
every bounded run makes the same. -/
theorem exists_ends_of_bounded {r : Except DecodeFault Report} (hk : k.limit ≠ some 0)
    (hh : m'.core.state = .halted)
    (hrun : ∀ n,
      (settle v ((m.start v).andThen (Machine.runFor v (n + 1)))).result = r ∧
        (settle v ((m.start v).andThen (Machine.runFor v (n + 1)))).machine = m') :
    (∃ o, k.Ends v m o ∧ o.result = r ∧ o.machine = m') ∧
      ∀ patience, 1 ≤ patience →
        (k.run v patience m).result = some r ∧ (k.run v patience m).machine = m' := by
  have hall : ∀ patience, 1 ≤ patience →
      ∃ n, k.limit.getD patience = n + 1 ∧ k.Suffices v patience m := by
    intro patience hpatience
    have hpos : 1 ≤ k.limit.getD patience := by
      cases hlimit : k.limit with
      | none => exact hpatience
      | some limit =>
          rcases limit with _ | limit
          · exact absurd hlimit hk
          · exact Nat.succ_pos limit
    obtain ⟨n, hn⟩ := Nat.exists_eq_add_of_le' hpos
    have hmachine := (hrun n).2
    rw [machine_settle, Outcome.machine_andThen, Machine.machine_runFor, ← hn] at hmachine
    refine ⟨n, hn, Or.inr ?_⟩
    rw [hmachine, hh]
  refine ⟨?_, ?_⟩
  · obtain ⟨n, hn, hsuffices⟩ := hall 1 (Nat.le_refl 1)
    refine ⟨_, (ends_iff_of_suffices hsuffices).2 rfl, ?_⟩
    rw [hn]
    exact hrun n
  · intro patience hpatience
    obtain ⟨n, hn, hsuffices⟩ := hall patience hpatience
    rw [run_of_suffices hsuffices, hn]
    exact ⟨congrArg some (hrun n).1, (hrun n).2⟩

/-- Runs of several clocks, one after the other.  Each comes to its end with the result that
is listed, and `last` is the machine that the last of them leaves. -/
inductive EndAll (v : Verbosity) :
    List Clock → Machine μ ω → List (Except DecodeFault Report) → Machine μ ω → Prop
  | nil {m : Machine μ ω} : EndAll v [] m [] m
  | cons {k : Clock} {ks : List Clock} {m last : Machine μ ω}
      {o : Outcome (Except DecodeFault Report) μ ω} {rs : List (Except DecodeFault Report)}
      (first : k.Ends v m o) (rest : EndAll v ks o.machine rs last) :
      EndAll v (k :: ks) m (o.result :: rs) last

/-- What every run makes of a machine, several runs make of it one after the other. -/
theorem endAll_iff {P : Machine μ ω → Prop} {f : Machine μ ω → Machine μ ω}
    {r : Except DecodeFault Report} {ks : List Clock} (hP : ∀ m, P m → P (f m))
    (hends : ∀ m, P m → ∀ k ∈ ks, ∃ o, k.Ends v m o ∧ o.result = r ∧ o.machine = f m)
    (hm : P m) {rs : List (Except DecodeFault Report)} {last : Machine μ ω} :
    EndAll v ks m rs last ↔ rs = List.replicate ks.length r ∧ last = f^[ks.length] m := by
  induction ks generalizing m rs with
  | nil =>
      constructor
      · rintro ⟨⟩
        exact ⟨rfl, rfl⟩
      · rintro ⟨rfl, rfl⟩
        exact .nil
  | cons k ks ih =>
      obtain ⟨o, ho, hresult, hmachine⟩ := hends m hm k List.mem_cons_self
      have hrest : ∀ rs', EndAll v ks (f m) rs' last ↔
          rs' = List.replicate ks.length r ∧ last = f^[ks.length] (f m) :=
        fun _ => ih (fun m hm k hk => hends m hm k (List.mem_cons_of_mem _ hk)) (hP m hm)
      rw [List.length_cons, List.replicate_succ, Function.iterate_succ_apply]
      constructor
      · rintro ⟨⟩
        next o' rs' hfirst hlater =>
          obtain rfl := hfirst.unique ho
          rw [hmachine, hrest] at hlater
          rw [hresult, hlater.1]
          exact ⟨rfl, hlater.2⟩
      · rintro ⟨rfl, hlast⟩
        rw [← hresult]
        refine .cons ho ?_
        rw [hmachine, hrest]
        exact ⟨by rw [hresult], hlast⟩

end

end Clock

namespace Machine

section

variable {μ ω : Type} [Bus μ] [Sink ω] {v : Verbosity} {m m' : Machine μ ω}

theorem Halts.stopsAt (h : Halts v m m') : m'.core.StopsAt 0x00 := by
  cases h with
  | clock hends hr hh =>
      obtain ⟨n, rfl⟩ := Clock.exists_budget_of_ends hends
      obtain ⟨hcount, hhalted⟩ := Clock.result_settle_eq_ok v hr
      rw [hh] at hhalted
      rw [Clock.machine_settle]
      exact stopsAt_runFor (m := (m.start v).machine) rfl hcount
        ((Core.isHalted_eq_true_iff _).1 hhalted)
  | runFor hs hr hh => exact stopsAt_runFor hs hr hh
  | @runUntilHalt n hs hr =>
      have hh := (Core.isHalted_eq_true_iff _).1 (result_runUntilHalt v hr)
      rw [← machine_runFor] at hh
      obtain ⟨j, hj⟩ := exists_count_of_runUntilHalt hr
      exact stopsAt_runFor hs hj hh

theorem Faults.faultsAt {e : DecodeFault} (h : Faults v m e m') : m'.core.FaultsAt e := by
  cases h with
  | clock hends hr =>
      obtain ⟨n, rfl⟩ := Clock.exists_budget_of_ends hends
      rw [Clock.machine_settle]
      have herror : ((m.start v).andThen (Machine.runFor v n)).result = .error e :=
        Clock.result_settle_eq_error hr
      exact faultsAt_runFor (m := (m.start v).machine) herror
  | runFor hr => exact faultsAt_runFor hr
  | runUntilHalt hr => exact faultsAt_runFor (result_runFor_of_runUntilHalt hr)

/-! ### Restarts -/

/-- A bounded run of a machine that is started again at a halt instruction counts it and is
over. -/
theorem settle_restart_of_halt (h : m.core.StopsAt 0x00) (n : Nat) :
    (Clock.settle v ((m.start v).andThen (Machine.runFor v (n + 1)))).result =
        .ok ⟨1, true⟩ ∧
      (Clock.settle v ((m.start v).andThen (Machine.runFor v (n + 1)))).machine =
        m.edit Core.count := by
  let restarted := (m.start v).machine
  have ho : restarted.core.outlook = .execute .halt := Core.outlook_resume_of_halt h
  have hverdict : (restarted.tick v).result = .ok () := by
    rw [result_tick]
    exact Core.verdict_eq_ok_iff.2 (by rw [ho]; simp)
  have hmachine : (restarted.tick v).machine = m.edit Core.count := by
    have hnotices : restarted.core.notices = [] := by
      simp only [Core.notices, ho]
    rw [tick_eq, hnotices]
    exact congrArg (Machine.mk · m.output) (Core.next_resume_of_halt h)
  have hhalted : (restarted.tick v).machine.core.state = .halted := by
    rw [hmachine]
    exact h.halted
  have hrun : restarted.runFor v (n + 1) =
      ⟨.ok 1, m.edit Core.count, (restarted.tick v).log⟩ := by
    rw [runFor_succ_of_ok v n rfl hverdict, Outcome.andThen, Outcome.map,
      runFor_of_halted v n hhalted, hmachine, List.append_nil]
    rfl
  have hstopped : (m.edit Core.count).isHalted = true := isHalted_of_halted h.halted
  have hthen : ((m.start v).andThen (Machine.runFor v (n + 1))).result = .ok 1 ∧
      ((m.start v).andThen (Machine.runFor v (n + 1))).machine = m.edit Core.count :=
    ⟨congrArg Outcome.result hrun, congrArg Outcome.machine hrun⟩
  rw [Clock.machine_settle]
  refine ⟨?_, hthen.2⟩
  unfold Clock.settle
  rw [hthen.1, hthen.2, hstopped]

/-- A bounded run of a machine that is started again at a fault meets the same fault. -/
theorem settle_restart_of_fault {e : DecodeFault} (h : m.core.FaultsAt e) (n : Nat) :
    (Clock.settle v ((m.start v).andThen (Machine.runFor v (n + 1)))).result = .error e ∧
      (Clock.settle v ((m.start v).andThen (Machine.runFor v (n + 1)))).machine =
        ⟨m.core, Sink.receive m.output (.faulted e)⟩ := by
  let restarted := (m.start v).machine
  have ho : restarted.core.outlook = .fault := Core.outlook_resume_of_fault h
  have he : restarted.core.faultHere = e := Core.faultHere_resume h
  have hverdict : (restarted.tick v).result = .error e := by
    rw [result_tick]
    exact Core.verdict_eq_error_iff.2 ⟨ho, he.symm⟩
  have hmachine : (restarted.tick v).machine =
      ⟨m.core, Sink.receive m.output (.faulted e)⟩ := by
    rw [tick_eq, Core.notices_of_fault ho, he]
    exact congrArg (Machine.mk · _) (Core.next_resume_of_fault h)
  have hrun := runFor_succ_of_error v n (m := restarted) rfl hverdict
  rw [hmachine] at hrun
  have hthen : ((m.start v).andThen (Machine.runFor v (n + 1))).result = .error e :=
    congrArg Outcome.result hrun
  rw [Clock.machine_settle]
  refine ⟨?_, congrArg Outcome.machine hrun⟩
  unfold Clock.settle
  rw [hthen]

/-- A clock that starts the machine again at a halt instruction counts it. -/
theorem restart_of_halt {k : Clock} (hk : k.limit ≠ some 0) (h : m.core.StopsAt 0x00) :
    (∃ o, k.Ends v m o ∧ o.result = .ok ⟨1, true⟩ ∧ o.machine = m.edit Core.count) ∧
      ∀ patience, 1 ≤ patience →
        (k.run v patience m).result = some (.ok ⟨1, true⟩) ∧
          (k.run v patience m).machine = m.edit Core.count :=
  Clock.exists_ends_of_bounded hk h.halted (settle_restart_of_halt h)

/-- A clock that starts the machine again at a fault reports it. -/
theorem restart_of_fault {k : Clock} {e : DecodeFault} (hk : k.limit ≠ some 0)
    (h : m.core.FaultsAt e) :
    (∃ o, k.Ends v m o ∧ o.result = .error e ∧
        o.machine = ⟨m.core, Sink.receive m.output (.faulted e)⟩) ∧
      ∀ patience, 1 ≤ patience →
        (k.run v patience m).result = some (.error e) ∧
          (k.run v patience m).machine = ⟨m.core, Sink.receive m.output (.faulted e)⟩ :=
  Clock.exists_ends_of_bounded hk h.halted (settle_restart_of_fault h)

end

end Machine

namespace Restart

theorem iterate_count {μ ω : Type} (m : Machine μ ω) (n : Nat) :
    (fun m' : Machine μ ω => m'.edit Core.count)^[n] m =
      m.edit fun c => { c with ticks := c.ticks + n } := by
  induction n generalizing m with
  | zero => rfl
  | succ n ih =>
      rw [Function.iterate_succ_apply, ih]
      simp only [Machine.edit, Core.count, Nat.add_assoc, Nat.add_comm 1 n]

theorem iterate_report {μ ω : Type} [Sink ω] (e : DecodeFault) (m : Machine μ ω) (n : Nat) :
    (fun m' : Machine μ ω => ⟨m'.core, Sink.receive m'.output (.faulted e)⟩)^[n] m =
      ⟨m.core, Sink.receiveAll m.output (List.replicate n (.faulted e))⟩ := by
  induction n generalizing m with
  | zero => rfl
  | succ n ih =>
      rw [Function.iterate_succ_apply, ih]
      rfl

section

variable {μ ω : Type} [Bus μ] [Sink ω] (v : Verbosity)

/-- **Stopping points are stable under restart.**  A run that halts leaves the machine at a
halt instruction, with its fetch in the address and data registers.  From there every clock
run that is allowed a tick comes to its end and reports that one instruction halted it, and
any number of them change nothing but the tick counter, by one each.  A run that meets a
fault leaves the machine at the byte that is no opcode.  From there every such clock run comes
to its end with the same fault, and any number of them tell the sink of it once each and
change nothing else. -/
theorem stopping_points_are_stable (m m' : Machine μ ω) (clocks : List Clock)
    (hclocks : ∀ k ∈ clocks, k.limit ≠ some 0) :
    (Machine.Halts v m m' →
      m'.core.StopsAt 0x00 ∧
      (∀ k ∈ clocks, ∀ patience, 1 ≤ patience →
        (k.run v patience m').result = some (.ok ⟨1, true⟩) ∧
          (k.run v patience m').machine = m'.edit Core.count) ∧
      ∀ results last, Clock.EndAll v clocks m' results last ↔
        results = List.replicate clocks.length (.ok ⟨1, true⟩) ∧
          last = m'.edit fun c => { c with ticks := c.ticks + clocks.length }) ∧
    (∀ e, Machine.Faults v m e m' →
      m'.core.FaultsAt e ∧
      (∀ k ∈ clocks, ∀ patience, 1 ≤ patience →
        (k.run v patience m').result = some (.error e) ∧
          (k.run v patience m').machine =
            ⟨m'.core, Sink.receive m'.output (.faulted e)⟩) ∧
      ∀ results last, Clock.EndAll v clocks m' results last ↔
        results = List.replicate clocks.length (.error e) ∧
          last = ⟨m'.core,
            Sink.receiveAll m'.output (List.replicate clocks.length (.faulted e))⟩) := by
  refine ⟨?_, ?_⟩
  · intro hruns
    have hstop := hruns.stopsAt
    refine ⟨hstop, fun k hk => (Machine.restart_of_halt (hclocks k hk) hstop).2, ?_⟩
    intro results last
    rw [← iterate_count]
    -- The tick counter is no part of the invariant.
    have hcount : ∀ s : Machine μ ω, s.core.StopsAt 0x00 →
        (s.edit Core.count).core.StopsAt 0x00 :=
      fun _ hs => ⟨hs.halted, hs.mar_eq, hs.mdr_eq, hs.byte_eq⟩
    exact Clock.endAll_iff hcount
      (fun _ hs k hk => (Machine.restart_of_halt (hclocks k hk) hs).1) hstop
  · intro e hruns
    have hstop := hruns.faultsAt
    refine ⟨hstop, fun k hk => (Machine.restart_of_fault (hclocks k hk) hstop).2, ?_⟩
    intro results last
    rw [← iterate_report]
    exact Clock.endAll_iff (P := fun s => s.core.FaultsAt e)
      (f := fun s => ⟨s.core, Sink.receive s.output (.faulted e)⟩) (fun _ hs => hs)
      (fun _ hs k hk => (Machine.restart_of_fault (hclocks k hk) hs).1) hstop

end

/-- A program that prints 5, in front of the byte `last`. -/
def printing (last : UInt8) : Machine Bank Buffer :=
  Machine.powerOn (Bus.replay Bank.zero [(0, 0x04), (1, 5), (2, 0x06), (3, last)])
    Buffer.empty

theorem stopping_points_are_stable_printing :
    let halted := ((printing 0x00).runUntilHalt .off 9).machine
    let faulted := ((printing 0xFF).runFor .off 9).machine
    let clocks : List Clock := [⟨1000, none⟩, ⟨0, some 3⟩]
    (∀ k ∈ clocks, k.limit ≠ some 0) ∧
      Machine.Halts .off (printing 0x00) halted ∧ halted.core.regs.pc = 3 ∧
      Clock.EndAll .off clocks halted [.ok ⟨1, true⟩, .ok ⟨1, true⟩]
        (halted.edit fun c => { c with ticks := 5 }) ∧
      Machine.Faults .off (printing 0xFF) ⟨0xFF, 3⟩ faulted ∧
      Clock.EndAll .off clocks faulted [.error ⟨0xFF, 3⟩, .error ⟨0xFF, 3⟩]
        ⟨faulted.core, ⟨#[5], #[⟨0xFF, 3⟩, ⟨0xFF, 3⟩, ⟨0xFF, 3⟩]⟩⟩ := by
  intro halted faulted clocks
  have hclocks : ∀ k ∈ clocks, k.limit ≠ some 0 := by
    decide
  have hhalts : Machine.Halts .off (printing 0x00) halted := .runUntilHalt rfl rfl
  have hfaults : Machine.Faults .off (printing 0xFF) ⟨0xFF, 3⟩ faulted := .runFor rfl
  obtain ⟨hhalt, -⟩ := stopping_points_are_stable .off (printing 0x00) halted clocks hclocks
  obtain ⟨-, hfault⟩ :=
    stopping_points_are_stable .off (printing 0xFF) faulted clocks hclocks
  refine ⟨hclocks, hhalts, rfl, ?_, hfaults, ?_⟩
  · exact ((hhalt hhalts).2.2 _ _).2 ⟨rfl, rfl⟩
  · exact ((hfault _ hfaults).2.2 _ _).2 ⟨rfl, rfl⟩

end Restart
end ByteMachine
