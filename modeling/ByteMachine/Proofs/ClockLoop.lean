import ByteMachine.Proofs.Accounting
import ByteMachine.Proofs.Schedule

/-!
# The loop of a clock

A clock starts the machine, and then it tests whether it is done, takes a tick, and tests
again.  Its limit is compared with the difference of two readings of the tick counter,
where a bounded run counts its rounds, and a loop without a limit has no bound at all.
The loop is therefore given here as a relation between a machine and what the loop leaves
behind.  A loop that does not come to an end leaves nothing behind.

**Invariant.**  A tick that does not end the loop counts one instruction, so that the
difference of the readings grows with the rounds.

**Results.**
* `Rounds.unique`, `Ends.unique`: a loop and a run come to one end at most.
* `rounds_runUntil`: a loop that is over within a number of ticks comes to its end.
* `ends_iff_of_suffices`, `run_of_suffices`: so does a clock run that is given enough
  ticks, and it leaves behind what a bounded run leaves, and a report.
* `exists_halted_of_ends`: without a limit there is no other way to the end than a halt.
* `clock_runs_are_bounded_runs`: clock runs and bounded runs compared.
-/

namespace ByteMachine
namespace Clock

section

variable {μ ω : Type}

/-- The record of a finished run tells both fields of its report. -/
theorem Report.message_finished (r : Report) :
    (Record.finished r).message = "clock run finished: ClockReport \x7b ticks: " ++
      toString r.ticks ++ ", halted: " ++ toString r.halted ++ " \x7d" := by
  have hmessage : (Record.finished r).message = "clock run finished: " ++ r.text := rfl
  have htitle : "clock run finished: ClockReport \x7b ticks: " =
      "clock run finished: " ++ "ClockReport \x7b ticks: " := rfl
  rw [hmessage, Report.text_eq, htitle]
  simp only [String.append_assoc]

/-- A bounded run that is over, with a report at its end unless a fault has ended it. -/
def settle (v : Verbosity) (o : Outcome (Except DecodeFault Nat) μ ω) :
    Outcome (Except DecodeFault Report) μ ω :=
  match o.result with
  | .error e => ⟨.error e, o.machine, o.log⟩
  | .ok n =>
      let r : Report := ⟨n, o.machine.isHalted⟩
      ⟨.ok r, o.machine, o.log ++ v.note (.finished r)⟩

variable (v : Verbosity)

theorem machine_settle (o : Outcome (Except DecodeFault Nat) μ ω) :
    (settle v o).machine = o.machine := by
  unfold settle
  cases o.result <;> rfl

/-- A report has the count of the run, and tells whether the machine is halted. -/
theorem result_settle_eq_ok {o : Outcome (Except DecodeFault Nat) μ ω} {r : Report}
    (h : (settle v o).result = .ok r) :
    o.result = .ok r.ticks ∧ o.machine.isHalted = r.halted := by
  unfold settle at h
  cases ho : o.result with
  | error e =>
      rw [ho] at h
      cases h
  | ok n =>
      rw [ho] at h
      cases h
      exact ⟨rfl, rfl⟩

/-- A run that has met no fault closes its log with a record of severity debug, which tells
the report in words. -/
theorem log_settle_of_ok {o : Outcome (Except DecodeFault Nat) μ ω} {r : Report}
    (h : (settle v o).result = .ok r) :
    ∃ record : Record, (settle v o).log = o.log ++ v.note record ∧ record.severity = .debug ∧
      record.message = "clock run finished: ClockReport \x7b ticks: " ++ toString r.ticks ++
        ", halted: " ++ toString r.halted ++ " \x7d" := by
  unfold settle at h ⊢
  cases ho : o.result with
  | error e =>
      rw [ho] at h
      cases h
  | ok n =>
      rw [ho] at h
      obtain rfl := Except.ok.inj h
      exact ⟨.finished ⟨n, o.machine.isHalted⟩, rfl, rfl, Report.message_finished _⟩

/-- A run that has met a fault adds nothing to its log. -/
theorem log_settle_of_error {o : Outcome (Except DecodeFault Nat) μ ω} {e : DecodeFault}
    (h : (settle v o).result = .error e) : (settle v o).log = o.log := by
  unfold settle at h ⊢
  cases ho : o.result with
  | error e => rfl
  | ok n =>
      rw [ho] at h
      cases h

theorem settle_andThen {α : Type} (o : Outcome α μ ω)
    (next : Machine μ ω → Outcome (Except DecodeFault Nat) μ ω) :
    settle v (o.andThen next) = o.andThen fun m => settle v (next m) := by
  unfold settle
  simp only [Outcome.andThen]
  cases (next o.machine).result with
  | error e => rfl
  | ok n => simp only [List.append_assoc]

theorem conclude_eq_settle (k : Clock) {o : Outcome (Except DecodeFault Nat) μ ω}
    (h : (o.machine.isHalted || k.limit.isSome) = true) :
    k.conclude v o = (settle v o).map fun r _ => some r := by
  unfold conclude settle
  cases o.result with
  | error e => rfl
  | ok n =>
      simp only [h]
      rfl

end

section

variable {μ ω : Type} [Bus μ] [Sink ω]

/-- The loop of a clock whose run began at `since` ticks: what it leaves behind, when it
finds a machine. -/
inductive Rounds (k : Clock) (v : Verbosity) (since : Nat) :
    Machine μ ω → Outcome (Except DecodeFault Report) μ ω → Prop
  | done {m : Machine μ ω} (hdone : k.isDone since m = true) :
      Rounds k v since m
        ⟨.ok (reportSince since m), m, v.note (.finished (reportSince since m))⟩
  | faulted {m : Machine μ ω} {e : DecodeFault} (hdone : k.isDone since m = false)
      (htick : (m.tick v).result = .error e) :
      Rounds k v since m ⟨.error e, (m.tick v).machine, (m.tick v).log⟩
  | ticked {m : Machine μ ω} {o : Outcome (Except DecodeFault Report) μ ω}
      (hdone : k.isDone since m = false) (htick : (m.tick v).result = .ok ())
      (rest : Rounds k v since (m.tick v).machine o) :
      Rounds k v since m ((m.tick v).andThen fun _ => o)

/-- A run of the clock comes to its end and leaves `o` behind. -/
def Ends (k : Clock) (v : Verbosity) (m : Machine μ ω)
    (o : Outcome (Except DecodeFault Report) μ ω) : Prop :=
  ∃ p, Rounds k v m.core.ticks (m.start v).machine p ∧ o = (m.start v).andThen fun _ => p

variable {k : Clock} {v : Verbosity} {since : Nat} {m : Machine μ ω}
    {o p : Outcome (Except DecodeFault Report) μ ω}

/-! ### One end at most -/

theorem Rounds.unique (ho : Rounds k v since m o) (hp : Rounds k v since m p) : o = p := by
  induction ho generalizing p with
  | done hdone =>
      cases hp with
      | done => rfl
      | faulted hdone' _ => exact absurd (hdone.symm.trans hdone') (by simp)
      | ticked hdone' _ _ => exact absurd (hdone.symm.trans hdone') (by simp)
  | faulted hdone htick =>
      cases hp with
      | done hdone' => exact absurd (hdone.symm.trans hdone') (by simp)
      | faulted _ htick' =>
          rw [Except.error.inj (htick.symm.trans htick')]
      | ticked _ htick' _ => exact absurd (htick.symm.trans htick') (by simp)
  | ticked hdone htick _ ih =>
      cases hp with
      | done hdone' => exact absurd (hdone.symm.trans hdone') (by simp)
      | faulted _ htick' => exact absurd (htick.symm.trans htick') (by simp)
      | ticked _ _ rest' => rw [ih rest']

theorem Ends.unique (ho : k.Ends v m o) (hp : k.Ends v m p) : o = p := by
  obtain ⟨o', ho', rfl⟩ := ho
  obtain ⟨p', hp', rfl⟩ := hp
  rw [ho'.unique hp']

/-! ### Coming to the end -/

/-- A loop that is over within `n` ticks, or has met a fault, has come to its end. -/
theorem rounds_runUntil (k : Clock) (v : Verbosity) (since n : Nat) {m : Machine μ ω}
    (h : ∀ u, (m.runUntil v (k.isDone since) n).result = .ok u →
      k.isDone since (m.runUntil v (k.isDone since) n).machine = true) :
    Rounds k v since m
      (settle v ((m.runUntil v (k.isDone since) n).map fun r m' =>
        r.map fun _ => m'.core.ticks - since)) := by
  induction n generalizing m with
  | zero => exact .done (h () rfl)
  | succ n ih =>
      rcases hd : k.isDone since m with _ | _
      · rw [Machine.runUntil_succ v _ n hd] at h ⊢
        rcases hr : (m.tick v).result with e | u
        · rw [Outcome.unlessFault_of_error hr]
          exact .faulted hd hr
        · rw [Outcome.unlessFault_of_ok hr] at h ⊢
          change Rounds k v since m (settle v ((m.tick v).andThen fun m' =>
            (m'.runUntil v (k.isDone since) n).map fun r m'' =>
              r.map fun _ => m''.core.ticks - since))
          rw [settle_andThen]
          exact .ticked hd hr (ih h)
      · rw [Machine.runUntil_of_stop v _ _ hd]
        exact .done hd

/-- The ticks that a clock run is given suffice: they reach the limit, or else they halt
the machine. -/
def Suffices (k : Clock) (v : Verbosity) (patience : Nat) (m : Machine μ ω) : Prop :=
  k.limit.isSome = true ∨
    ((m.start v).machine.after v (k.limit.getD patience)).core.state = .halted

theorem suffices_of_limit {limit : Nat} (hk : k.limit = some limit) (patience : Nat) :
    k.Suffices v patience m := by
  left
  rw [hk]
  rfl

theorem suffices_of_halted (hk : k.limit = none) {n patience : Nat}
    (hn : ((m.start v).machine.after v n).core.state = .halted) (hle : n ≤ patience) :
    k.Suffices v patience m := by
  right
  rw [hk, Option.getD_none, Machine.after_of_le v hle hn]
  exact hn

/-- Ticks that suffice take the clock to where it is done. -/
theorem Suffices.isDone {patience : Nat} (h : k.Suffices v patience m) :
    k.isDone m.core.ticks ((m.start v).machine.after v (k.limit.getD patience)) = true := by
  have hdone := isDone_after k v patience (m.start v).machine
  rcases h with hlimit | hhalted
  · rw [hlimit, Bool.or_true] at hdone
    exact hdone
  · exact k.isDone_of_halted _ hhalted

/-- A clock run that is given enough ticks leaves behind what a bounded run leaves, and a
report. -/
theorem ends_iff_of_suffices {patience : Nat} (h : k.Suffices v patience m) :
    k.Ends v m o ↔
      o = settle v ((m.start v).andThen (Machine.runFor v (k.limit.getD patience))) := by
  have hdone := h.isDone
  rw [← Machine.machine_runFor] at hdone
  have hrounds := rounds_runUntil k v m.core.ticks (k.limit.getD patience)
    (m := (m.start v).machine)
  rw [runUntil_isDone_start] at hrounds
  have hends : k.Ends v m
      (settle v ((m.start v).andThen (Machine.runFor v (k.limit.getD patience)))) :=
    ⟨_, hrounds fun _ _ => hdone, settle_andThen v _ _⟩
  constructor
  · intro ho
    exact ho.unique hends
  · rintro rfl
    exact hends

theorem run_of_suffices {patience : Nat} (h : k.Suffices v patience m) :
    k.run v patience m =
      (settle v ((m.start v).andThen (Machine.runFor v (k.limit.getD patience)))).map
        fun r _ => some r := by
  rw [run_eq_conclude]
  apply conclude_eq_settle
  rw [Outcome.machine_andThen, Machine.machine_runFor]
  rcases h with hlimit | hhalted
  · rw [hlimit, Bool.or_true]
  · rw [Machine.isHalted_of_halted hhalted, Bool.true_or]

/-! ### How a run ends -/

/-- Without a limit a loop comes to its end by a halt instruction or a fault only. -/
theorem exists_halted_of_rounds (hk : k.limit = none) (h : Rounds k v since m o) :
    ∃ n, (m.after v n).core.state = .halted := by
  induction h with
  | @done m hdone =>
      rw [isDone_of_limit_eq_none since m hk] at hdone
      exact ⟨0, m.core.isHalted_eq_true_iff.1 hdone⟩
  | @faulted m e hdone htick =>
      rw [Machine.result_tick, Core.verdict_eq_error_iff] at htick
      refine ⟨1, ?_⟩
      rw [Machine.after_succ, Machine.after_zero, Machine.core_tick]
      exact Core.state_next_of_fault htick.1
  | ticked _ _ _ ih =>
      obtain ⟨n, hn⟩ := ih
      exact ⟨n + 1, hn⟩

theorem exists_halted_of_ends (hk : k.limit = none) (h : k.Ends v m o) :
    ∃ n, ((m.start v).machine.after v n).core.state = .halted := by
  obtain ⟨p, hp, _⟩ := h
  exact exists_halted_of_rounds hk hp

/-- A bounded run without a budget does nothing but start the machine. -/
theorem settle_zero :
    settle v ((m.start v).andThen (Machine.runFor v 0)) =
      ⟨.ok ⟨0, false⟩, m.edit Core.resume,
        (m.start v).log ++ v.note (.finished ⟨0, false⟩)⟩ := by
  simp only [settle_andThen, Machine.runFor_zero]
  rfl

/-- The report of a bounded run counts the ticks since its start.  There are no more than
the limit allows, and no fewer unless the machine has halted. -/
theorem ticks_of_settle {limit : Nat} {r : Report}
    (h : (settle v ((m.start v).andThen (Machine.runFor v limit))).result = .ok r) :
    r.ticks ≤ limit ∧
      ((m.start v).machine.after v limit).core.ticks = m.core.ticks + r.ticks ∧
      (r.halted = false → r.ticks = limit) := by
  obtain ⟨hcount, hhalted⟩ := result_settle_eq_ok v h
  rw [Outcome.machine_andThen, Machine.machine_runFor] at hhalted
  have hlength := Machine.eq_length_of_result_runFor v hcount
  have hticks : ((m.start v).machine.after v limit).core.ticks =
      m.core.ticks + r.ticks := by
    rw [hlength]
    exact Machine.ticks_after v limit (m.start v).machine
  refine ⟨?_, hticks, ?_⟩
  · rw [hlength]
    exact Core.length_gather_executing_le limit _
  · intro hr
    rw [hr] at hhalted
    have hrunning := (Core.isHalted_eq_false_iff _).1 hhalted
    have hspent : ((m.start v).machine.after v limit).core.ticks = m.core.ticks + limit :=
      Machine.ticks_after_of_running v limit _ hrunning
    omega

end

end Clock

namespace ClockLoop

section

variable {μ ω : Type} [Bus μ] [Sink ω] (v : Verbosity)

/-- **Clock runs are bounded runs.**  With a limit, a clock run of any machine comes to its
end, and it leaves behind what a start and a bounded run with the limit as its budget
leave, and a report of it, which its log tells in words at the end, unless there was a fault.
The limit is one on the ticks since
the start: no more of them are counted, and no fewer unless the machine has halted.  A
limit of zero executes nothing, and leaves even a halted machine running.

Without a limit, a clock run comes to its end exactly if so many ticks halt the started
machine, and it then leaves behind what a bounded run with at least that budget leaves. -/
theorem clock_runs_are_bounded_runs (k : Clock) (m : Machine μ ω) :
    let started n := (m.start v).andThen (Machine.runFor v n)
    let bounded n := Clock.settle v (started n)
    let reached n := (m.start v).machine.after v n
    (∀ limit, k.limit = some limit →
      (∀ o, k.Ends v m o ↔ o = bounded limit) ∧
      (∀ patience, k.run v patience m = (bounded limit).map fun r _ => some r) ∧
      ∀ r, (bounded limit).result = .ok r →
        r.ticks ≤ limit ∧ (reached limit).core.ticks = m.core.ticks + r.ticks ∧
          (r.halted = false → r.ticks = limit)) ∧
    (∀ n, (bounded n).machine = reached n ∧
      (∀ r, (bounded n).result = .ok r →
        ∃ record : Record, (bounded n).log = (started n).log ++ v.note record ∧
          record.severity = .debug ∧
          record.message = "clock run finished: ClockReport \x7b ticks: " ++
            toString r.ticks ++ ", halted: " ++ toString r.halted ++ " \x7d") ∧
      ∀ e, (bounded n).result = .error e → (bounded n).log = (started n).log) ∧
    bounded 0 = ⟨.ok ⟨0, false⟩, m.edit Core.resume,
      (m.start v).log ++ v.note (.finished ⟨0, false⟩)⟩ ∧
    (k.limit = none →
      ((∃ o, k.Ends v m o) ↔ ∃ n, (reached n).core.state = .halted) ∧
      ∀ n, (reached n).core.state = .halted → ∀ budget, n ≤ budget →
        (∀ o, k.Ends v m o ↔ o = bounded budget) ∧
        ∀ patience, n ≤ patience →
          k.run v patience m = (bounded budget).map fun r _ => some r) := by
  intro started bounded reached
  refine ⟨?_, ?_, ?_, ?_⟩
  · intro limit hk
    have hsuffices : ∀ patience, k.Suffices v patience m := Clock.suffices_of_limit hk
    refine ⟨?_, ?_, fun r hr => Clock.ticks_of_settle hr⟩
    · intro o
      have hiff := Clock.ends_iff_of_suffices (o := o) (hsuffices 0)
      rwa [hk] at hiff
    · intro patience
      have hrun := Clock.run_of_suffices (hsuffices patience)
      rwa [hk] at hrun
  · intro n
    refine ⟨?_, fun r hr => Clock.log_settle_of_ok v hr,
      fun e he => Clock.log_settle_of_error v he⟩
    rw [Clock.machine_settle, Outcome.machine_andThen, Machine.machine_runFor]
  · exact Clock.settle_zero
  · intro hk
    have hends : ∀ n, (reached n).core.state = .halted → ∀ budget, n ≤ budget →
        ∀ o, k.Ends v m o ↔ o = bounded budget := by
      intro n hn budget hle o
      have hiff := Clock.ends_iff_of_suffices (o := o) (Clock.suffices_of_halted hk hn hle)
      rwa [hk] at hiff
    refine ⟨⟨?_, ?_⟩, ?_⟩
    · rintro ⟨o, ho⟩
      exact Clock.exists_halted_of_ends hk ho
    · rintro ⟨n, hn⟩
      exact ⟨bounded n, (hends n hn n (Nat.le_refl n) _).2 rfl⟩
    · intro n hn budget hbudget
      refine ⟨hends n hn budget hbudget, ?_⟩
      intro patience hpatience
      -- Both budgets are as good as `n`.
      have hsame : (m.start v).machine.runFor v patience =
          (m.start v).machine.runFor v budget := by
        rw [Machine.runFor_of_le v hpatience hn, Machine.runFor_of_le v hbudget hn]
      have hrun := Clock.run_of_suffices (Clock.suffices_of_halted hk hn hpatience)
      rw [hk] at hrun
      rw [hrun]
      simp only [bounded, started, Outcome.andThen, Option.getD_none, hsame]

end

/-- A program that prints 5 and halts, on a machine that is halted and has counted 40
ticks. -/
def rested : Machine Bank Buffer :=
  ⟨{ Core.powerOn (Bus.replay Bank.zero [(0, 0x04), (1, 5), (2, 0x06)]) with
      state := .halted, ticks := 40 },
    Buffer.empty⟩

theorem clock_runs_are_bounded_runs_rested :
    let limited : Clock := ⟨1000, some 2⟩
    let unlimited : Clock := ⟨1000, none⟩
    (limited.run .off 0 rested).result = some (.ok ⟨2, false⟩) ∧
      (rested.start .off).machine.core.ticks = 40 ∧
      ((rested.start .off).machine.after .off 2).core.ticks = 42 ∧
      (unlimited.run .off 2 rested).result = none ∧
      (unlimited.run .off 3 rested).result = some (.ok ⟨3, true⟩) ∧
      (limited.run (.upTo .debug) 0 rested).log.map Record.message =
        ["clock started at PC 0x00",
          "clock run finished: ClockReport \x7b ticks: 2, halted: false \x7d"] ∧
      ∃ o, unlimited.Ends .off rested o ∧ o.result = .ok ⟨3, true⟩ := by
  intro limited unlimited
  let bounded n :=
    Clock.settle .off ((rested.start .off).andThen (Machine.runFor .off n))
  have htwo : (bounded 2).result = .ok ⟨2, false⟩ := by
    rfl
  have hnine : (bounded 9).result = .ok ⟨3, true⟩ := by
    rfl
  have hhalted : ((rested.start .off).machine.after .off 3).core.state = .halted := by
    rfl
  have hearly : (unlimited.run .off 2 rested).result = none := by
    rfl
  have hmessages : (limited.run (.upTo .debug) 0 rested).log.map Record.message =
      ["clock started at PC 0x00",
        "clock run finished: ClockReport \x7b ticks: 2, halted: false \x7d"] := by
    decide +kernel
  obtain ⟨hlimit, _⟩ := clock_runs_are_bounded_runs .off limited rested
  obtain ⟨_, _, _, hnone⟩ := clock_runs_are_bounded_runs .off unlimited rested
  obtain ⟨_, hrun, hticks⟩ := hlimit 2 rfl
  obtain ⟨hends, hpatient⟩ := (hnone rfl).2 3 hhalted 9 (by decide)
  refine ⟨?_, rfl, (hticks _ htwo).2.1, hearly, ?_, hmessages, bounded 9, (hends _).2 rfl,
    hnine⟩
  · rw [hrun 0, Outcome.result_map]
    exact congrArg some htwo
  · rw [hpatient 3 (Nat.le_refl 3), Outcome.result_map]
    exact congrArg some hnine

end ClockLoop
end ByteMachine
