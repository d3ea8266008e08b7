import ByteMachine.Machine.Command
import ByteMachine.Proofs.Outlook
import Mathlib.Logic.Function.Iterate

/-!
# Trajectories

A trajectory is what comes of ticking the machine again and again, whether or
not a tick faults.  The bounded runs and the limited clock runs stop early,
each for reasons of its own, but what they skip are ticks that a halted machine
would ignore.  So all of them walk along the same trajectory.

**Results.**
* `core_after`, `output_after`: along a trajectory the core takes one step per
  tick, and the sink receives the notices of each core on the way.
* `machine_runFor`, `log_runFor`: a bounded run is as many ticks as its budget.
* `runFor_succ_of_ok`, `runFor_succ_of_error`: a bounded run counts its first
  instruction and goes on, or ends with the fault of its first tick.
* `filter_log_start`, `filter_log_stop`, `filter_closing`: starts, stops and clocks make
  records of their own and no others.
* `run_eq_conclude`: a clock run is a start followed by a bounded run, with a
  report at the end; `machine_run` and `log_run` say where it ends and what it logs.
-/

namespace ByteMachine
namespace Core

section

variable {μ : Type} [Bus μ] {c : Core μ}

theorem ticks_next_of_execute {op : Opcode} (h : c.outlook = .execute op) :
    c.next.ticks = c.ticks + 1 := by
  rw [next_of_execute h]
  exact ticks_effect op c.fetch.count

/-- The tick counter counts the executed instructions. -/
theorem ticks_next (c : Core μ) : c.next.ticks = c.ticks + c.executing.length := by
  cases h : c.outlook with
  | idle => simp [next_of_idle h, executing, h]
  | fault =>
      rw [next_of_fault h]
      simp only [executing, h]
      rfl
  | execute op =>
      rw [ticks_next_of_execute h]
      simp [executing, h]

theorem ticks_le_next (c : Core μ) : c.ticks ≤ c.next.ticks := by
  rw [ticks_next]
  exact Nat.le_add_right _ _

theorem state_next_of_fault (h : c.outlook = .fault) : c.next.state = .halted := by
  rw [next_of_fault h]
  rfl

/-- An instruction other than a halt leaves the core running. -/
theorem state_next_of_ne_halt {op : Opcode} (h : c.outlook = .execute op)
    (hop : op ≠ .halt) : c.next.state = .running := by
  rw [next_of_execute h, state_effect, if_neg hop]
  exact (outlook_eq_execute_iff.1 h).1

/-- Along a trajectory that has come to a halt nothing changes any more. -/
theorem iterate_of_halted (h : c.state = .halted) (n : Nat) : next^[n] c = c :=
  Function.iterate_fixed (next_of_idle (outlook_eq_idle_iff.2 h)) n

/-- A core that still runs after some ticks has run all the time. -/
theorem state_iterate_of_le {n k : Nat} (h : (next^[n] c).state = .running)
    (hk : k ≤ n) : (next^[k] c).state = .running := by
  obtain ⟨d, rfl⟩ := Nat.exists_eq_add_of_le hk
  cases hs : (next^[k] c).state with
  | running => rfl
  | halted =>
      rw [Nat.add_comm, Function.iterate_add_apply, iterate_of_halted hs, hs] at h
      cases h

/-- What `f` lists of each of the next `n` ticks, in order. -/
def gather {α : Type} (f : Core μ → List α) (n : Nat) (c : Core μ) : List α :=
  (List.range n).flatMap fun k => f (next^[k] c)

@[simp]
theorem gather_zero {α : Type} (f : Core μ → List α) (c : Core μ) :
    gather f 0 c = [] := rfl

theorem gather_succ {α : Type} (f : Core μ → List α) (n : Nat) (c : Core μ) :
    gather f (n + 1) c = f c ++ gather f n c.next := by
  simp only [gather, List.range_succ_eq_map, List.flatMap_cons, List.flatMap_map]
  rfl

theorem gather_add {α : Type} (f : Core μ → List α) (a b : Nat) (c : Core μ) :
    c.gather f (a + b) = c.gather f a ++ (next^[a] c).gather f b := by
  induction a generalizing c with
  | zero => rw [Nat.zero_add, gather_zero, List.nil_append, Function.iterate_zero_apply]
  | succ a ih =>
      rw [Nat.succ_add, gather_succ, gather_succ, ih, List.append_assoc,
        Function.iterate_succ_apply]

/-- What the next `n` ticks tell the sink. -/
def noticesOf (n : Nat) (c : Core μ) : List Notice :=
  (List.range n).flatMap fun k => (next^[k] c).notices

theorem noticesOf_succ (c : Core μ) (n : Nat) :
    c.noticesOf (n + 1) = c.notices ++ c.next.noticesOf n :=
  gather_succ notices n c

end

end Core

namespace Machine

section

variable {μ ω : Type}

theorem isHalted_of_running {m : Machine μ ω} (h : m.core.state = .running) :
    m.isHalted = false :=
  m.core.isHalted_eq_false_iff.2 h

theorem isHalted_of_halted {m : Machine μ ω} (h : m.core.state = .halted) :
    m.isHalted = true :=
  m.core.isHalted_eq_true_iff.2 h

/-- A start makes no other record than its own. -/
theorem filter_log_start (v : Verbosity) {p : Record → Bool}
    (h : ∀ pc, p (.started pc) = false) (m : Machine μ ω) :
    (m.start v).log.filter p = [] := by
  simp only [start]
  split
  · exact v.filter_note_of_false (h _)
  · rfl

/-- A stop makes no other record than its own. -/
theorem filter_log_stop (v : Verbosity) {p : Record → Bool}
    (h : ∀ pc, p (.stopped pc) = false) (m : Machine μ ω) :
    (m.stop v).log.filter p = [] := by
  simp only [stop]
  split
  · rfl
  · exact v.filter_note_of_false (h _)

variable [Bus μ] [Sink ω]

/-- Tick `n` times, whether or not a tick faults. -/
def tickTimes (v : Verbosity) :
    Nat → Machine μ ω → Outcome (List (Except DecodeFault Unit)) μ ω
  | 0, m => ⟨[], m, []⟩
  | n + 1, m =>
      let o := m.tick v
      let p := tickTimes v n o.machine
      ⟨o.result :: p.result, p.machine, o.log ++ p.log⟩

/-- The machine after `n` ticks. -/
def after (v : Verbosity) (n : Nat) (m : Machine μ ω) : Machine μ ω :=
  (m.tickTimes v n).machine

variable (v : Verbosity)

theorem tickTimes_succ (n : Nat) (m : Machine μ ω) :
    m.tickTimes v (n + 1) =
      (m.tick v).andThen fun m' =>
        (m'.tickTimes v n).map fun rs _ => (m.tick v).result :: rs := rfl

@[simp]
theorem after_zero (m : Machine μ ω) : m.after v 0 = m := rfl

theorem after_succ (n : Nat) (m : Machine μ ω) :
    m.after v (n + 1) = (m.tick v).machine.after v n := rfl

theorem after_add (a b : Nat) (m : Machine μ ω) :
    m.after v (a + b) = (m.after v a).after v b := by
  induction a generalizing m with
  | zero => simp
  | succ a ih =>
      rw [Nat.succ_add, after_succ, after_succ]
      exact ih (m.tick v).machine

theorem after_succ' (n : Nat) (m : Machine μ ω) :
    m.after v (n + 1) = ((m.after v n).tick v).machine := by
  rw [after_add]
  rfl

theorem core_after (n : Nat) (m : Machine μ ω) :
    (m.after v n).core = Core.next^[n] m.core := by
  induction n generalizing m with
  | zero => rfl
  | succ n ih =>
      rw [after_succ, ih, core_tick, Function.iterate_succ_apply]

theorem output_after (n : Nat) (m : Machine μ ω) :
    (m.after v n).output = Sink.receiveAll m.output (m.core.noticesOf n) := by
  induction n generalizing m with
  | zero => rfl
  | succ n ih =>
      rw [after_succ, ih, output_tick, core_tick, Core.noticesOf_succ,
        Sink.receiveAll_append]

theorem result_tickTimes (n : Nat) (m : Machine μ ω) :
    (m.tickTimes v n).result =
      (List.range n).map fun k => (Core.next^[k] m.core).verdict := by
  induction n generalizing m with
  | zero => rfl
  | succ n ih =>
      rw [tickTimes_succ, Outcome.result_andThen, Outcome.result_map, ih, core_tick,
        result_tick, List.range_succ_eq_map, List.map_cons, List.map_map]
      rfl

theorem tickTimes_of_halted {m : Machine μ ω} (h : m.core.state = .halted) (n : Nat) :
    m.tickTimes v n = ⟨List.replicate n (.ok ()), m, []⟩ := by
  induction n with
  | zero => rfl
  | succ n ih =>
      rw [tickTimes_succ, tick_of_halted v m h]
      simp [Outcome.andThen, Outcome.map, ih, List.replicate_succ]

theorem after_of_halted {m : Machine μ ω} (h : m.core.state = .halted) (n : Nat) :
    m.after v n = m := by
  rw [after, tickTimes_of_halted v h]

/-- Ticks as commands of a host. -/
theorem performAll_replicate_tick (n : Nat) (m : Machine μ ω) :
    performAll v (List.replicate n .tick) m =
      (m.tickTimes v n).map fun rs _ =>
        rs.map (Response.ofExcept fun _ => .done) := by
  induction n generalizing m with
  | zero => rfl
  | succ n ih =>
      rw [List.replicate_succ, performAll_cons, tickTimes_succ]
      simp [Outcome.andThen, Outcome.map, perform, ih]

/-! ### A single tick of a running machine -/

/-- A running machine executes an instruction, which is counted, or faults, which
halts it. -/
theorem tick_of_running {m : Machine μ ω} (h : m.core.state = .running) :
    ((m.tick v).result = .ok () ∧
        (m.tick v).machine.core.ticks = m.core.ticks + 1) ∨
      ((m.tick v).result = .error m.core.faultHere ∧
        (m.tick v).machine.core.state = .halted) := by
  rw [result_tick, core_tick]
  cases ho : m.core.outlook with
  | idle =>
      rw [Core.outlook_eq_idle_iff, h] at ho
      cases ho
  | fault =>
      right
      exact ⟨Core.verdict_eq_error_iff.2 ⟨ho, rfl⟩, Core.state_next_of_fault ho⟩
  | execute op =>
      left
      refine ⟨Core.verdict_eq_ok_iff.2 ?_, Core.ticks_next_of_execute ho⟩
      rw [ho]
      simp

/-! ### Bounded runs -/

theorem runUntil_isHalted (n : Nat) (m : Machine μ ω) :
    (m.runUntil v isHalted n).machine = m.after v n ∧
      (m.runUntil v isHalted n).log = (m.tickTimes v n).log := by
  induction n generalizing m with
  | zero => exact ⟨rfl, rfl⟩
  | succ n ih =>
      cases hs : m.core.state with
      | halted =>
          rw [runUntil_of_stop v isHalted _ (isHalted_of_halted hs),
            after_of_halted v hs, tickTimes_of_halted v hs]
          exact ⟨rfl, rfl⟩
      | running =>
          rw [runUntil_succ v isHalted n (isHalted_of_running hs), after_succ,
            tickTimes_succ]
          rcases tick_of_running v hs with ⟨hr, _⟩ | ⟨hr, hh⟩
          · rw [Outcome.unlessFault_of_ok hr]
            obtain ⟨hm, hl⟩ := ih (m.tick v).machine
            exact ⟨hm, by simp [hl]⟩
          · rw [Outcome.unlessFault_of_error hr, after_of_halted v hh]
            simp [tickTimes_of_halted v hh]

/-- A bounded run ends where as many ticks as its budget end. -/
theorem machine_runFor (n : Nat) (m : Machine μ ω) :
    (m.runFor v n).machine = m.after v n :=
  (runUntil_isHalted v n m).1

/-- A bounded run logs what as many ticks as its budget log. -/
theorem log_runFor (n : Nat) (m : Machine μ ω) :
    (m.runFor v n).log = (m.tickTimes v n).log :=
  (runUntil_isHalted v n m).2

theorem ticks_le_after (n : Nat) (m : Machine μ ω) :
    m.core.ticks ≤ (m.after v n).core.ticks := by
  induction n generalizing m with
  | zero => exact Nat.le_refl _
  | succ n ih =>
      have h := ih (m.tick v).machine
      rw [core_tick] at h
      rw [after_succ]
      exact Nat.le_trans (Core.ticks_le_next _) h

/-- A machine that still runs after `n` ticks has executed `n` instructions. -/
theorem ticks_after_of_running (n : Nat) (m : Machine μ ω)
    (h : (m.after v n).core.state = .running) :
    (m.after v n).core.ticks = m.core.ticks + n := by
  induction n generalizing m with
  | zero => rfl
  | succ n ih =>
      rw [after_succ] at h ⊢
      cases hs : m.core.state with
      | halted =>
          rw [tick_of_halted v m hs, after_of_halted v hs, hs] at h
          cases h
      | running =>
          rcases tick_of_running v hs with ⟨_, ht⟩ | ⟨_, hh⟩
          · rw [ih _ h, ht]
            omega
          · rw [after_of_halted v hh, hh] at h
            cases h

@[simp]
theorem runFor_zero (m : Machine μ ω) : m.runFor v 0 = ⟨.ok 0, m, []⟩ := by
  simp [runFor, Outcome.map, Except.map]

theorem runFor_succ_of_error (n : Nat) {m : Machine μ ω} {e : DecodeFault}
    (hs : m.core.state = .running) (hr : (m.tick v).result = .error e) :
    m.runFor v (n + 1) = ⟨.error e, (m.tick v).machine, (m.tick v).log⟩ := by
  rw [runFor, runUntil_succ v isHalted n (isHalted_of_running hs),
    Outcome.unlessFault_of_error hr]
  rfl

/-- A bounded run counts its first instruction and goes on. -/
theorem runFor_succ_of_ok (n : Nat) {m : Machine μ ω}
    (hs : m.core.state = .running) (hr : (m.tick v).result = .ok ()) :
    m.runFor v (n + 1) =
      (m.tick v).andThen fun m' =>
        (m'.runFor v n).map fun r _ => r.map (· + 1) := by
  have hcount : (m.tick v).machine.core.ticks = m.core.ticks + 1 := by
    rcases tick_of_running v hs with ⟨_, h⟩ | ⟨h, _⟩
    · exact h
    · rw [h] at hr
      cases hr
  have hle := ticks_le_after v n (m.tick v).machine
  rw [runFor, runUntil_succ v isHalted n (isHalted_of_running hs),
    Outcome.unlessFault_of_ok hr]
  simp only [Outcome.andThen, Outcome.map, runFor, runUntil_isHalted]
  cases (runUntil v isHalted n (m.tick v).machine).result with
  | error e => rfl
  | ok u =>
      simp only [Except.map, hcount] at hle ⊢
      congr 2
      omega

end

end Machine

namespace Clock

section

variable {μ ω : Type} [Bus μ] [Sink ω]

/-- Until the limit is reached, a clock that counts from `since` stops for a halt
only. -/
theorem runUntil_isDone {k : Clock} {limit : Nat} (v : Verbosity)
    (hk : k.limit = some limit) (since n : Nat) (m : Machine μ ω)
    (hsince : since ≤ m.core.ticks) (hn : m.core.ticks + n = since + limit) :
    m.runUntil v (k.isDone since) n = m.runUntil v Machine.isHalted n := by
  induction n generalizing m with
  | zero => rfl
  | succ n ih =>
      cases hs : m.core.state with
      | halted =>
          rw [Machine.runUntil_of_stop v _ _ (k.isDone_of_halted since hs),
            Machine.runUntil_of_stop v _ _ (Machine.isHalted_of_halted hs)]
      | running =>
          have hd : k.isDone since m = false := by
            have hlt : ¬ limit ≤ m.core.ticks - since := by omega
            simp [isDone, limitReached, hk, hlt, Machine.isHalted_of_running hs]
          rw [Machine.runUntil_succ v _ n hd,
            Machine.runUntil_succ v _ n (Machine.isHalted_of_running hs)]
          rcases Machine.tick_of_running v hs with ⟨hr, ht⟩ | ⟨hr, _⟩
          · rw [Outcome.unlessFault_of_ok hr, Outcome.unlessFault_of_ok hr]
            simp only [Outcome.andThen]
            rw [ih (m.tick v).machine (by omega) (by omega)]
          · rw [Outcome.unlessFault_of_error hr, Outcome.unlessFault_of_error hr]

/-- What a clock makes of a bounded run.  It reports the number of instructions
executed, unless the run neither halted nor had a limit. -/
def conclude (k : Clock) (v : Verbosity) (o : Outcome (Except DecodeFault Nat) μ ω) :
    Outcome (Option (Except DecodeFault Report)) μ ω :=
  match o.result with
  | .error e => ⟨some (.error e), o.machine, o.log⟩
  | .ok n =>
      if o.machine.isHalted || k.limit.isSome then
        let r : Report := ⟨n, o.machine.isHalted⟩
        ⟨some (.ok r), o.machine, o.log ++ v.note (.finished r)⟩
      else
        ⟨none, o.machine, o.log⟩

/-- The record that a clock makes of a bounded run that is over. -/
def closing (k : Clock) (o : Outcome (Except DecodeFault Nat) μ ω) : List Record :=
  match o.result with
  | .error _ => []
  | .ok n =>
      if o.machine.isHalted || k.limit.isSome then
        [.finished ⟨n, o.machine.isHalted⟩]
      else
        []

omit [Bus μ] [Sink ω] in
theorem machine_conclude (k : Clock) (v : Verbosity)
    (o : Outcome (Except DecodeFault Nat) μ ω) :
    (k.conclude v o).machine = o.machine := by
  unfold conclude
  cases o.result with
  | error e => rfl
  | ok n =>
      dsimp only
      split <;> rfl

omit [Bus μ] [Sink ω] in
theorem log_conclude (k : Clock) (v : Verbosity)
    (o : Outcome (Except DecodeFault Nat) μ ω) :
    (k.conclude v o).log = o.log ++ v.keep (k.closing o) := by
  unfold conclude closing
  cases o.result with
  | error e => simp
  | ok n =>
      dsimp only
      split
      · rw [← Verbosity.note_eq_keep]
      · simp

omit [Bus μ] [Sink ω] in
/-- A clock makes no other record of a run than its report. -/
theorem filter_closing {p : Record → Bool} (h : ∀ r, p (.finished r) = false) (k : Clock)
    (v : Verbosity) (o : Outcome (Except DecodeFault Nat) μ ω) :
    (v.keep (k.closing o)).filter p = [] := by
  unfold closing
  cases o.result with
  | error e => rfl
  | ok n =>
      dsimp only
      split
      · rw [← Verbosity.note_eq_keep]
        exact v.filter_note_of_false (h _)
      · rfl

/-- When a bounded run with the budget of a clock is over, the clock is done with
the machine if it is halted or if there is a limit. -/
theorem isDone_after (k : Clock) (v : Verbosity) (patience : Nat) (m : Machine μ ω) :
    k.isDone m.core.ticks (m.after v (k.limit.getD patience)) =
      ((m.after v (k.limit.getD patience)).isHalted || k.limit.isSome) := by
  cases hk : k.limit with
  | none =>
      rw [isDone_of_limit_eq_none _ _ hk]
      simp
  | some limit =>
      cases hs : (m.after v limit).core.state with
      | halted =>
          have hh := Machine.isHalted_of_halted hs
          simp [isDone, hh]
      | running =>
          have ht := Machine.ticks_after_of_running v limit m hs
          have hle : limit ≤ (m.after v limit).core.ticks - m.core.ticks := by omega
          simp [isDone, limitReached, hk, hle]

/-- The loop of a clock run stops for a halt only, until its budget is spent. -/
theorem runUntil_isDone_start (k : Clock) (v : Verbosity) (patience : Nat)
    (m : Machine μ ω) :
    (m.start v).machine.runUntil v (k.isDone m.core.ticks) (k.limit.getD patience) =
      (m.start v).machine.runUntil v Machine.isHalted (k.limit.getD patience) := by
  cases hk : k.limit with
  | none =>
      have hd : k.isDone m.core.ticks = (Machine.isHalted : Machine μ ω → Bool) := by
        funext m'
        exact isDone_of_limit_eq_none m.core.ticks m' hk
      rw [hd]
  | some limit =>
      exact runUntil_isDone v hk m.core.ticks limit _ (Nat.le_refl _) rfl

/-- A clock run is a start followed by a bounded run. -/
theorem run_eq_conclude (k : Clock) (v : Verbosity) (patience : Nat)
    (m : Machine μ ω) :
    k.run v patience m =
      k.conclude v ((m.start v).andThen (Machine.runFor v (k.limit.getD patience))) := by
  have hloop := runUntil_isDone_start k v patience m
  have hdone := isDone_after k v patience (m.start v).machine
  rw [← (Machine.runUntil_isHalted v _ (m.start v).machine).1] at hdone
  change k.isDone m.core.ticks _ = _ at hdone
  simp only [run, conclude, Outcome.andThen, hloop, Machine.runFor, Outcome.map]
  cases (Machine.runUntil v Machine.isHalted (k.limit.getD patience)
      (m.start v).machine).result with
  | error e => rfl
  | ok u =>
      simp only [Except.map, hdone]
      rfl

/-- A clock run ends where a start and as many ticks as its budget end. -/
theorem machine_run (k : Clock) (v : Verbosity) (patience : Nat) (m : Machine μ ω) :
    (k.run v patience m).machine =
      (m.start v).machine.after v (k.limit.getD patience) := by
  rw [run_eq_conclude, machine_conclude, Outcome.machine_andThen,
    Machine.machine_runFor]

/-- A clock run logs a start, what as many ticks as its budget log, and a report. -/
theorem log_run (k : Clock) (v : Verbosity) (patience : Nat) (m : Machine μ ω) :
    (k.run v patience m).log =
      (m.start v).log ++
        ((m.start v).machine.tickTimes v (k.limit.getD patience)).log ++
        v.keep (k.closing
          ((m.start v).andThen (Machine.runFor v (k.limit.getD patience)))) := by
  rw [run_eq_conclude, log_conclude, Outcome.log_andThen, Machine.log_runFor]

end

end Clock
end ByteMachine
