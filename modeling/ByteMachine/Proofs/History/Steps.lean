import ByteMachine.Proofs.History.Basic

/-!
# Histories step by step

The single steps of a history take the machine through the same states as the history
itself, the moments within a run included, and they log the same but for the reports of
clocks.  So whatever is to be told of every moment of a history can be told of its single
steps, where nothing but a tick executes an instruction.

**Results.**
* `machine_performAll_unroll`, `filter_log_performAll_unroll`: a history and its single
  steps lead to the same machine and log the same, reports apart.
* `eq_getLastD_chronicle`: what a part of the core holds after some steps is what the
  last of them that changed it has put there.
-/

namespace ByteMachine
namespace Command

/-- Whether a command is as many ticks as its budget. -/
def isRun : Command → Bool
  | runFor _ | runUntilHalt _ | clock _ _ => true
  | _ => false

/-- What `f` lists of the core that a single tick finds. -/
def atTicks {μ α : Type} (f : Core μ → List α) (cmd : Command) (c : Core μ) : List α :=
  match cmd with
  | tick => f c
  | _ => []

theorem isRun_of_mem_unroll {step cmd : Command} (h : step ∈ cmd.unroll) :
    step.isRun = false := by
  cases cmd with
  | runFor budget =>
      rw [List.eq_of_mem_replicate h]
      rfl
  | runUntilHalt budget =>
      rw [List.eq_of_mem_replicate h]
      rfl
  | clock k patience =>
      rcases List.mem_cons.1 h with rfl | hmem
      · rfl
      · rw [List.eq_of_mem_replicate hmem]
        rfl
  | _ =>
      rw [List.mem_singleton.1 h]
      rfl

/-- No step of an unrolled history is a run. -/
theorem isRun_of_mem_flatMap_unroll {step : Command} {cmds : List Command}
    (h : step ∈ cmds.flatMap unroll) : step.isRun = false := by
  obtain ⟨cmd, _, hstep⟩ := List.mem_flatMap.1 h
  exact isRun_of_mem_unroll hstep

/-- A history is reset by its commands only, and not in the course of a run. -/
theorem reset_mem_flatMap_unroll {cmds : List Command} :
    reset ∈ cmds.flatMap unroll ↔ reset ∈ cmds := by
  have hcmd : ∀ cmd : Command, reset ∈ cmd.unroll ↔ cmd = reset := by
    intro cmd
    cases cmd <;> simp [unroll, List.mem_replicate]
  simp only [List.mem_flatMap, hcmd, exists_eq_right]

/-- The single steps of a history without a reset. -/
theorem single_of_mem_flatMap_unroll {cmds : List Command} (h : reset ∉ cmds) :
    ∀ step ∈ cmds.flatMap unroll, step.isRun = false ∧ step ≠ reset := by
  intro step hstep
  refine ⟨isRun_of_mem_flatMap_unroll hstep, ?_⟩
  rintro rfl
  exact h (reset_mem_flatMap_unroll.1 hstep)

end Command

namespace Machine

section

variable {μ ω : Type} [Bus μ] [Sink ω] (v : Verbosity)

/-! ### A command and its single steps -/

theorem machine_perform_unroll (cmd : Command) (m : Machine μ ω) :
    (performAll v cmd.unroll m).machine = (m.perform v cmd).machine := by
  cases cmd with
  | runFor budget =>
      rw [Command.unroll, performAll_replicate_tick, Outcome.machine_map]
      exact (machine_runFor v budget m).symm
  | runUntilHalt budget =>
      rw [Command.unroll, performAll_replicate_tick, Outcome.machine_map]
      exact (machine_runFor v budget m).symm
  | clock k patience =>
      rw [Command.unroll, performAll_cons, Outcome.machine_andThen, Outcome.machine_map,
        performAll_replicate_tick, Outcome.machine_map]
      exact (Clock.machine_run k v patience m).symm
  | _ => rfl

/-- A command and its single steps log the same, but for the report of a clock. -/
theorem filter_log_perform_unroll {p : Record → Bool} (hp : ∀ r, p (.finished r) = false)
    (cmd : Command) (m : Machine μ ω) :
    (performAll v cmd.unroll m).log.filter p = (m.perform v cmd).log.filter p := by
  cases cmd with
  | runFor budget =>
      rw [Command.unroll, performAll_replicate_tick, Outcome.log_map, ← log_runFor]
      rfl
  | runUntilHalt budget =>
      rw [Command.unroll, performAll_replicate_tick, Outcome.log_map, ← log_runFor]
      rfl
  | clock k patience =>
      change _ = (k.run v patience m).log.filter p
      rw [Command.unroll, performAll_cons, Outcome.log_andThen, Outcome.log_map,
        performAll_replicate_tick, Outcome.log_map, Clock.log_run, List.filter_append _ (v.keep _),
        Clock.filter_closing hp, List.append_nil]
      rfl
  | _ => exact congrArg (List.filter p) (List.append_nil _)

/-! ### A history and its single steps -/

theorem machine_performAll_unroll (cmds : List Command) (m : Machine μ ω) :
    (performAll v (cmds.flatMap Command.unroll) m).machine =
      (performAll v cmds m).machine := by
  induction cmds generalizing m with
  | nil => rfl
  | cons cmd cmds ih =>
      rw [List.flatMap_cons, performAll_append, performAll_cons]
      simp only [Outcome.machine_andThen, Outcome.machine_map, machine_perform_unroll, ih]

/-- A history and its single steps log the same, but for the reports of clocks. -/
theorem filter_log_performAll_unroll {p : Record → Bool} (hp : ∀ r, p (.finished r) = false)
    (cmds : List Command) (m : Machine μ ω) :
    (performAll v (cmds.flatMap Command.unroll) m).log.filter p =
      (performAll v cmds m).log.filter p := by
  induction cmds generalizing m with
  | nil => rfl
  | cons cmd cmds ih =>
      rw [List.flatMap_cons, performAll_append, performAll_cons]
      simp only [Outcome.log_andThen, Outcome.log_map, List.filter_append,
        machine_perform_unroll, filter_log_perform_unroll v hp, ih]

/-- A history has come to the end of a command when the steps up to there are done. -/
theorem machine_performAll_take_unroll (cmds : List Command) (j : Nat) (m : Machine μ ω) :
    (performAll v ((cmds.flatMap Command.unroll).take
        ((cmds.take j).flatMap Command.unroll).length) m).machine =
      (performAll v (cmds.take j) m).machine := by
  have hsteps : cmds.flatMap Command.unroll =
      (cmds.take j).flatMap Command.unroll ++ (cmds.drop j).flatMap Command.unroll := by
    rw [← List.flatMap_append, List.take_append_drop]
  rw [hsteps, List.take_left, machine_performAll_unroll]

/-! ### What is listed step by step -/

section

variable {α : Type}

/-- What a part of the core holds after some steps is what the last of them that changed
it has put there.  `events` lists what a step puts there. -/
theorem eq_getLastD_chronicle (part : Core μ → α) {events : Command → Core μ → List α}
    (hstep : ∀ (cmd : Command) (c : Core μ), cmd.isRun = false →
      part (cmd.apply c) = (events cmd c).getLastD (part c))
    {steps : List Command} (hsteps : ∀ step ∈ steps, step.isRun = false)
    (m : Machine μ ω) :
    part (performAll v steps m).machine.core =
      (chronicle v events steps m).getLastD (part m.core) := by
  induction steps generalizing m with
  | nil => rfl
  | cons cmd steps ih =>
      have hcmd := hstep cmd m.core (hsteps cmd List.mem_cons_self)
      have hrest := ih (fun step h => hsteps step (List.mem_cons_of_mem _ h))
        (m.perform v cmd).machine
      rw [core_perform, hcmd] at hrest
      rw [performAll_cons, Outcome.machine_andThen, Outcome.machine_map, hrest,
        chronicle_cons]
      simp only [List.getLastD_eq_getLast?, List.getLast?_append, Option.getD_or]

end

end

end Machine
end ByteMachine
