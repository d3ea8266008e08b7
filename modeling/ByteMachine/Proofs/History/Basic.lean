import ByteMachine.Proofs.Trajectory

/-!
# Histories

A history is a list of commands.  What it makes of the core is decided by the core
alone, command by command.  A run is as many ticks as its budget, so that a history
can be unrolled into single steps, and the moments within a run become moments of the
history.

**Results.**
* `core_perform`, `core_performAll`: a command and a history act on the core without
  regard to the sink and to the log.
* `core_performAll_unroll`: a history and its single steps lead to the same core.
* `getElem?_result_performAll`: the responses to a history, one by one.
* `chronicle_take_succ`: a chronicle grows by one entry with each command.
* `chronicle_eq_flatMap_zip`: a chronicle that can be told from the responses.
-/

namespace ByteMachine
namespace Command

/-- The single steps that a command amounts to. -/
def unroll : Command → List Command
  | runFor budget => List.replicate budget tick
  | runUntilHalt budget => List.replicate budget tick
  | clock k patience => start :: List.replicate (k.limit.getD patience) tick
  | cmd => [cmd]

section

variable {μ : Type} [Bus μ]

/-- What a command makes of the core. -/
def apply (c : Core μ) : Command → Core μ
  | tick => c.next
  | runFor budget => Core.next^[budget] c
  | runUntilHalt budget => Core.next^[budget] c
  | clock k patience => Core.next^[k.limit.getD patience] c.resume
  | start => c.resume
  | stop => c.halt
  | reset => c.reset
  | poke a x => c.poke a x
  | loadProgram program => c.loadProgram program
  | setPc x => c.jump x
  | setSp x => c.setSp x
  | setRegister i x => c.setRegister i x
  | select i => c.select i
  | setEqual b => c.setEqual b
  | read _ | register _ | print _ | fault _ | drain | listing _ _ | dump => c

end

end Command

namespace Core

section

variable {μ : Type} [Bus μ]

/-- What a history makes of the core. -/
def applyAll (cmds : List Command) (c : Core μ) : Core μ :=
  cmds.foldl Command.apply c

variable (c : Core μ)

@[simp]
theorem applyAll_nil : applyAll [] c = c := rfl

@[simp]
theorem applyAll_cons (cmd : Command) (cmds : List Command) :
    applyAll (cmd :: cmds) c = applyAll cmds (cmd.apply c) := rfl

theorem applyAll_append (before rest : List Command) :
    applyAll (before ++ rest) c = applyAll rest (applyAll before c) := by
  simp [applyAll]

theorem applyAll_replicate_tick (n : Nat) :
    applyAll (List.replicate n .tick) c = next^[n] c := by
  induction n generalizing c with
  | zero => rfl
  | succ n ih =>
      rw [List.replicate_succ, applyAll_cons, ih, Function.iterate_succ_apply]
      rfl

theorem applyAll_unroll (cmd : Command) : applyAll cmd.unroll c = cmd.apply c := by
  cases cmd with
  | runFor budget => exact applyAll_replicate_tick c budget
  | runUntilHalt budget => exact applyAll_replicate_tick c budget
  | clock k patience => exact applyAll_replicate_tick c.resume (k.limit.getD patience)
  | _ => rfl

/-- A history and its single steps make the same of the core. -/
theorem applyAll_flatMap_unroll (cmds : List Command) :
    applyAll (cmds.flatMap Command.unroll) c = applyAll cmds c := by
  induction cmds generalizing c with
  | nil => rfl
  | cons cmd cmds ih =>
      rw [List.flatMap_cons, applyAll_append, applyAll_unroll, ih, applyAll_cons]

end

end Core

namespace Machine

section

variable {μ ω : Type} [Bus μ] [Sink ω] (v : Verbosity)

/-- A command acts on the core without regard to the sink and to the log. -/
theorem core_perform (cmd : Command) (m : Machine μ ω) :
    (m.perform v cmd).machine.core = cmd.apply m.core := by
  cases cmd with
  | tick => exact core_tick v m
  | runFor budget =>
      change (m.runFor v budget).machine.core = _
      rw [machine_runFor, core_after]
      rfl
  | runUntilHalt budget =>
      change (m.runFor v budget).machine.core = _
      rw [machine_runFor, core_after]
      rfl
  | clock k patience =>
      change (k.run v patience m).machine.core = _
      rw [Clock.machine_run, core_after]
      rfl
  | _ => rfl

theorem core_performAll (cmds : List Command) (m : Machine μ ω) :
    (performAll v cmds m).machine.core = m.core.applyAll cmds := by
  induction cmds generalizing m with
  | nil => rfl
  | cons cmd cmds ih =>
      rw [performAll_cons, Outcome.machine_andThen, Outcome.machine_map, ih, core_perform,
        Core.applyAll_cons]

/-- The core after one more command of a history. -/
theorem core_performAll_take_succ {cmds : List Command} {n : Nat} {cmd : Command}
    (h : cmds[n]? = some cmd) (m : Machine μ ω) :
    (performAll v (cmds.take (n + 1)) m).machine.core =
      cmd.apply (performAll v (cmds.take n) m).machine.core := by
  rw [core_performAll, core_performAll, List.take_add_one, h, Core.applyAll_append]
  rfl

/-- A history and its single steps lead to the same core. -/
theorem core_performAll_unroll (cmds : List Command) (m : Machine μ ω) :
    (performAll v (cmds.flatMap Command.unroll) m).machine.core =
      (performAll v cmds m).machine.core := by
  rw [core_performAll, core_performAll, Core.applyAll_flatMap_unroll]

/-- The response to a command of a history is the one that it gets where it stands. -/
theorem getElem?_result_performAll {cmds : List Command} {n : Nat} {cmd : Command}
    (h : cmds[n]? = some cmd) (m : Machine μ ω) :
    (performAll v cmds m).result[n]? =
      some ((performAll v (cmds.take n) m).machine.perform v cmd).result := by
  induction cmds generalizing n m with
  | nil => cases h
  | cons first cmds ih =>
      rw [performAll_cons, Outcome.result_andThen, Outcome.result_map]
      cases n with
      | zero =>
          obtain rfl := Option.some.inj h
          rfl
      | succ n =>
          rw [List.getElem?_cons_succ] at h ⊢
          rw [ih h, List.take_succ_cons, performAll_cons]
          rfl

/-- What `f` lists of each command of a history and of the core it finds, in order. -/
def chronicle {α : Type} (f : Command → Core μ → List α) :
    List Command → Machine μ ω → List α
  | [], _ => []
  | cmd :: cmds, m => f cmd m.core ++ chronicle f cmds (m.perform v cmd).machine

section

variable {α : Type} (f : Command → Core μ → List α)

@[simp]
theorem chronicle_nil (m : Machine μ ω) : chronicle v f [] m = [] := rfl

theorem chronicle_cons (cmd : Command) (cmds : List Command) (m : Machine μ ω) :
    chronicle v f (cmd :: cmds) m =
      f cmd m.core ++ chronicle v f cmds (m.perform v cmd).machine := rfl

theorem chronicle_append (before rest : List Command) (m : Machine μ ω) :
    chronicle v f (before ++ rest) m =
      chronicle v f before m ++ chronicle v f rest (performAll v before m).machine := by
  induction before generalizing m with
  | nil => rfl
  | cons cmd cmds ih =>
      rw [List.cons_append, chronicle_cons, chronicle_cons, ih, List.append_assoc,
        performAll_cons, Outcome.machine_andThen, Outcome.machine_map]

/-- A chronicle grows by one entry with each command. -/
theorem chronicle_take_succ {cmds : List Command} {n : Nat} {cmd : Command}
    (h : cmds[n]? = some cmd) (m : Machine μ ω) :
    chronicle v f (cmds.take (n + 1)) m =
      chronicle v f (cmds.take n) m ++
        f cmd (performAll v (cmds.take n) m).machine.core := by
  rw [List.take_add_one, h, chronicle_append]
  simp [chronicle_cons]

/-- What is listed command by command may be rearranged command by command. -/
theorem map_chronicle {β : Type} {F : List α → List β} (hnil : F [] = [])
    (happend : ∀ xs ys, F (xs ++ ys) = F xs ++ F ys) (cmds : List Command)
    (m : Machine μ ω) :
    F (chronicle v f cmds m) = chronicle v (fun cmd c => F (f cmd c)) cmds m := by
  induction cmds generalizing m with
  | nil => exact hnil
  | cons cmd cmds ih => rw [chronicle_cons, chronicle_cons, happend, ih]

/-- A chronicle that can be told from the responses, command by command. -/
theorem chronicle_eq_flatMap_zip {g : Command → Response → List α}
    (h : ∀ (cmd : Command) (m : Machine μ ω), f cmd m.core = g cmd (m.perform v cmd).result)
    (cmds : List Command) (m : Machine μ ω) :
    chronicle v f cmds m =
      (cmds.zip (performAll v cmds m).result).flatMap fun p => g p.1 p.2 := by
  induction cmds generalizing m with
  | nil => rfl
  | cons cmd cmds ih =>
      rw [chronicle_cons, ih, h, performAll_cons, Outcome.result_andThen,
        Outcome.result_map, List.zip_cons_cons, List.flatMap_cons]

/-- A chronicle is one of the core, whatever the sink and the log. -/
theorem chronicle_congr {ω' : Type} [Sink ω'] (v' : Verbosity) {m : Machine μ ω}
    {m' : Machine μ ω'} (h : m.core = m'.core) (cmds : List Command) :
    chronicle v f cmds m = chronicle v' f cmds m' := by
  induction cmds generalizing m m' with
  | nil => rfl
  | cons cmd cmds ih =>
      have hcore : (m.perform v cmd).machine.core = (m'.perform v' cmd).machine.core := by
        rw [core_perform, core_perform, h]
      rw [chronicle_cons, chronicle_cons, h, ih hcore]

end

end

end Machine
end ByteMachine
