import ByteMachine.Proofs.Trajectory

/-!
# Recovery from a fault

A faulting tick has fetched a byte before it finds out that the byte is no opcode.
So it leaves the address register and the data register changed, and the machine
halted.  Neither matters to a host that repairs the machine and starts it again: the
next tick fetches anew, and no edit looks at the two registers or at the run state.

**Results.**
* `tickTimes_withScratch`: the address and data registers of a running machine are
  dead.
* `resume_reviseAll_next`: after a fault, some edits and a start, the core is where
  the edits alone take it, but for the dead registers.
* `performAll_fault_edits_start_ticks`: what the sink is told of a fault is all that
  is left of it.
-/

namespace ByteMachine

/-- An edit of a host: it changes the core and executes nothing. -/
inductive Edit
  | poke (a x : UInt8)
  | loadProgram (program : List UInt8)
  | setPc (x : UInt8)
  | setSp (x : UInt8)
  | setRegister (i x : UInt8)
  | select (i : UInt8)
  | setEqual (b : Bool)
  deriving DecidableEq

namespace Edit

def command : Edit → Command
  | poke a x => .poke a x
  | loadProgram program => .loadProgram program
  | setPc x => .setPc x
  | setSp x => .setSp x
  | setRegister i x => .setRegister i x
  | select i => .select i
  | setEqual b => .setEqual b

section

variable {μ : Type} [Bus μ]

def revise (c : Core μ) : Edit → Core μ
  | poke a x => c.poke a x
  | loadProgram program => c.loadProgram program
  | setPc x => c.jump x
  | setSp x => c.setSp x
  | setRegister i x => c.setRegister i x
  | select i => c.select i
  | setEqual b => c.setEqual b

end

end Edit

namespace Core

section

variable {μ : Type}

/-- The core with other contents of the address and data registers. -/
def withScratch (c : Core μ) (a x : UInt8) : Core μ :=
  { c with regs := { c.regs with mar := a, mdr := x } }

variable [Bus μ]

/-- The core after several edits. -/
def reviseAll (edits : List Edit) (c : Core μ) : Core μ :=
  edits.foldl Edit.revise c

/-! ### Edits look past a fault -/

theorem next_of_fault_eq {c : Core μ} (h : c.outlook = .fault) :
    c.next = (c.withScratch c.regs.pc c.opcodeByte).halt :=
  next_of_fault h

/-- What commutes with each edit commutes with all of them. -/
theorem reviseAll_comm {f : Core μ → Core μ}
    (hf : ∀ (e : Edit) (c : Core μ), e.revise (f c) = f (e.revise c))
    (edits : List Edit) (c : Core μ) :
    reviseAll edits (f c) = f (reviseAll edits c) := by
  induction edits generalizing c with
  | nil => rfl
  | cons e edits ih =>
      have h := ih (e.revise c)
      rw [← hf e c] at h
      exact h

theorem reviseAll_withScratch (edits : List Edit) (c : Core μ) (a x : UInt8) :
    reviseAll edits (c.withScratch a x) = (reviseAll edits c).withScratch a x := by
  refine reviseAll_comm (f := fun c => c.withScratch a x) ?_ edits c
  intro e c
  cases e <;> rfl

theorem reviseAll_halt (edits : List Edit) (c : Core μ) :
    reviseAll edits c.halt = (reviseAll edits c).halt := by
  refine reviseAll_comm ?_ edits c
  intro e c
  cases e <;> rfl

theorem state_reviseAll (edits : List Edit) (c : Core μ) :
    (reviseAll edits c).state = c.state := by
  induction edits generalizing c with
  | nil => rfl
  | cons e edits ih =>
      have he : (e.revise c).state = c.state := by
        cases e <;> rfl
      exact (ih (e.revise c)).trans he

/-- After a fault, some edits and a start, the core is where the edits alone take it,
but for the dead registers. -/
theorem resume_reviseAll_next {c : Core μ} (h : c.outlook = .fault)
    (edits : List Edit) :
    (reviseAll edits c.next).resume =
      (reviseAll edits c).withScratch c.regs.pc c.opcodeByte := by
  have hs : c.state = .running := (outlook_eq_fault_iff.1 h).1
  have hrun : (reviseAll edits c).state = .running := by
    rw [state_reviseAll, hs]
  rw [next_of_fault_eq h, reviseAll_halt, reviseAll_withScratch]
  change ((reviseAll edits c).withScratch c.regs.pc c.opcodeByte).resume = _
  rw [resume, withScratch, ← hrun]

end

end Core

namespace Machine

section

variable {μ ω : Type} [Bus μ] [Sink ω] (v : Verbosity)

/-! ### The address and data registers of a running machine are dead -/

theorem tick_withScratch {c : Core μ} (h : c.state = .running) (a x : UInt8) (o : ω) :
    tick v ⟨c.withScratch a x, o⟩ = tick v ⟨c, o⟩ := by
  have hc : isHalted (⟨c, o⟩ : Machine μ ω) = false := isHalted_of_running h
  have hs : isHalted (⟨c.withScratch a x, o⟩ : Machine μ ω) = false :=
    isHalted_of_running h
  rw [tick, tick, hc, hs]
  rfl

theorem tickTimes_withScratch {c : Core μ} (h : c.state = .running) (a x : UInt8)
    (o : ω) {n : Nat} (hn : 1 ≤ n) :
    tickTimes v n ⟨c.withScratch a x, o⟩ = tickTimes v n ⟨c, o⟩ := by
  cases n with
  | zero => cases hn
  | succ n => rw [tickTimes_succ, tickTimes_succ, tick_withScratch v h]

/-! ### Two runs with the same edits -/

/-- The edits of a host act on the core alone. -/
theorem performAll_edits (edits : List Edit) (m : Machine μ ω) :
    performAll v (edits.map Edit.command) m =
      ⟨edits.map fun _ => .done, m.edit (Core.reviseAll edits), []⟩ := by
  induction edits generalizing m with
  | nil => rfl
  | cons e edits ih =>
      have he : m.perform v e.command = ⟨.done, m.edit e.revise, []⟩ := by
        cases e <;> rfl
      rw [List.map_cons, performAll_cons, he, Outcome.andThen, ih]
      rfl

/-- The edits of a host, and ticks afterwards. -/
theorem performAll_edits_ticks (edits : List Edit) (n : Nat) (m : Machine μ ω) :
    let spared := performAll v (edits.map Edit.command ++ List.replicate n .tick) m
    spared.result =
        edits.map (fun _ => .done) ++
          ((m.edit (Core.reviseAll edits)).tickTimes v n).result.map
            (.ofExcept fun _ => .done) ∧
      spared.machine = (m.edit (Core.reviseAll edits)).after v n := by
  intro spared
  simp only [spared, performAll_append, performAll_edits, performAll_replicate_tick,
    Outcome.result_andThen, Outcome.machine_andThen, Outcome.result_map,
    Outcome.machine_map]
  exact ⟨trivial, rfl⟩

/-- After a fault, some edits and a start, the machine is where the edits alone take
it, but for the dead registers and the report. -/
theorem start_edits_tick_of_fault {m : Machine μ ω} (h : m.core.outlook = .fault)
    (edits : List Edit) :
    (((m.tick v).machine.edit (Core.reviseAll edits)).start v).machine =
      ⟨(Core.reviseAll edits m.core).withScratch m.core.regs.pc m.core.opcodeByte,
        Sink.receive m.output (.faulted m.core.faultHere)⟩ := by
  have ho := output_tick v m
  rw [Core.notices_of_fault h, Sink.receiveAll_cons, Sink.receiveAll_nil] at ho
  rw [← Core.resume_reviseAll_next h, ← ho, ← core_tick v m]
  rfl

/-- A faulting tick, edits, a start, and ticks: as if the edits had been made before
the fault, and the sink had been told of it all the same. -/
theorem performAll_fault_edits_start_ticks {m : Machine μ ω}
    (h : m.core.outlook = .fault) (edits : List Edit) {n : Nat} (hn : 1 ≤ n) :
    let recovered := performAll v
      (.tick :: (edits.map Edit.command ++ .start :: List.replicate n .tick)) m
    let repaired : Machine μ ω :=
      ⟨Core.reviseAll edits m.core, Sink.receive m.output (.faulted m.core.faultHere)⟩
    recovered.result =
        .fault m.core.faultHere ::
          (edits.map (fun _ => .done) ++ .done ::
            (repaired.tickTimes v n).result.map (.ofExcept fun _ => .done)) ∧
      recovered.machine = repaired.after v n := by
  intro recovered repaired
  have hs : (Core.reviseAll edits m.core).state = .running := by
    rw [Core.state_reviseAll]
    exact (Core.outlook_eq_fault_iff.1 h).1
  have hverdict : (m.tick v).result = .error m.core.faultHere := by
    rw [result_tick]
    exact Core.verdict_eq_error_iff.2 ⟨h, rfl⟩
  have hticks : tickTimes v n
      (((m.tick v).machine.edit (Core.reviseAll edits)).start v).machine =
        repaired.tickTimes v n := by
    rw [start_edits_tick_of_fault v h]
    exact tickTimes_withScratch v hs _ _ _ hn
  refine ⟨?_, ?_⟩
  · rw [← hticks]
    simp only [recovered, performAll_cons, performAll_append, performAll_edits,
      performAll_replicate_tick, Outcome.result_andThen, Outcome.result_map, perform,
      hverdict]
    rfl
  · rw [after, ← hticks]
    simp only [recovered, performAll_cons, performAll_append, performAll_edits,
      performAll_replicate_tick, Outcome.machine_andThen, Outcome.machine_map, perform]

end

end Machine

namespace Recovery

section

variable {μ : Type} [Bus μ] (v : Verbosity)

/-- A decode fault leaves no trace beyond its report.  A repair and a start bring the
machine where the repair alone would have brought it, so that the ticks afterwards
return the same and end in the same core. -/
theorem fault_leaves_only_its_report :
    (∀ (ω : Type) [Sink ω] (m : Machine μ ω),
      m.core.state = .running →
      Opcode.ofByte? (Bus.read m.core.memory m.core.regs.pc) = none →
      let e : DecodeFault := ⟨Bus.read m.core.memory m.core.regs.pc, m.core.regs.pc⟩
      let regs := { m.core.regs with mar := e.pc, mdr := e.opcode }
      m.tick v =
        ⟨.error e, ⟨{ m.core with regs := regs, state := .halted },
          (Sink.fault m.output e).1⟩,
          v.note (.faulted e) ++ v.keep (Sink.fault m.output e).2⟩) ∧
    (∀ (m : Machine μ Buffer) (edits : List Edit) (n : Nat),
      m.core.state = .running →
      Opcode.ofByte? (Bus.read m.core.memory m.core.regs.pc) = none →
      1 ≤ n →
      let e : DecodeFault := ⟨Bus.read m.core.memory m.core.regs.pc, m.core.regs.pc⟩
      let repair := edits.map Edit.command
      let ticks := List.replicate n Command.tick
      let recovered := Machine.performAll v (.tick :: (repair ++ .start :: ticks)) m
      let spared := Machine.performAll v (repair ++ ticks) m
      recovered.machine.core = spared.machine.core ∧
        recovered.machine.output.printed = spared.machine.output.printed ∧
        (∃ later : List DecodeFault,
          recovered.machine.output.faults.toList =
              m.output.faults.toList ++ e :: later ∧
            spared.machine.output.faults.toList = m.output.faults.toList ++ later) ∧
        ∃ rs : List Response,
          rs.length = n ∧
            recovered.result = .fault e :: (edits.map (fun _ => .done) ++ .done :: rs) ∧
            spared.result = edits.map (fun _ => .done) ++ rs) := by
  refine ⟨?_, ?_⟩
  · intro ω _ m hs hb
    exact Machine.tick_of_fault v m hs hb
  · intro m edits n hs hb hn e repair ticks recovered spared
    have hf : m.core.outlook = .fault := Core.outlook_eq_fault_iff.2 ⟨hs, hb⟩
    obtain ⟨hrecovered, hrecoveredMachine⟩ :=
      Machine.performAll_fault_edits_start_ticks v hf edits hn
    obtain ⟨hspared, hsparedMachine⟩ := Machine.performAll_edits_ticks v edits n m
    change recovered.result = _ at hrecovered
    change recovered.machine = _ at hrecoveredMachine
    change spared.result = _ at hspared
    change spared.machine = _ at hsparedMachine
    rw [hrecovered, hrecoveredMachine, hspared, hsparedMachine, Machine.core_after,
      Machine.core_after, Machine.output_after, Machine.output_after,
      Machine.result_tickTimes, Machine.result_tickTimes]
    refine ⟨rfl, ?_, ?_, ?_⟩
    · rw [← Array.toList_inj, ← Sink.receiveAll_cons, Buffer.printed_receiveAll,
        Buffer.printed_receiveAll]
      rfl
    · rw [← Sink.receiveAll_cons]
      refine ⟨_, ?_, Buffer.faults_receiveAll _ _⟩
      rw [Buffer.faults_receiveAll]
      rfl
    · refine ⟨_, ?_, rfl, rfl⟩
      rw [List.length_map, List.length_map, List.length_range]

end

/-- A program whose first byte is no opcode. -/
def broken : Machine Bank Buffer :=
  Machine.powerOn (Bus.replay Bank.zero [(0, 0xFF), (1, 5), (2, 0x06)]) Buffer.empty

theorem fault_leaves_only_its_report_broken :
    broken.core.state = .running ∧
      Opcode.ofByte? (Bus.read broken.core.memory broken.core.regs.pc) = none ∧
      (broken.tick .off).result = .error ⟨0xFF, 0⟩ ∧
      (Machine.performAll .off
          [.tick, .poke 0 0x04, .select 3, .start, .tick, .tick, .tick] broken).machine.core =
        (Machine.performAll .off
          [.poke 0 0x04, .select 3, .tick, .tick, .tick] broken).machine.core := by
  have hs : broken.core.state = .running := rfl
  have hb : Opcode.ofByte? (Bus.read broken.core.memory broken.core.regs.pc) = none := by
    decide +kernel
  obtain ⟨hfault, hrepair⟩ := fault_leaves_only_its_report (μ := Bank) .off
  obtain ⟨hcore, _⟩ := hrepair broken [.poke 0 0x04, .select 3] 3 hs hb (by decide)
  refine ⟨hs, hb, ?_, hcore⟩
  rw [hfault Buffer broken hs hb]
  rfl

end Recovery
end ByteMachine
