import ByteMachine.Emulator.Command
import ByteMachine.Proofs.Accounting
import ByteMachine.Sink.Buffer
import Mathlib.Data.List.Forall2

/-!
# The emulator keeps step with the machine

The emulator hands each operation on to the machine and gives back the response in the
types of its host: counts in 32 bits, errors as texts, the tick counter as a double.  A
count fits because it does not exceed the budget, a text tells the fault, and a double is
exact below 2⁵³.  The core does not depend on the sink, so that the callback has no say in
what the host sees.

**Invariant.**  The core of the emulator is that of a machine over a memory of zeros that
has carried out the same operations, whatever the sink of that machine.

**Results.**
* `result_runFor_eq_ok_iff`, `result_runFor_eq_error_iff`: a run of the emulator returns
  the count of the machine, or the text of its fault.
* `shows_perform`, `shows_performAll`: from the same core the host gets to see what the
  machine returns.
* `emulator_keeps_step_with_machine`: all of this from the creation of the emulator.
-/

namespace ByteMachine

namespace Emulator

/-- The host gets to see what the machine has returned.  Of a memory it sees the bytes of all
the addresses in order. -/
inductive Response.Shows : Response → ByteMachine.Response → Prop
  | done : Shows .done .done
  | error {x : Error} {e : DecodeFault} (h : x.message = e.message) :
      Shows (.error x) (.fault e)
  | count {k : UInt32} {n : Nat} (h : k.toNat = n) : Shows (.count k) (.count n)
  | byte (x : UInt8) : Shows (.byte x) (.byte x)
  | bytes {xs : List UInt8} {memory general : Bank} (hlength : xs.length = 256)
      (hbyte : ∀ a : UInt8, xs[a.toNat]? = some (memory.get a)) :
      Shows (.bytes xs) (.contents memory general)
  | text (line : Line) : Shows (.text line.text) (.lines [line])

section

variable {shown : List Response} {plain : List ByteMachine.Response}
    (h : List.Forall₂ Response.Shows shown plain) {i : Nat}
include h

/-- Where the machine has a response, the host gets to see it. -/
theorem exists_shows_of_getElem? {r : ByteMachine.Response} (hi : plain[i]? = some r) :
    ∃ r', shown[i]? = some r' ∧ Response.Shows r' r := by
  obtain ⟨hlt, rfl⟩ := List.getElem?_eq_some_iff.1 hi
  have hlt' : i < shown.length := by
    rw [h.length_eq]
    exact hlt
  exact ⟨shown[i], List.getElem?_eq_getElem hlt', h.get hlt' hlt⟩

theorem exists_bytes_of_getElem? {memory general : Bank}
    (hi : plain[i]? = some (.contents memory general)) :
    ∃ xs, shown[i]? = some (.bytes xs) ∧ xs.length = 256 ∧
      ∀ a : UInt8, xs[a.toNat]? = some (memory.get a) := by
  obtain ⟨r, hr, hshows⟩ := exists_shows_of_getElem? h hi
  cases hshows with
  | bytes hlength hbyte => exact ⟨_, hr, hlength, hbyte⟩

theorem getElem?_eq_text {line : Line} (hi : plain[i]? = some (.lines [line])) :
    shown[i]? = some (.text line.text) := by
  obtain ⟨r, hr, hshows⟩ := exists_shows_of_getElem? h hi
  cases hshows with
  | text => exact hr

end

section

variable {σ : Type} (v : Verbosity)

/-- A text is an error of the host exactly if it is that of the fault. -/
theorem mapError_eq_error_iff {α : Type} {r : Except DecodeFault α} {x : Error} :
    r.mapError Error.ofFault = .error x ↔
      ∃ e, r = .error e ∧ x.message = e.message := by
  cases r with
  | error e =>
      constructor
      · intro h
        exact ⟨e, rfl, congrArg Error.message (Except.error.inj h).symm⟩
      · rintro ⟨f, hf, hx⟩
        obtain rfl := Except.error.inj hf
        exact congrArg Except.error (congrArg Error.mk hx.symm)
  | ok a =>
      constructor
      · intro h
        cases h
      · rintro ⟨f, hf, _⟩
        cases hf

theorem result_tick_eq_error_iff {m : Emulator σ} {x : Error} :
    (tick v m).result = .error x ↔
      ∃ e, (Machine.tick v m).result = .error e ∧ x.message = e.message :=
  mapError_eq_error_iff

theorem result_tick_eq_ok_iff {m : Emulator σ} {u : Unit} :
    (tick v m).result = .ok u ↔ (Machine.tick v m).result = .ok u := by
  rw [tick, Outcome.result_map]
  cases (Machine.tick v m).result with
  | error e => simp [Except.mapError]
  | ok w => simp [Except.mapError]

theorem result_runFor_eq_error_iff {budget : UInt32} {m : Emulator σ} {x : Error} :
    (runFor v budget m).result = .error x ↔
      ∃ e, (Machine.runFor v budget.toNat m).result = .error e ∧ x.message = e.message := by
  rw [runFor, Outcome.result_map, mapError_eq_error_iff]
  cases (Machine.runFor v budget.toNat m).result with
  | error e => simp [Except.map]
  | ok n => simp [Except.map]

/-- The count of a bounded run is not cut by its width. -/
theorem result_runFor_eq_ok_iff {budget k : UInt32} {m : Emulator σ} :
    (runFor v budget m).result = .ok k ↔
      (Machine.runFor v budget.toNat m).result = .ok k.toNat := by
  rw [runFor, Outcome.result_map]
  cases hr : (Machine.runFor v budget.toNat m).result with
  | error e => simp [Except.map, Except.mapError]
  | ok n =>
      have hn : n ≤ budget.toNat := by
        rw [Machine.eq_length_of_result_runFor v hr]
        exact Core.length_gather_executing_le budget.toNat m.core
      have hcast := toNat_ofNat_of_le hn
      constructor
      · intro h
        rw [← hcast, Except.ok.inj h]
      · intro h
        rw [Except.ok.inj h]
        exact congrArg Except.ok UInt32.ofNat_toNat

end

section

variable {σ ω : Type} [Sink ω] (v v' : Verbosity)

theorem toMachine_ne_drain (cmd : Command) : cmd.toMachine ≠ .drain := by
  cases cmd <;> exact ByteMachine.Command.noConfusion

/-- The response of the emulator shows that of the machine which it is. -/
theorem shows_perform_self (cmd : Command) (m : Emulator σ) :
    Response.Shows (perform v cmd m).result (Machine.perform v cmd.toMachine m).result := by
  cases cmd with
  | tick =>
      change Response.Shows (.ofExcept _ (tick v m).result)
        (.ofExcept _ (Machine.tick v m).result)
      cases hr : (tick v m).result with
      | error x =>
          obtain ⟨e, he, hx⟩ := (result_tick_eq_error_iff v).1 hr
          rw [he]
          exact .error hx
      | ok u =>
          rw [(result_tick_eq_ok_iff v).1 hr]
          exact .done
  | runFor budget =>
      change Response.Shows (.ofExcept _ (runFor v budget m).result)
        (.ofExcept _ (Machine.runFor v budget.toNat m).result)
      cases hr : (runFor v budget m).result with
      | error x =>
          obtain ⟨e, he, hx⟩ := (result_runFor_eq_error_iff v).1 hr
          rw [he]
          exact .error hx
      | ok k =>
          rw [(result_runFor_eq_ok_iff v).1 hr]
          exact .count rfl
  | start => exact .done
  | stop => exact .done
  | reset => exact .done
  | poke a x => exact .done
  | loadProgram program => exact .done
  | readMemory a => exact .byte (m.core.memory.get a)
  | register i => exact .byte (m.core.regs.get i)
  | memory =>
      change Response.Shows (.bytes m.core.memory.toList)
        (.contents (Bus.snapshot m.core.memory) m.core.regs.general)
      rw [Bus.snapshot_bank]
      exact .bytes m.core.memory.length_toList m.core.memory.getElem?_toList
  | disassemble a => exact .text (Line.decodeAt m.core.memory a)

variable {m : Emulator σ} {m' : Machine Bank ω}

/-- From the same core the emulator shows what the machine returns, whatever its sink. -/
theorem shows_perform (h : m.core = m'.core) (cmd : Command) :
    Response.Shows (perform v cmd m).result (m'.perform v' cmd.toMachine).result := by
  rw [← Machine.result_perform_of_core_eq v v' h (toMachine_ne_drain cmd)]
  exact shows_perform_self v cmd m

theorem core_perform_eq (h : m.core = m'.core) (cmd : Command) :
    (perform v cmd m).machine.core = (m'.perform v' cmd.toMachine).machine.core := by
  rw [machine_perform, Machine.core_perform, Machine.core_perform, h]

theorem core_performAll_eq (h : m.core = m'.core) (cmds : List Command) :
    (performAll v cmds m).machine.core =
      (m'.performAll v' (cmds.map Command.toMachine)).machine.core := by
  rw [machine_performAll, Machine.core_performAll, Machine.core_performAll, h]

/-- From the same core each response of the emulator shows that of the machine. -/
theorem shows_performAll (h : m.core = m'.core) (cmds : List Command) :
    List.Forall₂ Response.Shows (performAll v cmds m).result
      (m'.performAll v' (cmds.map Command.toMachine)).result := by
  induction cmds generalizing m m' with
  | nil => exact .nil
  | cons cmd cmds ih =>
      exact .cons (shows_perform v v' h cmd) (ih (core_perform_eq v v' h cmd))

end

end Emulator

namespace Emulation

section

variable {σ ω : Type} [Sink ω] (v v' : Verbosity)

/-- **The emulator keeps step with the machine.**  Let an emulator, with any callback, and a
machine over a memory of zeros, with any sink, carry out the same operations.  After each
of them, a faulting one included, the two have the same core; the display shows that core,
with the tick counter exact below 2⁵³, and from there on as near as 53 binary digits are; and
each response shows that of the machine.  With
the callback as its sink the machine is the emulator.  From any state of the emulator, and
so at any reading of the tick counter, the count of a run is the number of executed
instructions; a tick and a run fail exactly when those of the machine do, with the text of
the same fault; and the text tells the fault. -/
theorem emulator_keeps_step_with_machine (callback : Callback σ) (o : ω)
    (cmds : List Emulator.Command) :
    (∀ n,
      let shown := Emulator.performAll v (cmds.take n) (Emulator.create callback)
      let plain := Machine.performAll v' ((cmds.take n).map Emulator.Command.toMachine)
        (Machine.powerOn Bank.zero o)
      let c := plain.machine.core
      shown.machine.core = c ∧
        Emulator.display shown.machine =
          ⟨c.regs.pc, c.regs.sp, c.regs.mar, c.regs.mdr, c.current, c.flags.equal,
            c.isHalted, Binary64.nearest c.ticks⟩ ∧
        (c.ticks < 1 <<< 53 →
          (Emulator.display shown.machine).ticks = c.ticks) ∧
        Binary64.Close c.ticks (Emulator.display shown.machine).ticks ∧
        List.Forall₂ Emulator.Response.Shows shown.result plain.result) ∧
    (let host := Emulator.performAll v cmds (Emulator.create callback)
      let calling := Machine.performAll v (cmds.map Emulator.Command.toMachine)
        (Machine.powerOn Bank.zero callback)
      host.machine = calling.machine ∧ host.log = calling.log) ∧
    (∀ (m : Emulator σ) (budget : UInt32),
      let shown := Emulator.runFor v budget m
      let plain := Machine.runFor v budget.toNat m
      shown.machine = plain.machine ∧
        (∀ k, shown.result = .ok k ↔ plain.result = .ok k.toNat) ∧
        (∀ k, shown.result = .ok k →
          k.toNat = (m.core.gather Core.executing budget.toNat).length ∧
            shown.machine.core.ticks = m.core.ticks + k.toNat) ∧
        (∀ x, shown.result = .error x ↔
          ∃ e, plain.result = .error e ∧ x.message = e.message)) ∧
    (∀ m : Emulator σ,
      let shown := Emulator.tick v m
      let plain := Machine.tick v m
      shown.machine = plain.machine ∧
        ∀ x, shown.result = .error x ↔
          ∃ e, plain.result = .error e ∧ x.message = e.message) ∧
    ∀ e f : DecodeFault, e.message = f.message → e = f := by
  have hfresh : (Emulator.create callback).core = (Machine.powerOn Bank.zero o).core := rfl
  refine ⟨?_, ?_, ?_, ?_, ?_⟩
  · intro n shown plain c
    have hcore : shown.machine.core = c :=
      Emulator.core_performAll_eq v v' hfresh (cmds.take n)
    have hdisplay : Emulator.display shown.machine =
        ⟨c.regs.pc, c.regs.sp, c.regs.mar, c.regs.mdr, c.current, c.flags.equal, c.isHalted,
          Binary64.nearest c.ticks⟩ := by
      rw [← hcore]
      rfl
    refine ⟨hcore, hdisplay, ?_, ?_, Emulator.shows_performAll v v' hfresh (cmds.take n)⟩
    · intro hticks
      rw [← hcore] at hticks ⊢
      exact Emulator.tickCount_of_lt hticks
    · rw [hdisplay]
      exact Binary64.close_nearest c.ticks
  · exact ⟨Emulator.machine_performAll v _ cmds, Emulator.log_performAll v _ cmds⟩
  · intro m budget shown plain
    refine ⟨rfl, fun k => Emulator.result_runFor_eq_ok_iff v, ?_,
      fun x => Emulator.result_runFor_eq_error_iff v⟩
    intro k hk
    have hcount := Machine.eq_length_of_result_runFor v
      ((Emulator.result_runFor_eq_ok_iff v).1 hk)
    have hticks := Machine.ticks_after v budget.toNat m
    rw [← Machine.machine_runFor, ← hcount] at hticks
    exact ⟨hcount, hticks⟩
  · intro m shown plain
    exact ⟨rfl, fun x => Emulator.result_tick_eq_error_iff v⟩
  · intro e f
    exact DecodeFault.message_inj

end

/-- An emulator that is about to save 7 and to run into a byte that is no opcode, after
2⁴⁰ instructions. -/
def aged : Emulator (Array UInt8) :=
  let fresh := Emulator.create Callback.collecting
  fresh.edit fun c => { c.loadProgram [0x04, 7, 0xFF] with ticks := 1 <<< 40 }

theorem emulator_keeps_step_with_machine_aged :
    let cmds : List Emulator.Command :=
      [.loadProgram [0x04, 7, 0xFF], .runFor 1, .tick, .register 0, .memory, .disassemble 0]
    let shown := Emulator.performAll .off cmds (Emulator.create Callback.collecting)
    let plain := Machine.performAll .off (cmds.map Emulator.Command.toMachine)
      (Machine.powerOn Bank.zero Buffer.empty)
    plain.machine.core.ticks < 1 <<< 53 ∧
      (Emulator.display shown.machine).ticks = 1 ∧
      List.Forall₂ Emulator.Response.Shows (shown.result.take 4)
        [.done, .count 1, .fault ⟨0xFF, 2⟩, .byte 7] ∧
      (∃ xs, shown.result[4]? = some (.bytes xs) ∧ xs.length = 256 ∧
        xs[2]? = some 0xFF ∧ xs[255]? = some 0) ∧
      shown.result[5]? = some (.text "SAVE 0x07") ∧
      (Emulator.runFor .off 1 aged).result = .ok 1 ∧
      (Emulator.runFor .off 1 aged).machine.core.ticks = (1 <<< 40) + 1 ∧
      (Emulator.runFor .off 2 aged).result =
        .error ⟨"invalid instruction 0xFF at PC 0x02"⟩ ∧
      (Machine.runFor .off 2 aged).result = .error ⟨0xFF, 2⟩ := by
  intro cmds shown plain
  have hticks : plain.machine.core.ticks = 1 := by
    decide +kernel
  have hplain : plain.result.take 4 = [.done, .count 1, .fault ⟨0xFF, 2⟩, .byte 7] := by
    decide +kernel
  have hcells : plain.machine.core.memory.get 2 = 0xFF ∧
      plain.machine.core.memory.get 255 = 0 := by
    decide +kernel
  have hline : (Line.decodeAt plain.machine.core.memory 0).text = "SAVE 0x07" := by
    decide +kernel
  have hcount : (Emulator.runFor .off 1 aged).result = .ok 1 := by
    rfl
  have herror : (Emulator.runFor .off 2 aged).result =
      .error ⟨"invalid instruction 0xFF at PC 0x02"⟩ := by
    rfl
  have htext : "invalid instruction 0xFF at PC 0x02" =
      DecodeFault.message ⟨0xFF, 2⟩ := by
    decide +kernel
  obtain ⟨hprefixes, _, hruns, _, hinj⟩ := emulator_keeps_step_with_machine .off .off
    Callback.collecting Buffer.empty cmds
  obtain ⟨_, _, hdisplay, _, hshows⟩ := hprefixes cmds.length
  rw [List.take_length] at hdisplay hshows
  change List.Forall₂ Emulator.Response.Shows shown.result plain.result at hshows
  have hfour := List.forall₂_take 4 hshows
  rw [hplain] at hfour
  have hdump : plain.result[4]? = some (.contents (Bus.snapshot plain.machine.core.memory)
      plain.machine.core.regs.general) := rfl
  have hlisting : plain.result[5]? =
      some (.lines [Line.decodeAt plain.machine.core.memory 0]) := rfl
  obtain ⟨xs, hxs, hlength, hbyte⟩ := Emulator.exists_bytes_of_getElem? hshows hdump
  have hdisassembled := Emulator.getElem?_eq_text hshows hlisting
  rw [hline] at hdisassembled
  have hbelow : plain.machine.core.ticks < 1 <<< 53 := by
    rw [hticks]
    decide
  obtain ⟨_, _, hcounts, _⟩ := hruns aged 1
  obtain ⟨_, _, _, herrors⟩ := hruns aged 2
  -- The fault is told from the text.
  obtain ⟨e, he, hmessage⟩ := (herrors _).1 herror
  obtain rfl := hinj _ _ (htext.symm.trans hmessage)
  refine ⟨hbelow, (hdisplay hbelow).trans hticks, hfour, ⟨xs, hxs, hlength, ?_, ?_⟩,
    hdisassembled, hcount, (hcounts 1 hcount).2, herror, he⟩
  · exact (hbyte 2).trans (congrArg some ((Bus.get_snapshot _ 2).trans hcells.1))
  · exact (hbyte 255).trans (congrArg some ((Bus.get_snapshot _ 255).trans hcells.2))

end Emulation
end ByteMachine
