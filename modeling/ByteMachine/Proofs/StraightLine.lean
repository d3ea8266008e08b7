import ByteMachine.Proofs.Effect
import ByteMachine.Proofs.Footprint.Cells
import ByteMachine.Proofs.Reference.Refinement
import ByteMachine.Sink.Buffer

/-!
# A listing predicts straight-line execution

A listing decodes instructions without executing them.  As long as the machine neither
halts nor jumps, and writes to none of the bytes that are listed, it executes the
instructions line by line.

**Invariant.**  Behind an instruction that has been executed, the lines that are left
are the listing of the memory as it is then, from the program counter as it is then.

**Results.**
* `listing_next`: one instruction keeps the invariant.
* `getElem?_listing`: each line of the listing is the one that its tick finds.
* `runFor_of_inert`: lines that cannot jump, halt or write are executed to their end.
* `listing_predicts_execution`: what the ticks do, line by line, and where a bounded
  run of inert lines ends.
-/

namespace ByteMachine

/-- The instruction that a line shows, if it names one. -/
def Line.shown (l : Line) : Option Instruction :=
  l.instruction.map fun op =>
    Instruction.ofOpcode op (l.operands.getD 0 0) (l.operands.getD 1 0)

/-- Whether the instruction of a line is named, and can neither stop the machine, nor
jump, nor write to memory. -/
def Line.Inert (l : Line) : Prop :=
  ∃ op, l.instruction = some op ∧ op ∉ [.halt, .jmp, .jeq, .jne, .st, .push]

namespace Core

section

variable {μ : Type} [Bus μ]

/-- Whether the next tick executes a halt instruction or a jump that is taken. -/
def diverts (c : Core μ) : Bool :=
  match c.outlook with
  | .execute .halt | .execute .jmp => true
  | .execute .jeq => c.flags.equal
  | .execute .jne => !c.flags.equal
  | _ => false

variable {c : Core μ} {op : Opcode} (ho : c.outlook = .execute op)
include ho

theorem instruction_lineHere : c.lineHere.instruction = some op := by
  rw [lineHere, Line.instruction_decodeAt]
  exact (outlook_eq_execute_iff.1 ho).2

theorem shown_lineHere :
    c.lineHere.shown =
      some (Instruction.ofOpcode op (Bus.read c.memory (c.regs.pc + 1))
        (Bus.read c.memory (c.regs.pc + 2))) := by
  rw [lineHere, Line.decodeAt_of_ofByte? (outlook_eq_execute_iff.1 ho).2]
  cases op <;> rfl

theorem next_lineHere : c.lineHere.next = c.regs.pc + UInt8.ofNat op.size := by
  rw [Line.next, lineHere, Line.address_decodeAt,
    Line.size_decodeAt (outlook_eq_execute_iff.1 ho).2]

/-- An instruction that does not divert the machine leaves it running, at the address
behind the line. -/
theorem next_of_diverts_eq_false (hd : c.diverts = false) :
    c.next.state = .running ∧ c.next.regs.pc = c.lineHere.next := by
  rw [next_of_execute ho, next_lineHere ho, state_effect, pc_effect]
  have hs : c.fetch.count.state = .running := (outlook_eq_execute_iff.1 ho).1
  simp only [diverts, ho] at hd
  cases op with
  | halt => cases hd
  | jmp => cases hd
  | jeq => exact ⟨hs, if_neg (Bool.eq_false_iff.1 hd)⟩
  | jne =>
      rw [Bool.not_eq_false'] at hd
      exact ⟨hs, if_pos hd⟩
  | _ => exact ⟨hs, rfl⟩

/-- The records of an instruction start with its trace, and there is no other. -/
theorem records_of_execute :
    ∃ rest, c.records = .traced c.lineHere :: rest ∧ ∀ r ∈ rest, r.severity ≠ .trace := by
  cases op with
  | halt =>
      refine ⟨[.halted c.regs.pc], by simp only [records, ho], ?_⟩
      rintro r hr
      rw [List.mem_singleton.1 hr]
      simp [Record.severity]
  | _ => exact ⟨[], by simp only [records, ho], by simp⟩

end

section

variable {c : Core Bank} {op : Opcode}

/-- Behind an instruction that does not divert the machine and does not write to the
lines that are left, these lines are still the listing. -/
theorem listing_next {n : Nat} (ho : c.outlook = .execute op) (hd : c.diverts = false)
    (hw : ∀ w ∈ c.written,
      w.1 ∉ (Line.listing c.memory c.lineHere.next n).flatMap Line.addresses) :
    Line.listing c.next.memory c.next.regs.pc n =
      Line.listing c.memory c.lineHere.next n := by
  rw [(next_of_diverts_eq_false ho hd).2, memory_next]
  apply Line.listing_congr
  intro a ha
  apply Bus.get_replay_of_ne
  rintro w hmem rfl
  exact hw w hmem ha

/-- Each line of a listing is the one that its tick finds, and its tick executes it,
provided that none of the ticks faults, that none but the last diverts the machine, and
that none but the last writes to the lines. -/
theorem getElem?_listing {n : Nat} (hs : c.state = .running)
    (hok : ∀ k < n, (next^[k] c).outlook ≠ .fault)
    (hd : ∀ k, k + 1 < n → (next^[k] c).diverts = false)
    (hw : ∀ k, k + 1 < n → ∀ w ∈ (next^[k] c).written,
      w.1 ∉ (Line.listing c.memory c.regs.pc n).flatMap Line.addresses) :
    ∀ k < n, (∃ op, (next^[k] c).outlook = .execute op) ∧
      (Line.listing c.memory c.regs.pc n)[k]? = some (next^[k] c).lineHere := by
  induction n generalizing c with
  | zero =>
      rintro k hk
      exact absurd hk (Nat.not_lt_zero k)
  | succ n ih =>
      have hexec : ∃ op, c.outlook = .execute op := by
        cases ho : c.outlook with
        | idle =>
            rw [outlook_eq_idle_iff, hs] at ho
            cases ho
        | fault => exact absurd ho (hok 0 (Nat.succ_pos n))
        | execute op => exact ⟨op, rfl⟩
      rintro (_ | k) hk
      · exact ⟨hexec, rfl⟩
      · obtain ⟨op, ho⟩ := hexec
        have hfirst : 0 + 1 < n + 1 := by omega
        rw [Line.listing_succ, List.flatMap_cons] at hw
        have hd₀ := hd 0 hfirst
        have hlines := listing_next ho hd₀ fun w hmem ha =>
          hw 0 hfirst w hmem (List.mem_append_right _ ha)
        have hrest := ih (next_of_diverts_eq_false ho hd₀).1
          (fun j hj => hok (j + 1) (by omega)) (fun j hj => hd (j + 1) (by omega))
          (fun j hj w hmem ha => hw (j + 1) (by omega) w hmem
            (List.mem_append_right _ (hlines ▸ ha))) k (by omega)
        rw [hlines] at hrest
        exact hrest

/-- An inert line neither diverts the machine nor writes to memory. -/
theorem next_of_inert (hs : c.state = .running) (hl : c.lineHere.Inert) :
    (∃ op, c.outlook = .execute op) ∧ c.diverts = false ∧ c.written = [] := by
  obtain ⟨op, hop, hinert⟩ := hl
  rw [lineHere, Line.instruction_decodeAt] at hop
  have ho : c.outlook = .execute op := outlook_eq_execute_iff.2 ⟨hs, hop⟩
  refine ⟨⟨op, ho⟩, ?_⟩
  simp only [diverts, written, ho]
  cases op with
  | halt => exact absurd (by decide) hinert
  | jmp => exact absurd (by decide) hinert
  | jeq => exact absurd (by decide) hinert
  | jne => exact absurd (by decide) hinert
  | st => exact absurd (by decide) hinert
  | push => exact absurd (by decide) hinert
  | _ => exact ⟨rfl, rfl⟩

end

end Core

namespace Machine

section

variable {ω : Type} [Sink ω] (v : Verbosity)

/-- A bounded run executes inert lines to their end. -/
theorem runFor_of_inert {n : Nat} {m : Machine Bank ω} (hs : m.core.state = .running)
    (hl : ∀ l ∈ (Line.listing m.core.memory m.core.regs.pc (n + 1)).take n, l.Inert) :
    (m.runFor v n).result = .ok n ∧
      (Line.listing m.core.memory m.core.regs.pc (n + 1))[n]?.map Line.address =
        some (m.runFor v n).machine.core.regs.pc := by
  induction n generalizing m with
  | zero =>
      rw [runFor_zero]
      exact ⟨rfl, congrArg some (Line.address_decodeAt _ _)⟩
  | succ n ih =>
      rw [Line.listing_succ, List.take_succ_cons] at hl
      obtain ⟨⟨op, ho⟩, hd, hw⟩ := Core.next_of_inert hs (hl _ List.mem_cons_self)
      have hr : (m.tick v).result = .ok () := by
        rw [result_tick, Core.verdict_eq_ok_iff, ho]
        simp
      have hlines : Line.listing (m.tick v).machine.core.memory
          (m.tick v).machine.core.regs.pc (n + 1) =
            Line.listing m.core.memory m.core.lineHere.next (n + 1) := by
        rw [core_tick]
        exact Core.listing_next ho hd (by simp [hw])
      have hrunning : (m.tick v).machine.core.state = .running := by
        rw [core_tick]
        exact (Core.next_of_diverts_eq_false ho hd).1
      obtain ⟨hcount, hpc⟩ := ih hrunning fun l hmem => by
        rw [hlines] at hmem
        exact hl l (List.mem_cons_of_mem _ hmem)
      rw [runFor_succ_of_ok v n hs hr, Line.listing_succ, List.getElem?_cons_succ]
      rw [hlines] at hpc
      refine ⟨?_, hpc⟩
      simp [hcount, Except.map]

/-- A tick that executes an instruction does what its line shows, and traces it. -/
theorem tick_of_line {op : Opcode} {m : Machine Bank ω}
    (ho : m.core.outlook = .execute op) :
    (∃ i, m.core.lineHere.shown = some i ∧
        (m.tick v).machine.erase = m.erase.execute i) ∧
      ∃ rest, (∀ r ∈ rest, r.severity ≠ .trace) ∧
        (m.tick v).log =
          v.keep (.traced m.core.lineHere :: rest ++
            Sink.recordAll m.output m.core.notices) := by
  obtain ⟨hs, hb⟩ := Core.outlook_eq_execute_iff.1 ho
  constructor
  · refine ⟨_, Core.shown_lineHere ho, ?_⟩
    rw [(erase_tick v m).2, Reference.step_of_opcode hs hb]
    rfl
  · obtain ⟨rest, hrecords, hrest⟩ := Core.records_of_execute ho
    refine ⟨rest, hrest, ?_⟩
    rw [log_tick, hrecords]

end

end Machine

namespace StraightLine

/-- **A listing predicts straight-line execution.**  If none of the next `n` ticks
faults, and none but the last of them halts the machine, jumps, or writes to a byte that
is listed, then each tick starts at the address of its line, fetches the byte of its
line, executes what its line shows, and traces its line.  If the first `n` lines of a
listing are inert, then a bounded run executes them all and stops at the line behind
them. -/
theorem listing_predicts_execution {ω : Type} [Sink ω] (v : Verbosity)
    (m : Machine Bank ω) (n : Nat) (hs : m.core.state = .running) :
    let lines := Line.listing m.core.memory m.core.regs.pc
    ((∀ r ∈ (m.tickTimes v n).result, r = .ok ()) →
      (∀ k, k + 1 < n → (m.after v k).core.diverts = false) →
      (∀ k, k + 1 < n → ∀ w ∈ (m.after v k).core.written,
        w.1 ∉ (lines n).flatMap Line.addresses) →
      ∀ k < n, ∃ l, (lines n)[k]? = some l ∧
        let here := m.after v k
        here.core.regs.pc = l.address ∧ here.core.opcodeByte = l.opcode ∧
          (∃ op, here.core.outlook = .execute op ∧ l.instruction = some op ∧
            l.operands.length = op.operandCount) ∧
          (∃ i, l.shown = some i ∧
            (here.tick v).machine.erase = here.erase.execute i) ∧
          (Record.traced l).message = Hex.numeral here.core.regs.pc ++ ": " ++ l.text ∧
          ∃ rest, (∀ r ∈ rest, r.severity ≠ .trace) ∧
            (here.tick v).log =
              v.keep (.traced l :: rest ++
                Sink.recordAll here.output here.core.notices)) ∧
    ((∀ l ∈ (lines (n + 1)).take n, l.Inert) →
      (m.runFor v n).result = .ok n ∧
        (lines (n + 1))[n]?.map Line.address =
          some (m.runFor v n).machine.core.regs.pc) := by
  intro lines
  refine ⟨?_, Machine.runFor_of_inert v hs⟩
  intro hok hd hw k hk
  have hfault : ∀ j < n, (Core.next^[j] m.core).outlook ≠ .fault := by
    intro j hj
    rw [← Core.verdict_eq_ok_iff]
    apply hok
    rw [Machine.result_tickTimes]
    exact List.mem_map.2 ⟨j, List.mem_range.2 hj, rfl⟩
  simp only [Machine.core_after] at hd hw
  obtain ⟨⟨op, ho⟩, hline⟩ := Core.getElem?_listing hs hfault hd hw k hk
  rw [← Machine.core_after v] at ho hline
  refine ⟨_, hline, ?_⟩
  obtain ⟨heffect, hlog⟩ := Machine.tick_of_line v ho
  have hpc := Line.address_decodeAt (m.after v k).core.memory (m.after v k).core.regs.pc
  refine ⟨hpc.symm, (Line.opcode_decodeAt _ _).symm, ⟨op, ho, ?_, ?_⟩, heffect, ?_, hlog⟩
  · exact Core.instruction_lineHere ho
  · rw [Core.lineHere, Line.decodeAt_of_ofByte? (Core.outlook_eq_execute_iff.1 ho).2]
    exact Line.length_operandsAt _ _ _
  · rw [← Hex.byte_eq_numeral, ← hpc]
    rfl

/-- Save 7, store it away from the program, do not jump, and print. -/
def skipping : Machine Bank Buffer :=
  Machine.powerOn (Bank.ofImage [0x04, 7, 0x09, 0x40, 0x13, 0x00, 0x06]) Buffer.empty

theorem listing_predicts_execution_skipping :
    (skipping.after (.upTo .trace) 3).core.regs.pc = 6 ∧
      ((skipping.after (.upTo .trace) 3).tick (.upTo .trace)).machine.erase =
        (skipping.after (.upTo .trace) 3).erase.execute .prn ∧
      ((skipping.after (.upTo .trace) 3).tick (.upTo .trace)).log.map Record.message =
        ["0x06: PRN"] ∧
      (skipping.runFor (.upTo .trace) 1).result = .ok 1 ∧
      (skipping.runFor (.upTo .trace) 1).machine.core.regs.pc = 2 := by
  let lines := Line.listing skipping.core.memory skipping.core.regs.pc
  have hs : skipping.core.state = .running := rfl
  have hok : ∀ r ∈ (skipping.tickTimes (.upTo .trace) 4).result, r = .ok () := by
    have hfault : ∀ k ∈ List.range 4, (Core.next^[k] skipping.core).outlook ≠ .fault := by
      decide +kernel
    rw [Machine.result_tickTimes]
    intro r hr
    obtain ⟨k, hk, rfl⟩ := List.mem_map.1 hr
    exact Core.verdict_eq_ok_iff.2 (hfault k hk)
  have hd : ∀ k < 3, (skipping.after (.upTo .trace) k).core.diverts = false := by
    decide +kernel
  have hw : ∀ k < 3, ∀ w ∈ (skipping.after (.upTo .trace) k).core.written,
      w.1 ∉ (lines 4).flatMap Line.addresses := by
    have hwritten : (List.range 3).flatMap (fun k =>
        (skipping.after (.upTo .trace) k).core.written) = [(0x40, 7)] := by
      decide +kernel
    have hlisted : (lines 4).flatMap Line.addresses = [0, 1, 2, 3, 4, 5, 6] := by
      decide +kernel
    intro k hk w hmem
    have hrun : w ∈ [(0x40, 7)] := by
      rw [← hwritten]
      exact List.mem_flatMap.2 ⟨k, List.mem_range.2 hk, hmem⟩
    rw [List.mem_singleton.1 hrun, hlisted]
    decide
  have hinert : ∀ l ∈ (lines 2).take 1, l.Inert := by
    have hfirst : (lines 2).take 1 = [⟨0, 0x04, some .save, [7]⟩] := by
      decide +kernel
    rw [hfirst]
    rintro l hl
    rw [List.mem_singleton.1 hl]
    exact ⟨.save, rfl, by decide⟩
  have hmessages :
      ((skipping.after (.upTo .trace) 3).tick (.upTo .trace)).log.map Record.message =
        ["0x06: PRN"] := by
    decide +kernel
  have hprn : (lines 4)[3]? = some ⟨6, 0x06, some .prn, []⟩ := by
    decide +kernel
  have hbehind : (lines 2)[1]?.map Line.address = some 2 := by
    decide +kernel
  obtain ⟨l, hl, hpc, _, _, ⟨i, hi, heffect⟩, _⟩ :=
    (listing_predicts_execution (.upTo .trace) skipping 4 hs).1 hok
      (fun k hk => hd k (by omega)) (fun k hk => hw k (by omega)) 3 (by decide)
  obtain ⟨hcount, hend⟩ :=
    (listing_predicts_execution (.upTo .trace) skipping 1 hs).2 hinert
  obtain rfl := Option.some.inj (hprn.symm.trans hl)
  obtain rfl := Option.some.inj hi
  exact ⟨hpc, heffect, hmessages, hcount, (Option.some.inj (hbehind.symm.trans hend)).symm⟩

end StraightLine
end ByteMachine
