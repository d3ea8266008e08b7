import ByteMachine.Machine.Tick
import ByteMachine.Sink.Buffer

/-!
# What the next tick does

The core alone decides what a tick does: whether it is ignored, faults or
executes an instruction, what it returns, what it makes of the core, and what
it tells the sink.  The sink has no say in any of this, and the log has none
either.

A tick is therefore taken apart into a step of the core (`Core.next`), a verdict
(`Core.verdict`), a list of notices (`Core.notices`) that the sink receives, and
the records (`Core.records`) that the core makes before those of the sink.

**Results.**
* `outlook_eq_idle_iff`, `outlook_eq_fault_iff`, `outlook_eq_execute_iff`: the
  three ways in which a tick can go.
* `result_tick`, `core_tick`, `output_tick`: the result of a tick is the
  verdict of the core, the core takes one step, and the sink receives the
  notices of the core.
* `tick_eq`: a tick in full, with its log.
* `printed_receiveAll`, `faults_receiveAll`: a buffer sorts the notices it receives.
-/

namespace ByteMachine

/-- What a tick tells a sink. -/
inductive Notice
  | printed (x : UInt8)
  | faulted (e : DecodeFault)
  deriving DecidableEq

namespace Sink

variable {ω : Type} [Sink ω]

/-- The sink after it has been told something. -/
def receive (o : ω) : Notice → ω
  | .printed x => (Sink.print o x).1
  | .faulted e => (Sink.fault o e).1

/-- The sink after it has been told several things in order. -/
def receiveAll (o : ω) (notices : List Notice) : ω :=
  notices.foldl receive o

@[simp]
theorem receiveAll_nil (o : ω) : receiveAll o [] = o := rfl

@[simp]
theorem receiveAll_cons (o : ω) (n : Notice) (ns : List Notice) :
    receiveAll o (n :: ns) = receiveAll (receive o n) ns := rfl

theorem receiveAll_append (o : ω) (ns ms : List Notice) :
    receiveAll o (ns ++ ms) = receiveAll (receiveAll o ns) ms := by
  simp [receiveAll]

/-- What the sink hands to the log when it is told something. -/
def record (o : ω) : Notice → List Record
  | .printed x => (Sink.print o x).2
  | .faulted e => (Sink.fault o e).2

/-- What the sink hands to the log when it is told several things in order. -/
def recordAll (o : ω) : List Notice → List Record
  | [] => []
  | n :: ns => record o n ++ recordAll (receive o n) ns

@[simp]
theorem recordAll_nil (o : ω) : recordAll o [] = [] := rfl

@[simp]
theorem recordAll_cons (o : ω) (n : Notice) (ns : List Notice) :
    recordAll o (n :: ns) = record o n ++ recordAll (receive o n) ns := rfl

end Sink

namespace Notice

def value? : Notice → Option UInt8
  | printed x => some x
  | faulted _ => none

def fault? : Notice → Option DecodeFault
  | printed _ => none
  | faulted e => some e

end Notice

namespace Buffer

theorem printed_receiveAll (o : Buffer) (ns : List Notice) :
    (Sink.receiveAll o ns).printed.toList =
      o.printed.toList ++ ns.filterMap Notice.value? := by
  induction ns generalizing o with
  | nil => simp
  | cons n ns ih =>
      rw [Sink.receiveAll_cons, ih]
      cases n with
      | printed x => simp [Sink.receive, Notice.value?]
      | faulted e => rfl

theorem faults_receiveAll (o : Buffer) (ns : List Notice) :
    (Sink.receiveAll o ns).faults.toList =
      o.faults.toList ++ ns.filterMap Notice.fault? := by
  induction ns generalizing o with
  | nil => simp
  | cons n ns ih =>
      rw [Sink.receiveAll_cons, ih]
      cases n with
      | printed x => rfl
      | faulted e => simp [Sink.receive, Notice.fault?]

end Buffer

/-- The ways in which a tick can go. -/
inductive Outlook
  | idle
  | fault
  | execute (op : Opcode)
  deriving DecidableEq

namespace Core

section

variable {μ : Type} [Bus μ]

/-- The byte at the program counter. -/
def opcodeByte (c : Core μ) : UInt8 :=
  Bus.read c.memory c.regs.pc

/-- The fault that names the byte at the program counter. -/
def faultHere (c : Core μ) : DecodeFault :=
  ⟨c.opcodeByte, c.regs.pc⟩

/-- The way in which the next tick goes. -/
def outlook (c : Core μ) : Outlook :=
  match c.state with
  | .halted => .idle
  | .running =>
      match Opcode.ofByte? c.opcodeByte with
      | some op => .execute op
      | none => .fault

/-- The core after the next tick. -/
def next (c : Core μ) : Core μ :=
  match c.outlook with
  | .idle => c
  | .fault => c.fetch.halt
  | .execute op => c.fetch.count.effect op

/-- The result of the next tick. -/
def verdict (c : Core μ) : Except DecodeFault Unit :=
  match c.outlook with
  | .fault => .error c.faultHere
  | _ => .ok ()

/-- What the next tick tells the sink. -/
def notices (c : Core μ) : List Notice :=
  match c.outlook with
  | .fault => [.faulted c.faultHere]
  | .execute .prn => [.printed c.value]
  | _ => []

/-- The core itself, if the next tick executes an instruction. -/
def executing (c : Core μ) : List (Core μ) :=
  match c.outlook with
  | .execute _ => [c]
  | _ => []

/-- The line of the listing that starts at the program counter. -/
def lineHere (c : Core μ) : Line :=
  Line.decodeAt c.memory c.regs.pc

/-- The records that the next tick makes by itself. -/
def records (c : Core μ) : List Record :=
  match c.outlook with
  | .idle => []
  | .fault => [.faulted c.faultHere]
  | .execute .halt => [.traced c.lineHere, .halted c.regs.pc]
  | .execute _ => [.traced c.lineHere]

variable {c : Core μ}

theorem outlook_eq_idle_iff : c.outlook = .idle ↔ c.state = .halted := by
  unfold outlook
  cases hs : c.state with
  | halted => simp
  | running => cases hb : Opcode.ofByte? c.opcodeByte <;> simp

theorem outlook_eq_fault_iff :
    c.outlook = .fault ↔
      c.state = .running ∧ Opcode.ofByte? c.opcodeByte = none := by
  unfold outlook
  cases hs : c.state with
  | halted => simp
  | running => cases hb : Opcode.ofByte? c.opcodeByte <;> simp

theorem outlook_eq_execute_iff {op : Opcode} :
    c.outlook = .execute op ↔
      c.state = .running ∧ Opcode.ofByte? c.opcodeByte = some op := by
  unfold outlook
  cases hs : c.state with
  | halted => simp
  | running => cases hb : Opcode.ofByte? c.opcodeByte <;> simp

theorem next_of_idle (h : c.outlook = .idle) : c.next = c := by
  simp [next, h]

theorem next_of_fault (h : c.outlook = .fault) : c.next = c.fetch.halt := by
  simp [next, h]

theorem next_of_execute {op : Opcode} (h : c.outlook = .execute op) :
    c.next = c.fetch.count.effect op := by
  simp [next, h]

theorem verdict_eq_error_iff {e : DecodeFault} :
    c.verdict = .error e ↔ c.outlook = .fault ∧ e = c.faultHere := by
  cases h : c.outlook <;> simp [verdict, h, eq_comm]

theorem verdict_eq_ok_iff {u : Unit} : c.verdict = .ok u ↔ c.outlook ≠ .fault := by
  cases h : c.outlook <;> simp [verdict, h]

theorem executing_eq_nil (h : ∀ op, c.outlook ≠ .execute op) : c.executing = [] := by
  unfold executing
  split
  · next op ho => exact absurd ho (h op)
  · rfl

theorem notices_of_idle (h : c.outlook = .idle) : c.notices = [] := by
  simp [notices, h]

theorem notices_of_fault (h : c.outlook = .fault) :
    c.notices = [.faulted c.faultHere] := by
  simp [notices, h]

end

end Core

namespace Machine

section

variable {μ ω : Type} [Bus μ] [Sink ω] (v : Verbosity) (m : Machine μ ω)

theorem tick_of_idle (h : m.core.outlook = .idle) : m.tick v = ⟨.ok (), m, []⟩ :=
  tick_of_halted v m (Core.outlook_eq_idle_iff.1 h)

theorem result_tick : (m.tick v).result = m.core.verdict := by
  cases h : m.core.outlook with
  | idle =>
      rw [tick_of_idle v m h]
      simp [Core.verdict, h]
  | fault =>
      obtain ⟨hs, hb⟩ := Core.outlook_eq_fault_iff.1 h
      rw [tick_of_fault v m hs hb]
      simp [Core.verdict, h, Core.faultHere, Core.opcodeByte]
  | execute op =>
      obtain ⟨hs, hb⟩ := Core.outlook_eq_execute_iff.1 h
      rw [tick_of_opcode v m hs hb]
      simp [Core.verdict, h]

theorem core_tick : (m.tick v).machine.core = m.core.next := by
  cases h : m.core.outlook with
  | idle => rw [tick_of_idle v m h, Core.next_of_idle h]
  | fault =>
      obtain ⟨hs, hb⟩ := Core.outlook_eq_fault_iff.1 h
      rw [tick_of_fault v m hs hb, Core.next_of_fault h]
  | execute op =>
      obtain ⟨hs, hb⟩ := Core.outlook_eq_execute_iff.1 h
      rw [tick_of_opcode v m hs hb, Core.next_of_execute h]

theorem output_tick :
    (m.tick v).machine.output = Sink.receiveAll m.output m.core.notices := by
  cases h : m.core.outlook with
  | idle => simp [tick_of_idle v m h, Core.notices_of_idle h]
  | fault =>
      obtain ⟨hs, hb⟩ := Core.outlook_eq_fault_iff.1 h
      rw [tick_of_fault v m hs hb, Core.notices_of_fault h]
      rfl
  | execute op =>
      obtain ⟨hs, hb⟩ := Core.outlook_eq_execute_iff.1 h
      rw [tick_of_opcode v m hs hb]
      cases op with
      | prn =>
          have hn : m.core.notices = [.printed m.core.value] := by
            simp [Core.notices, h]
          rw [hn]
          rfl
      | _ => simp [Core.notices, h, announce]

/-- The records of the core stand in the log before those of the sink. -/
theorem log_tick :
    (m.tick v).log = v.keep (m.core.records ++ Sink.recordAll m.output m.core.notices) := by
  rw [Verbosity.keep_append]
  cases h : m.core.outlook with
  | idle => simp [tick_of_idle v m h, Core.records, Core.notices, h]
  | fault =>
      obtain ⟨hs, hb⟩ := Core.outlook_eq_fault_iff.1 h
      rw [tick_of_fault v m hs hb, Core.notices_of_fault h]
      simp [Core.records, h, Verbosity.note_eq_keep, Sink.record, Core.faultHere,
        Core.opcodeByte]
  | execute op =>
      obtain ⟨hs, hb⟩ := Core.outlook_eq_execute_iff.1 h
      rw [tick_of_opcode v m hs hb, Verbosity.note_eq_keep]
      cases op with
      | halt =>
          have hr : m.core.records =
              [.traced m.core.lineHere] ++ [.halted m.core.regs.pc] := by
            simp [Core.records, h]
          rw [hr, Verbosity.keep_append]
          simp [Core.notices, h, announce, Verbosity.note_eq_keep, Core.lineHere,
            Core.fetch_eq]
      | prn =>
          have hn : m.core.notices = [.printed m.core.value] := by
            simp [Core.notices, h]
          rw [hn]
          simp only [Core.records, h, Sink.recordAll_cons, Sink.recordAll_nil,
            List.append_nil]
          rfl
      | _ => simp [Core.records, Core.notices, h, announce, Core.lineHere]

/-- A tick in full: the core decides, and the sink adds its records. -/
theorem tick_eq :
    m.tick v =
      ⟨m.core.verdict, ⟨m.core.next, Sink.receiveAll m.output m.core.notices⟩,
        v.keep (m.core.records ++ Sink.recordAll m.output m.core.notices)⟩ := by
  rw [← result_tick v m, ← core_tick v m, ← output_tick v m, ← log_tick v m]

end

end Machine
end ByteMachine
