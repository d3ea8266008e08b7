import ByteMachine.Bus.Recorder
import ByteMachine.Proofs.Advance
import ByteMachine.Proofs.Footprint.Cells
import ByteMachine.Proofs.History.Basic
import ByteMachine.Sink.Buffer

/-!
# The last transaction of a tick

The core reaches its memory through the address register and the data register only.
After a tick the two registers show the last transaction that it has carried out: the
address, and the byte that was read or written there.  Which one is the last depends on the
instruction, and for a conditional jump on whether it is taken, because a jump that is not
taken does not read its operand.

**Invariant.**  On a bank, the data register holds the byte that stands at the address
register.  A tick of a running machine makes it so, whatever the instruction overwrites,
and nothing but a reset or a write of the host brings it to an end.

**Results.**
* `shown_next`: a tick shows its last transaction.
* `mirrored_next`, `mirrored_apply`: the invariant, for a tick and for a command of the
  host.
* `registers_show_the_last_transaction`: every tick on every bus, what a recorder keeps of
  it, and the invariant along a history.
-/

namespace ByteMachine

/-- What happens on the bus at one time. -/
inductive Transaction
  | read (a : UInt8)
  | write (a x : UInt8)
  deriving DecidableEq

namespace Transaction

def address : Transaction → UInt8
  | read a => a
  | write a _ => a

/-- The byte that goes over the bus. -/
def byte {μ : Type} [Bus μ] (memory : μ) : Transaction → UInt8
  | read a => Bus.read memory a
  | write _ x => x

/-- The writes, address and byte, that the memory receives. -/
def writes : Transaction → List (UInt8 × UInt8)
  | read _ => []
  | write a x => [(a, x)]

/-- The registers show the transaction `t` of a tick, which has made no write but that of
`t`. -/
structure Shown {μ : Type} [Bus μ] (t : Transaction) (before after : Core μ) : Prop where
  mar_eq : after.regs.mar = t.address
  mdr_eq : after.regs.mdr = t.byte before.memory
  memory_eq : after.memory = Bus.replay before.memory t.writes

end Transaction

namespace Core

section

variable {μ : Type} [Bus μ]

/-- The last transaction of the instruction at the program counter. -/
def lastTransactionOf (c : Core μ) (op : Opcode) : Transaction :=
  match op with
  | .halt | .init | .prn => .read c.regs.pc
  | .set | .save | .cmp => .read (c.regs.pc + 1)
  | .add | .mul => .read (c.regs.pc + 2)
  | .jmp | .jeq | .jne =>
      .read (if op.takes c.flags.equal then c.regs.pc + 1 else c.regs.pc)
  | .ld => .read c.operandByte
  | .st => .write c.operandByte c.value
  | .push => .write (c.regs.sp - 1) (c.setSp (c.regs.sp - 1)).value
  | .pop => .read c.regs.sp

/-- The last transaction of the next tick, unless it is ignored. -/
def lastTransaction (c : Core μ) : Option Transaction :=
  match c.outlook with
  | .idle => none
  | .fault => some (.read c.regs.pc)
  | .execute op => some (c.lastTransactionOf op)

variable (c : Core μ)

/-- A tick that is not ignored has a last transaction: the fetch of a byte that is no
opcode, or the one of the instruction. -/
theorem lastTransaction_eq_some_iff {t : Transaction} :
    c.lastTransaction = some t ↔
      (c.outlook = .fault ∧ t = .read c.regs.pc) ∨
        ∃ op, c.outlook = .execute op ∧ t = c.lastTransactionOf op := by
  unfold lastTransaction
  cases c.outlook <;> simp [eq_comm]

theorem exists_lastTransaction (hs : c.state = .running) :
    ∃ t, c.lastTransaction = some t := by
  cases ho : c.outlook with
  | idle =>
      rw [outlook_eq_idle_iff, hs] at ho
      cases ho
  | fault => exact ⟨_, c.lastTransaction_eq_some_iff.2 (Or.inl ⟨ho, rfl⟩)⟩
  | execute op => exact ⟨_, c.lastTransaction_eq_some_iff.2 (Or.inr ⟨op, ho, rfl⟩)⟩

/-- The writes of a tick are those of its last transaction. -/
theorem written_eq_writes {t : Transaction} (h : c.lastTransaction = some t) :
    c.written = t.writes := by
  rcases c.lastTransaction_eq_some_iff.1 h with ⟨ho, rfl⟩ | ⟨op, ho, rfl⟩
  · simp only [written, ho]
    rfl
  · simp only [written, ho]
    cases op <;> rfl

/-- A jump that is not taken leaves the fetch of its opcode as the last transaction. -/
theorem scratch_branch (op : Opcode) (taken : Bool) :
    let t := Transaction.read (if taken then c.regs.pc + 1 else c.regs.pc)
    (c.fetch.count.branch op taken).regs.mar = t.address ∧
      (c.fetch.count.branch op taken).regs.mdr = t.byte c.memory := by
  cases taken with
  | false => exact ⟨rfl, rfl⟩
  | true => exact ⟨rfl, rfl⟩

/-- An instruction leaves its last transaction in the address register and the data
register. -/
theorem scratch_effect (op : Opcode) :
    (effect op c.fetch.count).regs.mar = (c.lastTransactionOf op).address ∧
      (effect op c.fetch.count).regs.mdr = (c.lastTransactionOf op).byte c.memory := by
  cases op with
  | jeq => exact c.scratch_branch .jeq c.flags.equal
  | jne => exact c.scratch_branch .jne !c.flags.equal
  | push => exact ⟨c.regs.sp_setSp (c.regs.sp - 1), rfl⟩
  | _ => exact ⟨rfl, rfl⟩

/-- A tick shows its last transaction. -/
theorem shown_next {t : Transaction} (h : c.lastTransaction = some t) :
    t.Shown c c.next := by
  have hmemory : c.next.memory = Bus.replay c.memory t.writes := by
    rw [memory_next, c.written_eq_writes h]
  rcases c.lastTransaction_eq_some_iff.1 h with ⟨ho, rfl⟩ | ⟨op, ho, rfl⟩
  · rw [next_of_fault ho] at hmemory ⊢
    exact ⟨rfl, rfl, hmemory⟩
  · obtain ⟨hmar, hmdr⟩ := c.scratch_effect op
    rw [← next_of_execute ho] at hmar hmdr
    exact ⟨hmar, hmdr, hmemory⟩

end

/-! ### A cell and its mirror -/

/-- The data register holds the byte that stands at the address register. -/
def Mirrored (c : Core Bank) : Prop :=
  c.memory.get c.regs.mar = c.regs.mdr

section

variable {c : Core Bank}

theorem mirrored_of_shown {before : Core Bank} {t : Transaction} (h : t.Shown before c) :
    c.Mirrored := by
  rw [Mirrored, h.mar_eq, h.mdr_eq, h.memory_eq]
  cases t with
  | read a => rfl
  | write a x => exact before.memory.get_set_self a x

/-- A tick of a running core makes the data register a mirror, whatever it was before. -/
theorem mirrored_next_of_running (hs : c.state = .running) : c.next.Mirrored := by
  obtain ⟨t, ht⟩ := c.exists_lastTransaction hs
  exact mirrored_of_shown (c.shown_next ht)

theorem mirrored_next (h : c.Mirrored) : c.next.Mirrored := by
  cases hs : c.state with
  | running => exact mirrored_next_of_running hs
  | halted =>
      rw [next_of_idle (outlook_eq_idle_iff.2 hs)]
      exact h

theorem mirrored_iterate (h : c.Mirrored) (n : Nat) : (next^[n] c).Mirrored := by
  induction n generalizing c with
  | zero => exact h
  | succ n ih => exact ih (mirrored_next h)

end

end Core

/-! ### Commands of the host -/

namespace Command

/-- The writes that the host makes past the registers. -/
def hostWrites : Command → List (UInt8 × UInt8)
  | poke a x => [(a, x)]
  | loadProgram program => Bus.placement program
  | _ => []

/-- A reset, or a write of the host that puts another byte at the address register. -/
def Disturbs (cmd : Command) (c : Core Bank) : Prop :=
  cmd = .reset ∨ ∃ w ∈ cmd.hostWrites, w.1 = c.regs.mar ∧ w.2 ≠ c.regs.mdr

instance (cmd : Command) (c : Core Bank) : Decidable (cmd.Disturbs c) :=
  inferInstanceAs (Decidable (_ ∨ _))

/-- A command keeps the mirror unless it disturbs it. -/
theorem mirrored_apply {cmd : Command} {c : Core Bank} (h : c.Mirrored)
    (hcmd : ¬ cmd.Disturbs c) : (cmd.apply c).Mirrored := by
  have hhost : (Bus.replay c.memory cmd.hostWrites).get c.regs.mar = c.regs.mdr := by
    apply Bus.get_replay_of_agree h
    intro w hw hmar
    by_contra hne
    exact hcmd (Or.inr ⟨w, hw, hmar, hne⟩)
  cases cmd with
  | tick => exact Core.mirrored_next h
  | runFor budget => exact Core.mirrored_iterate h budget
  | runUntilHalt budget => exact Core.mirrored_iterate h budget
  | clock k patience =>
      have hstarted : c.resume.Mirrored := h
      exact Core.mirrored_iterate hstarted (k.limit.getD patience)
  | reset => exact absurd (Or.inl rfl) hcmd
  | poke a x => exact hhost
  | loadProgram program => exact hhost
  | _ => exact h

end Command

namespace Transactions

section

variable {μ ω : Type} [Bus μ] [Sink ω] (v : Verbosity)

/-- A mirror lasts as long as the history does not disturb it. -/
theorem mirrored_performAll {m : Machine Bank ω} (h : m.core.Mirrored)
    {cmds : List Command}
    (hcmds : ∀ (n : Nat) (cmd : Command), cmds[n]? = some cmd →
      ¬ cmd.Disturbs (Machine.performAll v (cmds.take n) m).machine.core) (n : Nat) :
    (Machine.performAll v (cmds.take n) m).machine.core.Mirrored := by
  induction n with
  | zero => exact h
  | succ n ih =>
      cases hn : cmds[n]? with
      | none =>
          rw [List.take_add_one, hn, Option.toList_none, List.append_nil]
          exact ih
      | some cmd =>
          rw [Machine.core_performAll_take_succ v hn]
          exact Command.mirrored_apply ih (hcmds n cmd hn)

/-- **The address register and the data register show the last transaction of a tick.**
This holds of every tick of a running machine on every bus, and a memory that records its
writes keeps the write of that transaction, if it is one, and no other.  On a bank the data
register then holds the byte at the address register, and so it does at every later moment
of a history in which nobody resets the machine and the host does not put another byte
there. -/
theorem registers_show_the_last_transaction :
    (∀ m : Machine μ ω, m.core.state = .running →
      ∃ t, m.core.lastTransaction = some t ∧ t.Shown m.core (m.tick v).machine.core) ∧
    (∀ m : Machine (Recorder μ) ω, m.core.state = .running →
      ∃ t, m.core.lastTransaction = some t ∧
        (m.tick v).machine.core.memory.writes.toList =
          m.core.memory.writes.toList ++ t.writes) ∧
    (∀ m : Machine Bank ω, m.core.state = .running → ∀ cmds : List Command,
      let core n := (Machine.performAll v (cmds.take n) (m.tick v).machine).machine.core
      (∀ (n : Nat) (cmd : Command), cmds[n]? = some cmd → ¬ cmd.Disturbs (core n)) →
        ∀ n, (core n).memory.get (core n).regs.mar = (core n).regs.mdr) := by
  refine ⟨?_, ?_, ?_⟩
  · intro m hs
    obtain ⟨t, ht⟩ := m.core.exists_lastTransaction hs
    refine ⟨t, ht, ?_⟩
    rw [Machine.core_tick]
    exact m.core.shown_next ht
  · intro m hs
    obtain ⟨t, ht⟩ := m.core.exists_lastTransaction hs
    refine ⟨t, ht, ?_⟩
    rw [Machine.core_tick, (m.core.shown_next ht).memory_eq, Recorder.writes_replay]
  · intro m hs cmds core hcmds n
    refine mirrored_performAll v ?_ hcmds n
    rw [Machine.core_tick]
    exact Core.mirrored_next_of_running hs

end

/-- Pop into the stack pointer itself, and push it again. -/
def popping : Machine Bank Buffer :=
  ⟨((Core.powerOn (Bus.replay Bank.zero [(0, 0x0B), (1, 0x0A), (0x80, 9)])).select 255).setSp
      0x80,
    Buffer.empty⟩

/-- Store 7 over the operand of the store itself. -/
def storing : Machine (Recorder Bank) Buffer :=
  ⟨(Core.powerOn (Recorder.fresh (Bus.replay Bank.zero [(0, 0x09), (1, 1)]))).assign 7,
    Buffer.empty⟩

theorem registers_show_the_last_transaction_popping :
    let cmds : List Command := [.setRegister 3 7, .poke 0x80 9, .runFor 1, .stop]
    let core n :=
      (Machine.performAll .off (cmds.take n) (popping.tick .off).machine).machine.core
    popping.core.state = .running ∧
      (Transaction.read 0x80).Shown popping.core (popping.tick .off).machine.core ∧
      storing.core.state = .running ∧
      (storing.tick .off).machine.core.memory.writes.toList = [(1, 7)] ∧
      (core 4).regs.mar = 9 ∧ (core 4).memory.get (core 4).regs.mar = (core 4).regs.mdr := by
  intro cmds core
  have hpop : popping.core.lastTransaction = some (.read 0x80) := by
    rfl
  have hstore : storing.core.lastTransaction = some (.write 1 7) := by
    rfl
  have hpushed : (core 4).regs.mar = 9 := by
    decide +kernel
  have hquiet : ∀ n < cmds.length, ∀ cmd ∈ cmds[n]?, ¬ cmd.Disturbs (core n) := by
    decide +kernel
  obtain ⟨hshown, hrecorded, hmirrored⟩ :=
    registers_show_the_last_transaction (μ := Bank) (ω := Buffer) .off
  obtain ⟨t, ht, hpopped⟩ := hshown popping rfl
  obtain ⟨u, hu, hwrites⟩ := hrecorded storing rfl
  obtain rfl := Option.some.inj (hpop.symm.trans ht)
  obtain rfl := Option.some.inj (hstore.symm.trans hu)
  refine ⟨rfl, hpopped, rfl, hwrites, hpushed, hmirrored popping rfl cmds ?_ 4⟩
  intro n cmd hcmd
  exact hquiet n (List.getElem?_eq_some_iff.1 hcmd).1 cmd hcmd

end Transactions
end ByteMachine
