import ByteMachine.Proofs.Accounting
import ByteMachine.Proofs.Advance
import ByteMachine.Proofs.Footprint.Cells
import ByteMachine.Proofs.Schedule
import ByteMachine.Proofs.Stack.Lifo

/-!
# A program that reverses its input

The program saves and pushes each byte of its input, then pops and prints as many, and halts.
Its stack lies in the memory that the program lies in, so the program is right as long as the
two do not meet.

**Invariant.**  `At done rest base st c`: the program `done ++ rest` is in memory, the program
counter is between the two parts, register 0 is the current one, and the cells below `base`
hold the stack `st`.

**Results.**
* `Machine.runUntilHalt_of_leads`: a machine that is known to halt at one tick, in runs with
  every budget.
* `At.step`: one instruction that goes on behind itself keeps the invariant.
* `At.pushAll`, `At.printAll`: so do the two phases of the program, with any code behind them.
* `program_reverses_its_input`: the whole program, loaded into a fresh machine and run with
  any budget.
-/

namespace ByteMachine
namespace Core

section

variable {μ : Type} [Bus μ] {c d e : Core μ}

/-- The next `n` ticks take the core `c` to `d`, and the sink is told `told`. -/
structure Leads (c : Core μ) (n : Nat) (d : Core μ) (told : List Notice) : Prop where
  core_eq : next^[n] c = d
  told_eq : c.noticesOf n = told

theorem Leads.zero (c : Core μ) : c.Leads 0 c [] :=
  ⟨rfl, rfl⟩

theorem Leads.one (c : Core μ) : c.Leads 1 c.next c.notices :=
  ⟨rfl, (c.noticesOf_succ 0).trans (List.append_nil _)⟩

theorem Leads.trans {a b : Nat} {ns ms : List Notice} (h : c.Leads a d ns)
    (h' : d.Leads b e ms) : c.Leads (a + b) e (ns ++ ms) := by
  constructor
  · rw [Nat.add_comm, Function.iterate_add_apply, h.core_eq, h'.core_eq]
  · rw [← h.told_eq, ← h'.told_eq, ← h.core_eq]
    exact gather_add notices a b c

end

end Core

namespace Machine

section

variable {μ ω : Type} [Bus μ] [Sink ω] (v : Verbosity) {m : Machine μ ω} {n : Nat}
  {d e : Core μ} {told : List Notice}

/-- A machine that still runs has counted every tick on the way. -/
theorem ticks_of_leads (h : m.core.Leads n d told) (hd : d.state = .running) :
    d.ticks = m.core.ticks + n := by
  have hcore : (m.after .off n).core = d := by
    rw [core_after, h.core_eq]
  rw [← hcore] at hd ⊢
  exact ticks_after_of_running .off n m hd

/-- A machine that halts at its tick `n + 1`, and meets no fault on the way, comes to its end
in every run with a larger budget, and in no run with a smaller one. -/
theorem runUntilHalt_of_leads (hleads : m.core.Leads n d told) (hd : d.state = .running)
    (hlast : d.Leads 1 e []) (he : e.state = .halted)
    (htold : told.filterMap Notice.fault? = []) :
    (∀ budget, n + 1 ≤ budget →
      let run := m.runUntilHalt v budget
      run.result = .ok true ∧ run.machine.core = e ∧
        run.machine.output = Sink.receiveAll m.output told) ∧
    ∀ budget < n + 1, (m.runUntilHalt v budget).result = .ok false := by
  have hall := hleads.trans hlast
  rw [List.append_nil] at hall
  have hstill : ∀ k ≤ n, (m.after v k).core.state = .running := by
    intro k hk
    rw [core_after]
    rw [← hleads.core_eq] at hd
    exact Core.state_iterate_of_le hd hk
  have hcore : (m.after v (n + 1)).core = e := by
    rw [core_after, hall.core_eq]
  have hfirst : m.core.state = .running := hstill 0 (Nat.zero_le n)
  have hresult : (m.runUntilHalt v (n + 1)).result = .ok true := by
    apply result_runUntilHalt_of_halted v hfirst
    · rw [hcore, he]
    · rw [hall.told_eq, htold]
  have hmachine : (m.runUntilHalt v (n + 1)).machine = m.after v (n + 1) :=
    machine_runFor v (n + 1) m
  constructor
  · intro budget hbudget
    rw [runUntilHalt_of_le v hbudget hresult]
    refine ⟨hresult, ?_, ?_⟩
    · rw [hmachine, hcore]
    · rw [hmachine, output_after, hall.told_eq]
  · intro budget hbudget
    exact result_runUntilHalt_of_running v (hstill budget (Nat.le_of_lt_succ hbudget))

end

end Machine

namespace Reversal

/-! ### The program -/

/-- Save and push each byte. -/
def pushes (xs : List UInt8) : List UInt8 :=
  xs.flatMap fun x => [Opcode.save.byte, x, Opcode.push.byte]

/-- Pop and print, `n` times. -/
def prints (n : Nat) : List UInt8 :=
  (List.replicate n [Opcode.pop.byte, Opcode.prn.byte]).flatten

def program (xs : List UInt8) : List UInt8 :=
  pushes xs ++ prints xs.length ++ [Opcode.halt.byte]

theorem pushes_cons (x : UInt8) (xs : List UInt8) :
    pushes (x :: xs) = [Opcode.save.byte, x, Opcode.push.byte] ++ pushes xs := rfl

theorem prints_succ (n : Nat) :
    prints (n + 1) = [Opcode.pop.byte, Opcode.prn.byte] ++ prints n := rfl

theorem length_pushes (xs : List UInt8) : (pushes xs).length = 3 * xs.length := by
  induction xs with
  | nil => rfl
  | cons x xs ih =>
      rw [pushes_cons, List.length_append, ih]
      simp only [List.length_cons, List.length_nil]
      omega

theorem length_prints (n : Nat) : (prints n).length = 2 * n := by
  induction n with
  | zero => rfl
  | succ n ih =>
      rw [prints_succ, List.length_append, ih]
      simp only [List.length_cons, List.length_nil]
      omega

theorem length_program (xs : List UInt8) : (program xs).length = 5 * xs.length + 1 := by
  rw [program, List.length_append, List.length_append, length_pushes, length_prints,
    List.length_singleton]
  omega

/-! ### A program in memory -/

/-- The program is in memory from address 0 on. -/
def Loaded (code : List UInt8) (b : Bank) : Prop :=
  ∀ i x, code[i]? = some x → b.get (UInt8.ofNat i) = x

section

variable {code : List UInt8} {b : Bank}

theorem loaded_load (h : code.length ≤ Bank.size) : Loaded code (Bus.load b code) := by
  intro i x hi
  obtain ⟨hlt, _⟩ := List.getElem?_eq_some_iff.1 hi
  have hnat : (UInt8.ofNat i).toNat = i := UInt8.toNat_ofNat_of_lt' (Nat.lt_of_lt_of_le hlt h)
  rw [Bus.get_load, hnat, List.getD_eq_getElem?_getD, hi]
  rfl

/-- Writes behind the program leave it as it is. -/
theorem Loaded.replay {ws : List (UInt8 × UInt8)} (h : Loaded code b)
    (hws : ∀ w ∈ ws, code.length ≤ w.1.toNat) : Loaded code (Bus.replay b ws) := by
  intro i x hi
  rw [← h i x hi]
  apply Bus.get_replay_of_ne
  intro w hw hwi
  obtain ⟨hlt, _⟩ := List.getElem?_eq_some_iff.1 hi
  have hbehind := hws w hw
  rw [hwi, UInt8.toNat_ofNat'] at hbehind
  have hmod := Nat.mod_le i (2 ^ 8)
  omega

end

/-! ### Between two parts of the program -/

/-- The core runs the program `done ++ rest` and has come to its part `rest`. -/
structure At (done rest : List UInt8) (base : UInt8) (st : List UInt8) (c : Core Bank) :
    Prop where
  running : c.state = .running
  current_eq : c.current = 0
  pc_eq : c.regs.pc = UInt8.ofNat done.length
  loaded : Loaded (done ++ rest) c.memory
  stack : Stack.Holds base c st

namespace At

section

variable {done rest : List UInt8} {base : UInt8} {st : List UInt8} {c : Core Bank} {op : Opcode}

/-- The core finds what is left of the program at its program counter. -/
theorem read (h : At done rest base st c) {k : Nat} {x : UInt8} (hk : rest[k]? = some x) :
    c.memory.get (c.regs.pc + UInt8.ofNat k) = x := by
  rw [h.pc_eq, ← UInt8.ofNat_add]
  apply h.loaded
  rw [List.getElem?_append_right (Nat.le_add_right _ _), Nat.add_sub_cancel_left]
  exact hk

theorem outlook (h : At done (op.byte :: rest) base st c) : c.outlook = .execute op := by
  refine Core.outlook_eq_execute_iff.2 ⟨h.running, Opcode.ofByte?_eq_some_iff.2 ?_⟩
  have hfirst : c.memory.get (c.regs.pc + 0) = op.byte := h.read (k := 0) rfl
  rw [UInt8.add_zero] at hfirst
  exact hfirst.symm

theorem current_ne (h : At done rest base st c) : c.current ≠ Registers.spIndex := by
  rw [h.current_eq]
  decide

/-- The next push goes to the cell below the stack. -/
theorem sp_sub_one (h : At done rest base st c) :
    c.regs.sp - 1 = Stack.cell base st.length := by
  rw [h.stack.sp_eq, Stack.sub_one_eq_cell]

/-- An instruction that goes on behind itself, selects no register, pops nothing from an empty
stack and writes behind the program only, brings the core to the next part of the program. -/
theorem step (operands : List UInt8)
    (h : At done (op.byte :: (operands ++ rest)) base st c)
    (hsize : operands.length = op.operandCount) (hop : op.advance = .sequential)
    (hother : op ≠ .set ∧ op ≠ .st) (hpop : op = .pop → st ≠ [])
    (hfit : (c.move.apply st).length ≤ 256)
    (hwritten : ∀ w ∈ c.written,
      (done ++ op.byte :: (operands ++ rest)).length ≤ w.1.toNat) :
    At (done ++ op.byte :: operands) rest base (c.move.apply st) c.next := by
  have ho := h.outlook
  obtain ⟨hpc, hrunning⟩ := Core.next_of_sequential ho hop
  refine ⟨hrunning, ?_, ?_, ?_, ?_⟩
  · rw [Core.next_of_execute ho, Core.current_effect]
    cases op with
    | init => rfl
    | set => exact absurd rfl hother.1
    | _ => exact h.current_eq
  · rw [hpc, h.pc_eq, List.length_append, List.length_cons, hsize, ← Opcode.size_eq_add_one,
      UInt8.ofNat_add]
  · rw [Core.memory_next, List.append_assoc, List.cons_append]
    exact h.loaded.replay hwritten
  · refine h.stack.next ⟨fun _ => h.current_ne, ?_, ?_⟩ hfit
    · intro hpops
      rw [ho] at hpops
      exact hpop (Outlook.execute.inj hpops)
    · intro hstores
      rw [ho] at hstores
      exact absurd (Outlook.execute.inj hstores) hother.2

/-- An instruction that writes nothing leaves the memory as it is. -/
theorem step_of_written_eq_nil (operands : List UInt8)
    (h : At done (op.byte :: (operands ++ rest)) base st c)
    (hsize : operands.length = op.operandCount) (hop : op.advance = .sequential)
    (hother : op ≠ .set ∧ op ≠ .st) (hpop : op = .pop → st ≠ [])
    (hfit : (c.move.apply st).length ≤ 256) (hwritten : c.written = []) :
    At (done ++ op.byte :: operands) rest base (c.move.apply st) c.next ∧
      c.next.memory = c.memory := by
  refine ⟨h.step operands hsize hop hother hpop hfit ?_, ?_⟩
  · rw [hwritten]
    exact fun w hw => absurd hw List.not_mem_nil
  · rw [Core.memory_next, hwritten, Bus.replay_nil]

/-! ### The instructions of the program -/

theorem save {x : UInt8} (h : At done (Opcode.save.byte :: x :: rest) base st c)
    (hfit : st.length ≤ 256) :
    At (done ++ [Opcode.save.byte, x]) rest base st c.next ∧ c.next.value = x ∧
      c.notices = [] := by
  have ho := h.outlook
  have hmove : c.move = .other := by simp only [Core.move, ho]
  have hwritten : c.written = [] := by simp only [Core.written, ho]
  have hlength : (c.move.apply st).length ≤ 256 := by
    rw [hmove]
    exact hfit
  obtain ⟨hstep, _⟩ :=
    h.step_of_written_eq_nil [x] rfl rfl (by decide) (by simp) hlength hwritten
  rw [hmove] at hstep
  refine ⟨hstep, ?_, by simp only [Core.notices, ho]⟩
  rw [Core.next_of_execute ho, ← h.read (k := 1) rfl]
  exact Core.value_assign _ _

theorem push (h : At done (Opcode.push.byte :: rest) base st c) (hfit : st.length < 256)
    (hclear : (done ++ Opcode.push.byte :: rest).length ≤ (Stack.cell base st.length).toNat) :
    At (done ++ [Opcode.push.byte]) rest base (c.value :: st) c.next ∧ c.notices = [] := by
  have ho := h.outlook
  have hmove : c.move = .push c.value := by simp only [Core.move, ho]
  have hlength : (c.move.apply st).length ≤ 256 := by
    rw [hmove]
    exact hfit
  have hbehind : ∀ w ∈ c.written, (done ++ Opcode.push.byte :: rest).length ≤ w.1.toNat := by
    intro w hw
    simp only [Core.written, ho, List.mem_singleton] at hw
    rw [hw, h.sp_sub_one]
    exact hclear
  have hstep := h.step [] rfl rfl (by decide) (by simp) hlength hbehind
  rw [hmove] at hstep
  exact ⟨hstep, by simp only [Core.notices, ho]⟩

theorem pop {x : UInt8} (h : At done (Opcode.pop.byte :: rest) base (x :: st) c)
    (hfit : st.length ≤ 256) :
    At (done ++ [Opcode.pop.byte]) rest base st c.next ∧ c.next.value = x ∧
      c.next.memory = c.memory ∧ c.notices = [] := by
  have ho := h.outlook
  have hmove : c.move = .pop := by simp only [Core.move, ho]
  have hwritten : c.written = [] := by simp only [Core.written, ho]
  have hlength : (c.move.apply (x :: st)).length ≤ 256 := by
    rw [hmove]
    exact hfit
  obtain ⟨hstep, hmemory⟩ :=
    h.step_of_written_eq_nil [] rfl rfl (by decide) (by simp) hlength hwritten
  rw [hmove] at hstep
  refine ⟨hstep, ?_, hmemory, by simp only [Core.notices, ho]⟩
  rw [Core.value, hstep.current_eq, ← h.current_eq]
  exact h.stack.value_of_pop ho h.current_ne

theorem prn (h : At done (Opcode.prn.byte :: rest) base st c) (hfit : st.length ≤ 256) :
    At (done ++ [Opcode.prn.byte]) rest base st c.next ∧ c.next.memory = c.memory ∧
      c.notices = [.printed c.value] := by
  have ho := h.outlook
  have hmove : c.move = .other := by simp only [Core.move, ho]
  have hwritten : c.written = [] := by simp only [Core.written, ho]
  have hlength : (c.move.apply st).length ≤ 256 := by
    rw [hmove]
    exact hfit
  obtain ⟨hstep, hmemory⟩ :=
    h.step_of_written_eq_nil [] rfl rfl (by decide) (by simp) hlength hwritten
  rw [hmove] at hstep
  exact ⟨hstep, hmemory, by simp only [Core.notices, ho]⟩

/-- A halt instruction changes nothing but the run state, the tick counter and the registers
that serve the memory. -/
theorem halt (h : At done [Opcode.halt.byte] base st c) :
    c.Leads 1 c.fetch.count.halt [] := by
  have ho := h.outlook
  have hnotices : c.notices = [] := by simp only [Core.notices, ho]
  have hnext : c.next = c.fetch.count.halt := Core.next_of_execute ho
  rw [← hnotices, ← hnext]
  exact Core.Leads.one c

/-! ### The phases of the program -/

/-- One byte of the input goes on the stack. -/
theorem pushOne {x : UInt8}
    (h : At done ([Opcode.save.byte, x, Opcode.push.byte] ++ rest) base st c)
    (hfit : st.length < 256)
    (hclear : (done ++ ([Opcode.save.byte, x, Opcode.push.byte] ++ rest)).length ≤
      (Stack.cell base st.length).toNat) :
    ∃ d, c.Leads 2 d [] ∧
      At (done ++ [Opcode.save.byte, x, Opcode.push.byte]) rest base (x :: st) d := by
  obtain ⟨hsave, hvalue, htold⟩ := h.save (Nat.le_of_lt hfit)
  have hbehind : (done ++ [Opcode.save.byte, x] ++ Opcode.push.byte :: rest).length ≤
      (Stack.cell base st.length).toNat := by
    rw [List.append_assoc]
    exact hclear
  obtain ⟨hpush, htold'⟩ := hsave.push hfit hbehind
  have hfirst := Core.Leads.one c
  have hsecond := Core.Leads.one c.next
  rw [htold] at hfirst
  rw [htold'] at hsecond
  rw [hvalue, List.append_assoc] at hpush
  exact ⟨_, hfirst.trans hsecond, hpush⟩

/-- The byte on top of the stack is printed. -/
theorem printOne {x : UInt8}
    (h : At done ([Opcode.pop.byte, Opcode.prn.byte] ++ rest) base (x :: st) c)
    (hfit : st.length ≤ 256) :
    ∃ d, c.Leads 2 d [.printed x] ∧
      At (done ++ [Opcode.pop.byte, Opcode.prn.byte]) rest base st d ∧
      d.memory = c.memory := by
  obtain ⟨hpop, hvalue, hmemory, htold⟩ := h.pop hfit
  obtain ⟨hprn, hmemory', htold'⟩ := hpop.prn hfit
  have hfirst := Core.Leads.one c
  have hsecond := Core.Leads.one c.next
  rw [htold] at hfirst
  rw [htold', hvalue] at hsecond
  rw [List.append_assoc] at hprn
  exact ⟨_, hfirst.trans hsecond, hprn, hmemory'.trans hmemory⟩

/-- Each byte of the input goes on the stack, from the first to the last, and the sink is told
nothing. -/
theorem pushAll {xs : List UInt8} (h : At done (pushes xs ++ rest) base st c)
    (hfit : st.length + xs.length ≤ 256)
    (hclear : ∀ j < st.length + xs.length,
      (done ++ (pushes xs ++ rest)).length ≤ (Stack.cell base j).toNat) :
    ∃ d, c.Leads (2 * xs.length) d [] ∧
      At (done ++ pushes xs) rest base (xs.reverse ++ st) d := by
  induction xs generalizing done st c with
  | nil =>
      refine ⟨c, Core.Leads.zero c, ?_⟩
      rw [pushes, List.flatMap_nil, List.append_nil]
      exact h
  | cons x xs ih =>
      rw [pushes_cons, List.append_assoc] at h hclear
      rw [List.length_cons] at hfit hclear
      obtain ⟨d₁, hleads₁, h₁⟩ := h.pushOne (by omega) (hclear st.length (by omega))
      rw [← List.append_assoc] at hclear
      obtain ⟨d, hleads, hd⟩ := ih h₁ (by rw [List.length_cons]; omega)
        fun j hj => hclear j (by rw [List.length_cons] at hj; omega)
      refine ⟨d, ?_, ?_⟩
      · have hall := hleads₁.trans hleads
        rw [Nat.add_comm] at hall
        exact hall
      · rw [pushes_cons, ← List.append_assoc, List.reverse_cons, List.append_assoc xs.reverse]
        exact hd

/-- The stack is printed from the top down to its end, and the memory is left as it is. -/
theorem printAll (h : At done (prints st.length ++ rest) base st c) (hfit : st.length ≤ 256) :
    ∃ d, c.Leads (2 * st.length) d (st.map .printed) ∧
      At (done ++ prints st.length) rest base [] d ∧ d.memory = c.memory := by
  induction st generalizing done c with
  | nil =>
      refine ⟨c, Core.Leads.zero c, ?_, rfl⟩
      rw [List.length_nil, prints, List.replicate_zero, List.flatten_nil, List.append_nil]
      exact h
  | cons x st ih =>
      rw [List.length_cons, prints_succ, List.append_assoc] at h
      rw [List.length_cons] at hfit
      obtain ⟨d₁, hleads₁, h₁, hmemory₁⟩ := h.printOne (by omega)
      obtain ⟨d, hleads, hd, hmemory⟩ := ih h₁ (by omega)
      refine ⟨d, ?_, ?_, hmemory.trans hmemory₁⟩
      · have hall := hleads₁.trans hleads
        rw [Nat.add_comm] at hall
        exact hall
      · rw [List.length_cons, prints_succ, ← List.append_assoc]
        exact hd

/-- The program up to its halt instruction.  The stack is empty again, and its cells still
hold the input. -/
theorem run {xs : List UInt8} (h : At [] (program xs) base [] c) (hfit : xs.length ≤ 256)
    (hclear : ∀ j < xs.length, (program xs).length ≤ (Stack.cell base j).toNat) :
    ∃ d, c.Leads (4 * xs.length) d (xs.reverse.map .printed) ∧
      At (pushes xs ++ prints xs.length) [Opcode.halt.byte] base [] d ∧
      ∀ j x, xs[j]? = some x → d.memory.get (Stack.cell base j) = x := by
  rw [program, List.append_assoc] at h hclear
  obtain ⟨d₁, hpushes, h₁⟩ := h.pushAll (by rw [List.length_nil]; omega)
    fun j hj => hclear j (by rw [List.length_nil] at hj; omega)
  rw [List.nil_append, List.append_nil, ← List.length_reverse] at h₁
  obtain ⟨d, hprints, hd, hmemory⟩ := h₁.printAll (by rw [List.length_reverse]; exact hfit)
  rw [List.length_reverse] at hprints hd
  refine ⟨d, ?_, hd, ?_⟩
  · have hall := hpushes.trans hprints
    rw [← Nat.add_mul] at hall
    exact hall
  · intro j x hj
    rw [hmemory]
    apply h₁.stack.cell_eq
    rw [List.reverse_reverse]
    exact hj

end

end At

/-! ### The program on a fresh machine -/

/-- A buffer keeps the values that it is told of. -/
theorem receiveAll_map_printed (o : Buffer) (xs : List UInt8) :
    Sink.receiveAll o (xs.map .printed) = ⟨o.printed ++ xs.toArray, o.faults⟩ := by
  induction xs generalizing o with
  | nil => simp
  | cons x xs ih =>
      rw [List.map_cons, Sink.receiveAll_cons, ih]
      simp [Sink.receive]

/-- A fresh machine whose stack pointer has been set and into which the program for `xs` has
been loaded. -/
def prepared (v : Verbosity) (memory : Bank) (xs : List UInt8) (sp : UInt8) :
    Machine Bank Buffer :=
  (Machine.performAll v [.setSp sp, .loadProgram (program xs)]
    (Machine.powerOn memory Buffer.empty)).machine

theorem at_prepared (v : Verbosity) (memory : Bank) {xs : List UInt8} (sp : UInt8)
    (h : (program xs).length ≤ 256) :
    At [] (program xs) sp [] (prepared v memory xs sp).core where
  running := rfl
  current_eq := rfl
  pc_eq := rfl
  loaded := loaded_load h
  stack := by
    have hsp : (prepared v memory xs sp).core.regs.sp = sp := Registers.sp_setSp _ sp
    have hempty := Stack.Holds.empty (prepared v memory xs sp).core
    rw [hsp] at hempty
    exact hempty

/-- **The program reverses its input.**  Let a machine be fresh, whatever its memory holds, and
let the program for `n` bytes fit into the memory and miss the `n` cells below the stack
pointer `sp`, which may go around address 0.  Then a run with a budget of `4 * n + 1` or more
halts after as many ticks at the last byte of the program.  It has printed the input reversed
and nothing else, the stack pointer is back at `sp`, the program is intact, and the cells below
`sp` hold the input.  A run with a smaller budget does not halt. -/
theorem program_reverses_its_input (v : Verbosity) (memory : Bank) (xs : List UInt8)
    (sp : UInt8) (hfit : 5 * xs.length + 1 ≤ 256)
    (hclear : ∀ i < xs.length, 5 * xs.length < (sp - 1 - UInt8.ofNat i).toNat) :
    let n := xs.length
    let m := prepared v memory xs sp
    (program xs).length = 5 * n + 1 ∧
    (∀ budget, 4 * n + 1 ≤ budget →
      let run := m.runUntilHalt v budget
      let last := run.machine.core
      run.result = .ok true ∧ run.machine.output = ⟨xs.reverse.toArray, #[]⟩ ∧
        last.regs.sp = sp ∧ last.regs.pc.toNat = 5 * n ∧ last.ticks = 4 * n + 1 ∧
        Loaded (program xs) last.memory ∧
        ∀ i x, xs[i]? = some x → last.memory.get (sp - 1 - UInt8.ofNat i) = x) ∧
    ∀ budget < 4 * n + 1, (m.runUntilHalt v budget).result = .ok false := by
  intro n m
  have hlength := length_program xs
  have hat : At [] (program xs) sp [] m.core :=
    at_prepared v memory sp (by rw [hlength]; exact hfit)
  obtain ⟨d, hleads, hd, hcells⟩ := hat.run (by omega) fun j hj => by
    rw [hlength]
    exact hclear j hj
  have hfaults : (xs.reverse.map Notice.printed).filterMap Notice.fault? = [] := by
    rw [List.filterMap_map]
    exact List.filterMap_eq_nil_iff.2 fun _ _ => rfl
  obtain ⟨henough, hless⟩ :=
    Machine.runUntilHalt_of_leads v hleads hd.running hd.halt rfl hfaults
  refine ⟨hlength, ?_, hless⟩
  intro budget hbudget run last
  obtain ⟨hresult, hcore, houtput⟩ := henough budget hbudget
  have hlast : last = d.fetch.count.halt := hcore
  rw [hlast]
  refine ⟨hresult, ?_, ?_, ?_, ?_, hd.loaded, hcells⟩
  · rw [houtput, receiveAll_map_printed]
    exact congrArg (Buffer.mk · #[]) (Array.empty_append)
  · have hsp := hd.stack.sp_eq
    rw [List.length_nil] at hsp
    exact hsp.trans (UInt8.sub_zero sp)
  · have hlt : 3 * n + 2 * n < 256 := by omega
    change d.regs.pc.toNat = 5 * n
    rw [hd.pc_eq, List.length_append, length_pushes, length_prints,
      UInt8.toNat_ofNat_of_lt' hlt]
    omega
  · have hcount := Machine.ticks_of_leads hleads hd.running
    change d.ticks + 1 = 4 * n + 1
    rw [hcount]
    exact congrArg (· + 1) (Nat.zero_add (4 * n))

/-- A stack pointer of zero puts the stack at the top of the memory. -/
theorem program_reverses_its_input_below_zero :
    let xs : List UInt8 := [3, 7, 9]
    let m := prepared .off Bank.zero xs 0
    5 * xs.length + 1 ≤ 256 ∧
      (∀ i < xs.length, 5 * xs.length < ((0 : UInt8) - 1 - UInt8.ofNat i).toNat) ∧
      (m.runUntilHalt .off 13).result = .ok true ∧
      (m.runUntilHalt .off 200).machine.output = ⟨#[9, 7, 3], #[]⟩ ∧
      (m.runUntilHalt .off 200).machine.core.memory.get 255 = 3 ∧
      (m.runUntilHalt .off 12).result = .ok false := by
  have hfit : 5 * 3 + 1 ≤ 256 := by decide
  have hclear : ∀ i < 3, 5 * 3 < ((0 : UInt8) - 1 - UInt8.ofNat i).toNat := by decide
  obtain ⟨_, henough, hless⟩ := program_reverses_its_input .off Bank.zero [3, 7, 9] 0 hfit hclear
  obtain ⟨hresult, _⟩ := henough 13 (by decide)
  obtain ⟨_, houtput, _, _, _, _, hcells⟩ := henough 200 (by decide)
  have htop : (0 : UInt8) - 1 - UInt8.ofNat 0 = 255 := by decide
  have hcell := hcells 0 3 rfl
  rw [htop] at hcell
  exact ⟨hfit, hclear, hresult, houtput, hcell, hless 12 (by decide)⟩

end Reversal
end ByteMachine
