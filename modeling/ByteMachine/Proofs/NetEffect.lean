import ByteMachine.Machine.Core
import Mathlib.Data.List.Basic

/-!
# The net effect of arithmetic

A step up or down changes one target by one, modulo 256, and it may wrap around in either
direction.  Wrapping loses nothing that a later step would need.  So what a target holds in
the end is told by two numbers only: how often it was stepped up, and how often down.  The
other operations read the registers and change none of them, but they see the steps made
before them.

**Invariant.**  The byte in a target is what it held at first, plus the net count of its
steps, modulo 256.

**Results.**
* `toNat_get_apply`, `toNat_get_applyAll`: one operation keeps the invariant, and so does any
  number of them.
* `flags_applyAll`, `equal_applyAll`: the flag is that of the last comparison.
* `getElem?_fst_applyAll`: each operation returns what it returns on the state before it.
* `regs_applyAll_congr`: the register file depends on the net counts only.
* `regs_advance`: the program counter moves past an instruction by as many steps up as the
  instruction has bytes.
* `operations_have_their_net_effect`: all of this, for any list of operations.
-/

namespace ByteMachine

/-- A register file is known by its targets and by the registers that serve the memory. -/
theorem Registers.ext_target {r r' : Registers} (h : ∀ t : Alu.Target, t.get r' = t.get r)
    (hmar : r'.mar = r.mar) (hmdr : r'.mdr = r.mdr) : r' = r := by
  have hgeneral : r'.general = r.general := Bank.ext_get fun i => h (.register i)
  have hpc : r'.pc = r.pc := h .pc
  cases r
  cases r'
  rw [mk.injEq]
  exact ⟨hgeneral, hpc, hmar, hmdr⟩

namespace Alu

/-- Whether an operation steps a target up or down. -/
def Op.steps : Op → Bool
  | inc _ | dec _ => true
  | add _ _ | mul _ _ | cmp _ _ => false

/-- Whether an operation sets the flag. -/
def Op.compares : Op → Bool
  | cmp _ _ => true
  | add _ _ | mul _ _ | inc _ | dec _ => false

/-- Carry out operations in order, and list what each of them returns. -/
def applyAll : List Op → State → List (Option UInt8) × State
  | [], s => ([], s)
  | op :: ops, s =>
      let p := apply op s
      let q := applyAll ops p.2
      (p.1 :: q.1, q.2)

/-- How often a target is stepped up, less how often it is stepped down. -/
def net (ops : List Op) (t : Target) : Int :=
  ops.count (.inc t) - ops.count (.dec t)

/-- What a target of the register file `r` comes to by the net count of its steps. -/
def netValue (r : Registers) (ops : List Op) (t : Target) : Int :=
  ((t.get r).toNat + net ops t) % 256

/-- What an operation returns if the registers hold their net values. -/
def netAnswer (r : Registers) (ops : List Op) : Op → Option Int
  | .add a b =>
      some ((netValue r ops (.register a) + netValue r ops (.register b)) % 256)
  | .mul a b =>
      some (netValue r ops (.register a) * netValue r ops (.register b) % 256)
  | .inc _ | .dec _ | .cmp _ _ => none

/-! ### Net counts -/

section

variable (ops ops' : List Op) (op : Op) (t : Target)

@[simp]
theorem net_nil : net [] t = 0 := rfl

theorem net_append : net (ops ++ ops') t = net ops t + net ops' t := by
  simp only [net, List.count_append]
  omega

theorem net_cons : net (op :: ops) t = net [op] t + net ops t :=
  net_append [op] ops t

/-- A step up and a step down of one target count for nothing. -/
theorem net_inc_dec (u : Target) : net [.inc u] t + net [.dec u] t = 0 := by
  simp only [net, List.count_singleton, beq_iff_eq, Op.inc.injEq, Op.dec.injEq, reduceCtorEq,
    if_false]
  omega

variable {ops ops'} in
/-- Only the steps count, in any order. -/
theorem net_of_perm (h : (ops.filter Op.steps).Perm (ops'.filter Op.steps)) :
    net ops t = net ops' t := by
  have hcount : ∀ op : Op, op.steps = true → ops.count op = ops'.count op := by
    intro op hop
    rw [← List.count_filter (l := ops) hop, h.count_eq, List.count_filter hop]
  rw [net, net, hcount (.inc t) rfl, hcount (.dec t) rfl]

end

/-! ### The register file -/

section

variable (r : Registers) (op : Op) (s : State) (t : Target)

theorem toNat_get_inc (u : Target) :
    ((t.get (inc u r)).toNat : Int) = netValue r [.inc u] t := by
  have hlt := (t.get r).toNat_lt
  by_cases h : u = t
  · subst h
    simp [inc, netValue, net]
  · have hcount : net [.inc u] t = 0 := by simp [net, h]
    rw [inc, Target.get_set_of_ne r _ h, netValue, hcount]
    omega

theorem toNat_get_dec (u : Target) :
    ((t.get (dec u r)).toNat : Int) = netValue r [.dec u] t := by
  have hlt := (t.get r).toNat_lt
  by_cases h : u = t
  · subst h
    have hcount : net [.dec u] u = -1 := by simp [net]
    rw [dec, Target.get_set_self, netValue, hcount, UInt8.toNat_sub]
    simp only [UInt8.reduceToNat]
    omega
  · have hcount : net [.dec u] t = 0 := by simp [net, h]
    rw [dec, Target.get_set_of_ne r _ h, netValue, hcount]
    omega

/-- One operation changes each target by its net count. -/
theorem toNat_get_apply :
    ((t.get (apply op s).2.regs).toNat : Int) = netValue s.regs [op] t := by
  have hkept : ((t.get s.regs).toNat : Int) = ((t.get s.regs).toNat + 0) % 256 := by
    have hlt := (t.get s.regs).toNat_lt
    omega
  cases op with
  | add a b => exact hkept
  | mul a b => exact hkept
  | inc u => exact toNat_get_inc s.regs t u
  | dec u => exact toNat_get_dec s.regs t u
  | cmp a b => exact hkept

/-- No operation touches the registers that serve the memory. -/
theorem mar_mdr_apply :
    (apply op s).2.regs.mar = s.regs.mar ∧ (apply op s).2.regs.mdr = s.regs.mdr := by
  cases op with
  | inc u => cases u <;> exact ⟨rfl, rfl⟩
  | dec u => cases u <;> exact ⟨rfl, rfl⟩
  | _ => exact ⟨rfl, rfl⟩

end

section

variable (ops ops' : List Op) (s : State) (t : Target)

@[simp]
theorem applyAll_nil : applyAll [] s = ([], s) := rfl

theorem applyAll_cons (op : Op) :
    applyAll (op :: ops) s =
      ((apply op s).1 :: (applyAll ops (apply op s).2).1, (applyAll ops (apply op s).2).2) := rfl

/-- Operations may be cut into two lists at any point. -/
theorem applyAll_append :
    applyAll (ops ++ ops') s =
      ((applyAll ops s).1 ++ (applyAll ops' (applyAll ops s).2).1,
        (applyAll ops' (applyAll ops s).2).2) := by
  induction ops generalizing s with
  | nil => rfl
  | cons op ops ih => rw [List.cons_append, applyAll_cons, ih, applyAll_cons, List.cons_append]

/-- Each target holds its net value. -/
theorem toNat_get_applyAll :
    ((t.get (applyAll ops s).2.regs).toNat : Int) = netValue s.regs ops t := by
  induction ops generalizing s with
  | nil =>
      have hlt := (t.get s.regs).toNat_lt
      simp only [applyAll_nil, netValue, net_nil]
      omega
  | cons op ops ih =>
      have hfirst := toNat_get_apply op s t
      rw [applyAll_cons, ih, netValue, hfirst, netValue, netValue, Int.emod_add_emod,
        net_cons ops, Int.add_assoc]

theorem mar_mdr_applyAll :
    (applyAll ops s).2.regs.mar = s.regs.mar ∧ (applyAll ops s).2.regs.mdr = s.regs.mdr := by
  induction ops generalizing s with
  | nil => exact ⟨rfl, rfl⟩
  | cons op ops ih =>
      obtain ⟨hmar, hmdr⟩ := mar_mdr_apply op s
      obtain ⟨hmars, hmdrs⟩ := ih (apply op s).2
      rw [applyAll_cons]
      exact ⟨hmars.trans hmar, hmdrs.trans hmdr⟩

variable {ops ops'} in
/-- The register file depends on the net counts only. -/
theorem regs_applyAll_congr (h : ∀ t, net ops t = net ops' t) :
    (applyAll ops s).2.regs = (applyAll ops' s).2.regs := by
  obtain ⟨hmar, hmdr⟩ := mar_mdr_applyAll ops s
  obtain ⟨hmar', hmdr'⟩ := mar_mdr_applyAll ops' s
  refine Registers.ext_target ?_ (hmar.trans hmar'.symm) (hmdr.trans hmdr'.symm)
  intro t
  have hvalue : netValue s.regs ops t = netValue s.regs ops' t := by
    rw [netValue, netValue, h]
  rw [← toNat_get_applyAll, ← toNat_get_applyAll, Int.natCast_inj] at hvalue
  exact UInt8.toNat_inj.1 hvalue

/-- Two opposite steps of one target cancel, whatever lies between them. -/
theorem regs_applyAll_cancel {up down : Op} (h : ∀ t, net [up] t + net [down] t = 0)
    (before between later : List Op) :
    (applyAll (before ++ up :: between ++ down :: later) s).2.regs =
      (applyAll (before ++ between ++ later) s).2.regs := by
  apply regs_applyAll_congr
  intro t
  have hzero := h t
  rw [net_append, net_append, net_cons between, net_cons later, net_append, net_append]
  omega

/-! ### The flag -/

theorem flags_apply {op : Op} (h : op.compares = false) : (apply op s).2.flags = s.flags := by
  cases op with
  | cmp a b => cases h
  | _ => rfl

variable {ops} in
/-- Without a comparison the flag stays as it is. -/
theorem flags_applyAll (h : ∀ op ∈ ops, op.compares = false) :
    (applyAll ops s).2.flags = s.flags := by
  induction ops generalizing s with
  | nil => rfl
  | cons op ops ih =>
      have hrest : ∀ op' ∈ ops, op'.compares = false := fun op' hop' =>
        h op' (List.mem_cons_of_mem op hop')
      rw [applyAll_cons, ih _ hrest, flags_apply s (h op List.mem_cons_self)]

/-- A comparison compares net values. -/
theorem equal_cmp (a b : UInt8) :
    (cmp (applyAll ops s).2.regs a b).equal =
      decide (netValue s.regs ops (.register a) = netValue s.regs ops (.register b)) := by
  rw [← toNat_get_applyAll, ← toNat_get_applyAll, Bool.eq_iff_iff, decide_eq_true_iff,
    Int.natCast_inj, UInt8.toNat_inj]
  exact beq_iff_eq

/-- The flag is that of the last comparison, made on the net values before it. -/
theorem equal_applyAll (a b : UInt8) (h : ∀ op ∈ ops', op.compares = false) :
    (applyAll (ops ++ .cmp a b :: ops') s).2.flags.equal =
      decide (netValue s.regs ops (.register a) = netValue s.regs ops (.register b)) := by
  rw [applyAll_append, applyAll_cons, flags_applyAll _ h]
  exact equal_cmp ops s a b

/-! ### What is returned -/

/-- An operation after others returns what its net values say. -/
theorem fst_apply_applyAll (op : Op) :
    (apply op (applyAll ops s).2).1.map (fun x => (x.toNat : Int)) =
      netAnswer s.regs ops op := by
  cases op with
  | add a b =>
      rw [netAnswer, ← toNat_get_applyAll, ← toNat_get_applyAll]
      exact congrArg some (congrArg Int.ofNat (UInt8.toNat_add _ _))
  | mul a b =>
      rw [netAnswer, ← toNat_get_applyAll, ← toNat_get_applyAll]
      exact congrArg some (congrArg Int.ofNat (UInt8.toNat_mul _ _))
  | _ => rfl

/-- Each operation returns what it returns on the state that those before it leave. -/
theorem getElem?_fst_applyAll (k : Nat) :
    (applyAll ops s).1[k]? =
      ops[k]?.map fun op => (apply op (applyAll (ops.take k) s).2).1 := by
  induction ops generalizing s k with
  | nil => rfl
  | cons op ops ih =>
      cases k with
      | zero => rfl
      | succ k =>
          rw [applyAll_cons, List.getElem?_cons_succ, ih, List.getElem?_cons_succ,
            List.take_succ_cons, applyAll_cons]

end

/-! ### Steps in a row -/

/-- Steps up in a row add their number. -/
theorem regs_applyAll_replicate_inc (n : Nat) (t : Target) (s : State) :
    (applyAll (List.replicate n (.inc t)) s).2.regs =
      t.set s.regs (t.get s.regs + UInt8.ofNat n) := by
  induction n generalizing s with
  | zero => simp
  | succ n ih =>
      rw [List.replicate_succ, applyAll_cons, ih]
      simp only [apply, inc, Target.get_set_self, Target.set_set_self, UInt8.ofNat_add,
        UInt8.reduceOfNat]
      rw [UInt8.add_assoc, UInt8.add_comm 1]

end Alu

/-- The program counter moves past an instruction by one step up for each of its bytes. -/
theorem Core.regs_advance {μ : Type} (c : Core μ) (op : Opcode) :
    (c.advance op).regs =
      (Alu.applyAll (List.replicate op.size (.inc .pc)) ⟨c.regs, c.flags⟩).2.regs :=
  (Alu.regs_applyAll_replicate_inc op.size .pc ⟨c.regs, c.flags⟩).symm

namespace Alu

/-- **Operations have their net effect.**  Any list of operations leaves in each general
register and in the program counter the value it had plus the net count of its steps, modulo
256, and leaves the registers that serve the memory alone.  The flag is that of the last
comparison, made on the net values at that point, and stays as it is if there is none.  Sums
and products are those of the net values at their point, modulo 256.  So the register file at
the end does not depend on the order of the steps, and two opposite steps of one target
cancel across whatever stands between them. -/
theorem operations_have_their_net_effect (s : State) (ops : List Op) :
    let after := (applyAll ops s).2
    (∀ t, ((t.get after.regs).toNat : Int) = netValue s.regs ops t) ∧
    (after.regs.mar = s.regs.mar ∧ after.regs.mdr = s.regs.mdr) ∧
    ((∀ op ∈ ops, op.compares = false) → after.flags = s.flags) ∧
    (∀ before a b later, ops = before ++ .cmp a b :: later →
      (∀ op ∈ later, op.compares = false) →
        after.flags.equal =
          decide (netValue s.regs before (.register a) = netValue s.regs before (.register b))) ∧
    (∀ k, (applyAll ops s).1[k]?.map (Option.map fun x => (x.toNat : Int)) =
      ops[k]?.map (netAnswer s.regs (ops.take k))) ∧
    (∀ ops', (ops.filter Op.steps).Perm (ops'.filter Op.steps) →
      (applyAll ops' s).2.regs = after.regs) ∧
    ∀ before between later t, ops = before ++ between ++ later →
      (applyAll (before ++ .inc t :: between ++ .dec t :: later) s).2.regs = after.regs ∧
        (applyAll (before ++ .dec t :: between ++ .inc t :: later) s).2.regs = after.regs := by
  intro after
  refine ⟨fun t => toNat_get_applyAll ops s t, mar_mdr_applyAll ops s, flags_applyAll s,
    ?_, ?_, ?_, ?_⟩
  · rintro before a b later rfl hlater
    exact equal_applyAll before later s a b hlater
  · intro k
    rw [getElem?_fst_applyAll, Option.map_map]
    exact congrArg (Option.map · ops[k]?) (funext (fst_apply_applyAll (ops.take k) s))
  · intro ops' hperm
    exact regs_applyAll_congr s fun t => (net_of_perm t hperm).symm
  · rintro before between later t rfl
    refine ⟨regs_applyAll_cancel s (fun u => net_inc_dec u t) before between later, ?_⟩
    apply regs_applyAll_cancel s
    intro u
    rw [Int.add_comm]
    exact net_inc_dec u t

/-- The stack pointer is stepped below zero, compared, added, and stepped up again, and the
program counter is stepped down. -/
def dipping : List Op :=
  [.dec (.register 255), .cmp 255 0, .add 255 3, .inc (.register 255), .dec .pc]

theorem operations_have_their_net_effect_dipping :
    let s : State := ⟨Registers.zero.set 3 7, ⟨true⟩⟩
    let later : List Op := [.add 255 3, .inc (.register 255), .dec .pc]
    dipping = [.dec (.register 255)] ++ .cmp 255 0 :: later ∧
      (∀ op ∈ later, op.compares = false) ∧
      (dipping.filter Op.steps).Perm (dipping.reverse.filter Op.steps) ∧
      dipping = [.dec (.register 255)] ++ [.cmp 255 0] ++ later ∧
      (applyAll dipping s).2.regs.sp.toNat = 0 ∧ (applyAll dipping s).2.regs.pc.toNat = 255 ∧
      (applyAll dipping s).2.flags.equal = false ∧
      (applyAll dipping s).1[2]?.map (Option.map fun x => (x.toNat : Int)) = some (some 6) ∧
      (applyAll dipping.reverse s).2.regs = (applyAll dipping s).2.regs ∧
      (applyAll ([.dec (.register 255)] ++ .inc .pc :: [.cmp 255 0] ++ .dec .pc :: later)
          s).2.regs =
        (applyAll dipping s).2.regs := by
  intro s later
  have hlater : ∀ op ∈ later, op.compares = false := by decide
  have hperm : (dipping.filter Op.steps).Perm (dipping.reverse.filter Op.steps) := by decide
  have hsum : dipping[2]?.map (netAnswer s.regs (dipping.take 2)) = some (some 6) := by
    decide +kernel
  obtain ⟨hvalue, _, _, hflag, hanswer, horder, hcancel⟩ :=
    operations_have_their_net_effect s dipping
  refine ⟨rfl, hlater, hperm, rfl, ?_, ?_, hflag [.dec (.register 255)] 255 0 later rfl hlater,
    (hanswer 2).trans hsum, horder _ hperm, (hcancel _ _ later .pc rfl).1⟩
  · exact Int.ofNat_inj.1 (hvalue (.register 255))
  · exact Int.ofNat_inj.1 (hvalue .pc)

end Alu
end ByteMachine
