import ByteMachine.Bank

/-!
# The memory bus

The machine reaches its memory through two operations only: read the byte at an
address, write a byte to an address.  Neither can fail.  No law is asked of an
implementation, because a device on the bus may ignore writes or keep a record
of them.

**Results.**
* `replay_append`: replaying two lists of writes one after the other is
  replaying the joined list.
* `get_snapshot`: a snapshot shows what the bus reads at each address.
* `load_eq_fill`: the loop that loads a program and the loop that fills in an image write
  the same.
* `get_load`: on a bank, loading a program overlays its bytes from address 0 on
  and leaves the cells past its end as they were.
-/

namespace ByteMachine

/-- A memory that reads and writes single bytes at one-byte addresses. -/
class Bus (μ : Type) where
  /-- The byte that is read at an address. -/
  read : μ → UInt8 → UInt8
  /-- The memory after a byte has been written to an address. -/
  write : μ → UInt8 → UInt8 → μ

/-- A bank on the bus: every cell can be read and written. -/
instance : Bus Bank where
  read := Bank.get
  write := Bank.set

namespace Bus

section

variable {μ : Type} [Bus μ]

/-- Carry out a list of writes, address and byte, in order. -/
def replay (m : μ) (writes : List (UInt8 × UInt8)) : μ :=
  writes.foldl (fun m w => write m w.1 w.2) m

/-- The writes that place a program at address 0.  Bytes past the last address
are not written. -/
def placement (program : List UInt8) : List (UInt8 × UInt8) :=
  Bank.indices.zip program

/-- Write a program to address 0 and the addresses after it. -/
def load (m : μ) (program : List UInt8) : μ :=
  replay m (placement program)

def snapshot (m : μ) : Bank :=
  Bank.ofFn (read m)

@[simp]
theorem replay_nil (m : μ) : replay m [] = m := rfl

@[simp]
theorem replay_cons (m : μ) (w : UInt8 × UInt8) (ws : List (UInt8 × UInt8)) :
    replay m (w :: ws) = replay (write m w.1 w.2) ws := rfl

@[simp]
theorem replay_append (m : μ) (ws us : List (UInt8 × UInt8)) :
    replay m (ws ++ us) = replay (replay m ws) us := by
  simp [replay]

@[simp]
theorem get_snapshot (m : μ) (a : UInt8) : (snapshot m).get a = read m a := by
  simp [snapshot]

end

/-! ### A bank on the bus -/

@[simp]
theorem read_bank (b : Bank) (a : UInt8) : read b a = b.get a := rfl

@[simp]
theorem write_bank (b : Bank) (a x : UInt8) : write b a x = b.set a x := rfl

@[simp]
theorem snapshot_bank (b : Bank) : snapshot b = b :=
  Bank.ext_get fun a => by simp

/-- Writes that put `x` wherever they meet the address `a` leave `x` there. -/
theorem get_replay_of_agree {b : Bank} {ws : List (UInt8 × UInt8)} {a x : UInt8}
    (h : b.get a = x) (hws : ∀ w ∈ ws, w.1 = a → w.2 = x) : (replay b ws).get a = x := by
  induction ws generalizing b with
  | nil => exact h
  | cons w ws ih =>
      rw [replay_cons]
      refine ih ?_ fun u hu => hws u (List.mem_cons_of_mem _ hu)
      rw [write_bank, Bank.get_set]
      split
      · next hw => exact hws w List.mem_cons_self hw
      · exact h

/-- Writes to other addresses leave a cell as it was. -/
theorem get_replay_of_ne {b : Bank} {ws : List (UInt8 × UInt8)} {a : UInt8}
    (h : ∀ w ∈ ws, w.1 ≠ a) : (replay b ws).get a = b.get a :=
  get_replay_of_agree rfl fun w hw hwa => absurd hwa (h w hw)

theorem length_placement (program : List UInt8) :
    (placement program).length = min 256 program.length := by
  simp [placement, Bank.indices, Bank.size]

/-- Writing `n` bytes of a program one by one, from address `k` on, fills them in. -/
theorem replay_zip (n k : Nat) (program : List UInt8) (b : Bank) :
    replay b (((List.range' k n).map UInt8.ofNat).zip program) =
      b.fill ((program.take n).zipIdx k) := by
  induction n generalizing k program b with
  | zero => rfl
  | succ n ih =>
      cases program with
      | nil => rfl
      | cons x program =>
          rw [List.range'_succ, List.map_cons, List.zip_cons_cons, replay_cons, ih]
          rfl

/-- The loop that goes through the addresses and the loop that goes through the program
write the same. -/
theorem load_eq_fill (b : Bank) (program : List UInt8) :
    load b program = b.fill (program.take Bank.size).zipIdx := by
  rw [load, placement, Bank.indices, List.range_eq_range']
  exact replay_zip Bank.size 0 program b

/-- A loaded program covers the cells from address 0 on, and the cells past its
end keep their bytes. -/
theorem get_load (b : Bank) (program : List UInt8) (a : UInt8) :
    (load b program).get a = program.getD a.toNat (b.get a) := by
  rw [load_eq_fill, Bank.get_fill_take]

end Bus
end ByteMachine
