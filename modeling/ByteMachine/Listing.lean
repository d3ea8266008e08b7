import ByteMachine.Bus.Basic
import ByteMachine.Hex
import ByteMachine.Opcode

/-!
# Listings

A listing shows a stretch of memory as instruction lines.  A line that starts
at a byte without an opcode holds that byte alone.  Addresses are modulo 256,
for the operands of a line as well as from one line to the next.

**Results.**
* `length_listing`: a listing has as many lines as were asked for.
* `size_decodeAt`: the size of a decoded line is that of its opcode.
* `decodeAt_congr`, `listing_congr`: a line and a listing look at the addresses that
  they cover, and at no others.
* `listing_add`: a listing is cut into two at any line.
-/

namespace ByteMachine

/-- One line of a listing. -/
structure Line where
  address : UInt8
  opcode : UInt8
  /-- The instruction that is named on the line, if any. -/
  instruction : Option Opcode
  operands : List UInt8
  deriving DecidableEq

namespace Line

def size (l : Line) : Nat :=
  l.operands.length + 1

def bytes (l : Line) : List UInt8 :=
  l.opcode :: l.operands

/-- The addresses that a line covers. -/
def addresses (l : Line) : List UInt8 :=
  (List.range l.size).map fun k => l.address + UInt8.ofNat k

/-- The address of the byte after a line. -/
def next (l : Line) : UInt8 :=
  l.address + UInt8.ofNat l.size

/-- The text of a line: the mnemonic and the operands, or the first byte where
no instruction is named. -/
def text (l : Line) : String :=
  match l.instruction with
  | some op =>
      op.mnemonic ++ String.join (l.operands.map fun b => " " ++ Hex.byte b)
  | none => ".byte " ++ Hex.byte l.opcode

section

variable {μ : Type} [Bus μ]

/-- The bytes of `m` at the `n` addresses after `address`. -/
def operandsAt (m : μ) (address : UInt8) (n : Nat) : List UInt8 :=
  (List.range n).map fun k => Bus.read m (address + UInt8.ofNat (k + 1))

/-- The line that starts at `address`. -/
def decodeAt (m : μ) (address : UInt8) : Line :=
  let b := Bus.read m address
  match Opcode.ofByte? b with
  | some op => ⟨address, b, some op, operandsAt m address op.operandCount⟩
  | none => ⟨address, b, none, []⟩

/-- The first `count` lines from `start` on. -/
def listing (m : μ) (start : UInt8) : Nat → List Line
  | 0 => []
  | count + 1 =>
      let l := decodeAt m start
      l :: listing m l.next count

/-! ### A single line -/

@[simp]
theorem length_operandsAt (m : μ) (address : UInt8) (n : Nat) :
    (operandsAt m address n).length = n := by
  simp [operandsAt]

@[simp]
theorem address_decodeAt (m : μ) (address : UInt8) :
    (decodeAt m address).address = address := by
  unfold decodeAt
  dsimp only
  split <;> rfl

@[simp]
theorem opcode_decodeAt (m : μ) (address : UInt8) :
    (decodeAt m address).opcode = Bus.read m address := by
  unfold decodeAt
  dsimp only
  split <;> rfl

@[simp]
theorem instruction_decodeAt (m : μ) (address : UInt8) :
    (decodeAt m address).instruction = Opcode.ofByte? (Bus.read m address) := by
  unfold decodeAt
  dsimp only
  split <;> simp_all

theorem decodeAt_of_ofByte? {m : μ} {address : UInt8} {op : Opcode}
    (h : Opcode.ofByte? (Bus.read m address) = some op) :
    decodeAt m address =
      ⟨address, op.byte, some op, operandsAt m address op.operandCount⟩ := by
  simp [decodeAt, h, Opcode.ofByte?_eq_some_iff.1 h]

theorem decodeAt_of_ofByte?_eq_none {m : μ} {address : UInt8}
    (h : Opcode.ofByte? (Bus.read m address) = none) :
    decodeAt m address = ⟨address, Bus.read m address, none, []⟩ := by
  simp [decodeAt, h]

theorem size_decodeAt {m : μ} {address : UInt8} {op : Opcode}
    (h : Opcode.ofByte? (Bus.read m address) = some op) :
    (decodeAt m address).size = op.size := by
  simp [decodeAt_of_ofByte? h, size, Opcode.size]

theorem addresses_decodeAt {m : μ} {address : UInt8} {op : Opcode}
    (h : Opcode.ofByte? (Bus.read m address) = some op) :
    (decodeAt m address).addresses =
      (List.range op.size).map fun k => address + UInt8.ofNat k := by
  rw [addresses, size_decodeAt h, address_decodeAt]

theorem mem_addresses_decodeAt (m : μ) (address : UInt8) :
    address ∈ (decodeAt m address).addresses := by
  refine List.mem_map.2 ⟨0, ?_, ?_⟩
  · exact List.mem_range.2 (Nat.succ_pos _)
  · simp

/-- A line shows the bytes at the addresses that it covers, whatever memory they
stand in. -/
theorem decodeAt_congr {ν : Type} [Bus ν] {m : μ} {m' : ν} {address : UInt8}
    (h : ∀ a ∈ (decodeAt m address).addresses, Bus.read m' a = Bus.read m a) :
    decodeAt m' address = decodeAt m address := by
  have hfirst : Bus.read m' address = Bus.read m address :=
    h address (mem_addresses_decodeAt m address)
  cases hb : Opcode.ofByte? (Bus.read m address) with
  | none =>
      have hb' : Opcode.ofByte? (Bus.read m' address) = none := by
        rw [hfirst, hb]
      rw [decodeAt_of_ofByte?_eq_none hb, decodeAt_of_ofByte?_eq_none hb', hfirst]
  | some op =>
      have hb' : Opcode.ofByte? (Bus.read m' address) = some op := by
        rw [hfirst, hb]
      rw [addresses_decodeAt hb] at h
      have hoperands : operandsAt m' address op.operandCount =
          operandsAt m address op.operandCount := by
        apply List.map_congr_left
        intro k hk
        apply h
        have hlt : k + 1 < op.size := Nat.succ_lt_succ (List.mem_range.1 hk)
        exact List.mem_map.2 ⟨k + 1, List.mem_range.2 hlt, rfl⟩
      rw [decodeAt_of_ofByte? hb, decodeAt_of_ofByte? hb', hoperands]

/-! ### A listing -/

@[simp]
theorem listing_zero (m : μ) (start : UInt8) : listing m start 0 = [] := rfl

theorem listing_succ (m : μ) (start : UInt8) (count : Nat) :
    listing m start (count + 1) =
      decodeAt m start :: listing m (decodeAt m start).next count := rfl

@[simp]
theorem length_listing (m : μ) (start : UInt8) (count : Nat) :
    (listing m start count).length = count := by
  induction count generalizing start with
  | zero => rfl
  | succ n ih => simp [listing_succ, ih]

/-- A listing shows the bytes at the addresses that its lines cover. -/
theorem listing_congr {ν : Type} [Bus ν] {m : μ} {m' : ν} (start : UInt8) (count : Nat)
    (h : ∀ a ∈ (listing m start count).flatMap addresses,
      Bus.read m' a = Bus.read m a) :
    listing m' start count = listing m start count := by
  induction count generalizing start with
  | zero => rfl
  | succ n ih =>
      rw [listing_succ, List.flatMap_cons] at h
      have hline : decodeAt m' start = decodeAt m start :=
        decodeAt_congr fun a ha => h a (List.mem_append_left _ ha)
      rw [listing_succ, listing_succ, hline,
        ih _ fun a ha => h a (List.mem_append_right _ ha)]

def totalSize (ls : List Line) : Nat :=
  ls.foldr (fun l n => l.size + n) 0

/-- A listing goes on behind its first lines at the address where they end. -/
theorem listing_add (m : μ) (start : UInt8) (a b : Nat) :
    listing m start (a + b) =
      listing m start a ++
        listing m (start + UInt8.ofNat (totalSize (listing m start a))) b := by
  induction a generalizing start with
  | zero => simp [totalSize]
  | succ n ih =>
      rw [Nat.succ_add, listing_succ, listing_succ, ih, List.cons_append]
      simp [totalSize, next, UInt8.add_assoc]

end

end Line
end ByteMachine
