import ByteMachine.Listing
import Mathlib.Algebra.GroupWithZero.Nat
import Mathlib.Data.List.Basic

/-!
# A listing tiles the memory

A listing reads a memory of 256 bytes line by line, with an address that goes round the
memory, while the lines may cover any number of bytes.  Where a line ends depends on its
first byte alone, and the next line starts there.

**Invariant.**  The address of a line is the start of the listing and the number of bytes
covered so far, modulo 256.

**Results.**
* `bytes_decodeAt`: a line shows the bytes at the addresses that it covers.
* `addresses_listing`, `bytes_listing`: the lines cover one address after the other, and
  together they show the bytes there.
* `getElem?_listing`: the invariant.
* `listing_tiles_memory`: all of it, and how a listing is cut in two.
-/

namespace ByteMachine
namespace Line

/-- The first `n` addresses from `start` on.  They go round the memory. -/
def stretch (start : UInt8) (n : Nat) : List UInt8 :=
  (List.range n).map fun i => start + UInt8.ofNat i

theorem stretch_add (start : UInt8) (a b : Nat) :
    stretch start (a + b) = stretch start a ++ stretch (start + UInt8.ofNat a) b := by
  rw [stretch, List.range_add, List.map_append, List.map_map]
  congr 1
  apply List.map_congr_left
  intro i _
  simp [UInt8.ofNat_add, UInt8.add_assoc]

theorem totalSize_cons (l : Line) (ls : List Line) :
    totalSize (l :: ls) = l.size + totalSize ls := rfl

theorem totalSize_append (ls rest : List Line) :
    totalSize (ls ++ rest) = totalSize ls + totalSize rest := by
  induction ls with
  | nil => exact (Nat.zero_add _).symm
  | cons l ls ih =>
      rw [List.cons_append, totalSize_cons, totalSize_cons, ih, Nat.add_assoc]

theorem totalSize_eq_sum (ls : List Line) : totalSize ls = (ls.map size).sum := by
  induction ls with
  | nil => rfl
  | cons l ls ih => rw [totalSize_cons, ih, List.map_cons, List.sum_cons]

section

variable {μ : Type} [Bus μ] (m : μ)

/-! ### One line -/

/-- A line shows the bytes at the addresses that it covers. -/
theorem bytes_decodeAt (address : UInt8) :
    (decodeAt m address).bytes = (decodeAt m address).addresses.map (Bus.read m) := by
  cases hb : Opcode.ofByte? (Bus.read m address) with
  | none =>
      rw [decodeAt_of_ofByte?_eq_none hb]
      simp [bytes, addresses, size]
  | some op =>
      rw [addresses_decodeAt hb, decodeAt_of_ofByte? hb, bytes, Opcode.size,
        List.range_succ_eq_map, Opcode.ofByte?_eq_some_iff.1 hb]
      simp [operandsAt]

/-- A line is as long as the instruction that it names, or one byte. -/
theorem size_decodeAt_le (address : UInt8) :
    1 ≤ (decodeAt m address).size ∧ (decodeAt m address).size ≤ 3 := by
  cases hb : Opcode.ofByte? (Bus.read m address) with
  | none =>
      rw [decodeAt_of_ofByte?_eq_none hb]
      exact ⟨Nat.le_refl 1, Nat.le_add_left 1 2⟩
  | some op =>
      rw [size_decodeAt hb]
      exact ⟨op.size_pos, op.size_le⟩

/-! ### A listing -/

/-- The lines of a listing cover one address after the other. -/
theorem addresses_listing (start : UInt8) (count : Nat) :
    (listing m start count).flatMap addresses =
      stretch start (totalSize (listing m start count)) := by
  induction count generalizing start with
  | zero => rfl
  | succ n ih =>
      have hfirst : (decodeAt m start).addresses = stretch start (decodeAt m start).size := by
        rw [addresses, address_decodeAt]
        rfl
      rw [listing_succ, List.flatMap_cons, totalSize_cons, stretch_add, ih, hfirst, next,
        address_decodeAt]

theorem eq_decodeAt_of_mem_listing {start : UInt8} {count : Nat} {l : Line}
    (h : l ∈ listing m start count) : l = decodeAt m l.address := by
  induction count generalizing start with
  | zero => cases h
  | succ n ih =>
      rw [listing_succ] at h
      rcases List.mem_cons.1 h with rfl | hrest
      · rw [address_decodeAt]
      · exact ih hrest

/-- Taken together, the lines of a listing show the bytes at the addresses that they
cover. -/
theorem bytes_listing (start : UInt8) (count : Nat) :
    (listing m start count).flatMap bytes =
      (stretch start (totalSize (listing m start count))).map (Bus.read m) := by
  rw [← addresses_listing, List.map_flatMap]
  apply List.flatMap_congr
  intro l hl
  rw [eq_decodeAt_of_mem_listing m hl]
  exact bytes_decodeAt m l.address

/-- Where the first `count` lines of a listing end. -/
def behind (start : UInt8) (count : Nat) : UInt8 :=
  start + UInt8.ofNat (totalSize (listing m start count))

theorem listing_concat (start : UInt8) (count : Nat) :
    listing m start (count + 1) =
      listing m start count ++ [decodeAt m (behind m start count)] :=
  listing_add m start count 1

theorem behind_succ (start : UInt8) (count : Nat) :
    behind m start (count + 1) = (decodeAt m (behind m start count)).next := by
  rw [behind, listing_concat, totalSize_append, next, address_decodeAt, behind,
    UInt8.add_assoc, ← UInt8.ofNat_add]
  rfl

/-- A line stands where the lines before it end. -/
theorem getElem?_listing (start : UInt8) {count k : Nat} (h : k < count) :
    (listing m start count)[k]? = some (decodeAt m (behind m start k)) := by
  obtain ⟨rest, rfl⟩ : ∃ rest, count = (k + 1) + rest := ⟨count - (k + 1), by omega⟩
  have hk : k < (listing m start (k + 1)).length := by
    rw [length_listing]
    exact Nat.lt_succ_self k
  rw [listing_add, List.getElem?_append_left hk, listing_concat,
    List.getElem?_append_right (Nat.le_of_eq (length_listing m start k)), length_listing,
    Nat.sub_self]
  rfl

/-- The address of a line is that of the line before it, moved on by its size. -/
theorem address_of_getElem?_succ {start : UInt8} {count k : Nat} {l l' : Line}
    (h : (listing m start count)[k]? = some l)
    (h' : (listing m start count)[k + 1]? = some l') :
    l'.address = l.address + UInt8.ofNat l.size := by
  have hk : k + 1 < count := by
    have hlt := (List.getElem?_eq_some_iff.1 h').1
    rwa [length_listing] at hlt
  rw [getElem?_listing m start (Nat.lt_of_succ_lt hk)] at h
  rw [getElem?_listing m start hk] at h'
  rw [← Option.some.inj h', ← Option.some.inj h, address_decodeAt, behind_succ]
  rfl

end

end Line

namespace Tiling

/-- **A listing tiles the memory.**  It has as many lines as were asked for.  Each line is
the one that stands at its address, and covers one to three bytes.  The first line stands
at the start, and each other line where the line before it ends, modulo 256.  So the lines
cover one address after the other, without a gap and without an overlap, and the bytes that
they show are those of the memory, however often the listing goes round.  And a listing may
be cut in two at any line. -/
theorem listing_tiles_memory {μ : Type} [Bus μ] (m : μ) (start : UInt8) (count : Nat) :
    let lines := Line.listing m start count
    lines.length = count ∧
    (∀ l ∈ lines, l = Line.decodeAt m l.address ∧ 1 ≤ l.size ∧ l.size ≤ 3) ∧
    (∀ l, lines[0]? = some l → l.address = start) ∧
    (∀ k l l', lines[k]? = some l → lines[k + 1]? = some l' →
      l'.address = l.address + UInt8.ofNat l.size) ∧
    lines.flatMap Line.addresses =
      (List.range (lines.map Line.size).sum).map (fun i => start + UInt8.ofNat i) ∧
    lines.flatMap (fun l => l.opcode :: l.operands) =
      (List.range (lines.map Line.size).sum).map
        (fun i => Bus.read m (start + UInt8.ofNat i)) ∧
    ∀ a b, Line.listing m start (a + b) =
      Line.listing m start a ++
        Line.listing m
          (start + UInt8.ofNat ((Line.listing m start a).map Line.size).sum) b := by
  intro lines
  refine ⟨Line.length_listing m start count, ?_, ?_, ?_, ?_, ?_, ?_⟩
  · intro l hl
    have hline := Line.eq_decodeAt_of_mem_listing m hl
    refine ⟨hline, ?_⟩
    rw [hline]
    exact Line.size_decodeAt_le m l.address
  · intro l hl
    cases count with
    | zero => cases hl
    | succ n =>
        rw [← Option.some.inj hl]
        exact Line.address_decodeAt m start
  · intro k l l' hl hl'
    exact Line.address_of_getElem?_succ m hl hl'
  · rw [Line.addresses_listing, Line.totalSize_eq_sum]
    rfl
  · have hbytes := Line.bytes_listing m start count
    rw [Line.stretch, List.map_map, Line.totalSize_eq_sum] at hbytes
    exact hbytes
  · intro a b
    rw [← Line.totalSize_eq_sum]
    exact Line.listing_add m start a b

/-- Print, and behind it an addition of which the operands stand at the other end of the
memory. -/
def straddling : Bank :=
  Bus.replay Bank.zero [(0xFE, 0x06), (0xFF, 0x0C), (0x00, 0x01), (0x01, 0x02)]

theorem listing_tiles_memory_straddling :
    let lines := Line.listing straddling 0xFE 3
    lines.flatMap (fun l => l.opcode :: l.operands) = [0x06, 0x0C, 0x01, 0x02, 0x00] ∧
      ∃ first second third, lines = [first, second, third] ∧ first.address = 0xFE ∧
        second = Line.decodeAt straddling second.address ∧ second.size ≤ 3 ∧
        third.address = second.address + UInt8.ofNat second.size := by
  intro lines
  obtain ⟨_, hline, hfirst, hnext, _, hbytes, _⟩ := listing_tiles_memory straddling 0xFE 3
  obtain ⟨hdecoded, _, hsize⟩ := hline (Line.decodeAt straddling 0xFF) (by decide +kernel)
  refine ⟨hbytes.trans (by decide +kernel), _, _, _, rfl, hfirst _ rfl, hdecoded, hsize, ?_⟩
  exact hnext 1 _ _ rfl rfl

end Tiling
end ByteMachine
