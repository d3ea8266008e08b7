/-!
# Banks of 256 byte cells

A bank holds one byte for each of the 256 one-byte indices, so every index is
in range and reading or writing never fails.  The flat memory of the machine
is a bank, and so are its general registers.

**Results.**
* `get_set`: a written cell holds the written byte and every other cell keeps
  its own.
* `ext_get`: two banks with the same byte at every index are equal.
* `get_fill_take`, `get_ofImage`: the loop that fills in an image covers the cells from
  index 0 on, drops the bytes past the last cell, and leaves the cells past the end of the
  image zero.
* `mem_changes`: the changes between two banks are exactly the cells that
  differ, with their new bytes.
-/

namespace ByteMachine

/-- A bank of 256 byte cells. -/
structure Bank where
  cells : Vector UInt8 256
  deriving DecidableEq

namespace Bank

def size : Nat := 256

/-- All 256 indices in ascending order. -/
def indices : List UInt8 :=
  (List.range size).map UInt8.ofNat

def get (b : Bank) (i : UInt8) : UInt8 :=
  have _ : i.toNat < 256 := i.toNat_lt
  b.cells[i.toNat]

def set (b : Bank) (i x : UInt8) : Bank :=
  ⟨b.cells.set i.toNat x i.toNat_lt⟩

def ofFn (f : UInt8 → UInt8) : Bank :=
  ⟨Vector.ofFn fun i => f (UInt8.ofNat i.val)⟩

def zero : Bank :=
  ⟨Vector.replicate 256 0⟩

/-- Set cells one after the other, each of them given by its byte and its index. -/
def fill (b : Bank) (cells : List (UInt8 × Nat)) : Bank :=
  cells.foldl (fun b c => b.set (UInt8.ofNat c.2) c.1) b

/-- The bank that is filled with `image` from cell 0 on.  Bytes past the last cell are
dropped, and the cells past the end of the image stay zero. -/
def ofImage (image : List UInt8) : Bank :=
  zero.fill (image.take size).zipIdx

def toList (b : Bank) : List UInt8 :=
  b.cells.toList

/-- The cells of `b` that differ from those of `a`, ascending, with their
bytes in `b`. -/
def changes (a b : Bank) : List (UInt8 × UInt8) :=
  indices.filterMap fun i =>
    if a.get i = b.get i then none else some (i, b.get i)

/-! ### Reading after writing -/

@[simp]
theorem get_set_self (b : Bank) (i x : UInt8) : (b.set i x).get i = x := by
  simp [get, set]

theorem get_set_of_ne (b : Bank) {i j : UInt8} (x : UInt8) (h : i ≠ j) :
    (b.set i x).get j = b.get j := by
  have h' : i.toNat ≠ j.toNat := fun e => h (UInt8.toNat_inj.1 e)
  simp [get, set, h']

theorem get_set (b : Bank) (i j x : UInt8) :
    (b.set i x).get j = if i = j then x else b.get j := by
  by_cases h : i = j
  · subst h
    simp
  · simp [get_set_of_ne b x h, h]

/-- Banks are determined by the byte at each index. -/
theorem ext_get {a b : Bank} (h : ∀ i, a.get i = b.get i) : a = b := by
  obtain ⟨u⟩ := a
  obtain ⟨v⟩ := b
  congr 1
  apply Vector.ext
  intro i hi
  have := h (UInt8.ofNat i)
  simpa [get, Nat.mod_eq_of_lt hi] using this

@[simp]
theorem set_get_self (b : Bank) (i : UInt8) : b.set i (b.get i) = b := by
  apply ext_get
  intro j
  rw [get_set]
  split
  · next h => rw [h]
  · rfl

@[simp]
theorem set_set_self (b : Bank) (i x y : UInt8) :
    (b.set i x).set i y = b.set i y := by
  apply ext_get
  intro j
  simp only [get_set]
  split <;> rfl

theorem set_comm (b : Bank) {i j : UInt8} (x y : UInt8) (h : i ≠ j) :
    (b.set i x).set j y = (b.set j y).set i x := by
  apply ext_get
  intro k
  simp only [get_set]
  by_cases hj : j = k
  · subst hj
    simp [h]
  · simp [hj]

/-! ### Reading a bank that was built whole -/

@[simp]
theorem get_ofFn (f : UInt8 → UInt8) (i : UInt8) : (ofFn f).get i = f i := by
  simp [get, ofFn]

@[simp]
theorem get_zero (i : UInt8) : zero.get i = 0 := by
  simp [get, zero]

/-- Bytes that are filled in from cell `k` on, and fit, cover the cells from `k` on up to
their end, and the other cells keep their own. -/
theorem get_fill_zipIdx (bytes : List UInt8) (k : Nat) (b : Bank) (i : UInt8)
    (h : k + bytes.length ≤ size) :
    (b.fill (bytes.zipIdx k)).get i =
      if k ≤ i.toNat then bytes.getD (i.toNat - k) (b.get i) else b.get i := by
  induction bytes generalizing k b with
  | nil => simp [fill]
  | cons x bytes ih =>
      rw [List.length_cons] at h
      have hk : (UInt8.ofNat k).toNat = k :=
        UInt8.toNat_ofNat_of_lt' (Nat.lt_of_lt_of_le (by omega) h)
      have hfill : b.fill ((x :: bytes).zipIdx k) =
          (b.set (UInt8.ofNat k) x).fill (bytes.zipIdx (k + 1)) := rfl
      rw [hfill, ih (k + 1) _ (by omega), get_set]
      -- Cell `k` has been set, and those behind it are filled next.
      by_cases hlt : k + 1 ≤ i.toNat
      · have hne : UInt8.ofNat k ≠ i := by
          rintro rfl
          omega
        have hs : i.toNat - k = i.toNat - (k + 1) + 1 := by omega
        rw [if_pos hlt, if_pos (Nat.le_of_succ_le hlt), if_neg hne, hs, List.getD_cons_succ]
      · rw [if_neg hlt]
        by_cases heq : k = i.toNat
        · subst heq
          simp
        · have hne : UInt8.ofNat k ≠ i := by
            rintro rfl
            omega
          rw [if_neg hne, if_neg (by omega)]

/-- A list that is filled in from cell 0 on covers the bank up to its end. -/
theorem get_fill_take (bytes : List UInt8) (b : Bank) (i : UInt8) :
    (b.fill (bytes.take size).zipIdx).get i = bytes.getD i.toNat (b.get i) := by
  have hlt : i.toNat < size := i.toNat_lt
  have hle : 0 + (bytes.take size).length ≤ size := by
    rw [Nat.zero_add, List.length_take]
    exact Nat.min_le_left _ _
  rw [get_fill_zipIdx _ 0 b i hle, if_pos (Nat.zero_le _), Nat.sub_zero,
    List.getD_eq_getElem?_getD, List.getElem?_take_of_lt hlt, List.getD_eq_getElem?_getD]

theorem get_ofImage (image : List UInt8) (i : UInt8) :
    (ofImage image).get i = image.getD i.toNat 0 := by
  rw [ofImage, get_fill_take, get_zero]

@[simp]
theorem ofImage_nil : ofImage [] = zero := by
  apply ext_get
  intro i
  simp [get_ofImage]

/-! ### The cells as a list -/

@[simp]
theorem length_toList (b : Bank) : b.toList.length = size := by
  simp [toList, size]

theorem getElem?_toList (b : Bank) (i : UInt8) :
    b.toList[i.toNat]? = some (b.get i) := by
  simp [toList, get]

@[simp]
theorem ofImage_toList (b : Bank) : ofImage b.toList = b := by
  apply ext_get
  intro i
  simp [get_ofImage, List.getD, getElem?_toList]

theorem mem_indices (i : UInt8) : i ∈ indices := by
  refine List.mem_map.2 ⟨i.toNat, ?_, ?_⟩
  · exact List.mem_range.2 i.toNat_lt
  · simp

theorem mem_changes {a b : Bank} {i x : UInt8} :
    (i, x) ∈ changes a b ↔ a.get i ≠ b.get i ∧ x = b.get i := by
  simp only [changes, List.mem_filterMap]
  constructor
  · rintro ⟨j, _, hj⟩
    split at hj
    · cases hj
    · next h =>
        cases hj
        exact ⟨h, rfl⟩
  · rintro ⟨h, rfl⟩
    exact ⟨i, mem_indices i, by simp [h]⟩

/-- Cells that hold bytes other than zero are changes of a bank of zeros. -/
theorem subset_changes_zero {b : Bank} {cells : List (UInt8 × UInt8)}
    (hget : cells.map (fun c => b.get c.1) = cells.map Prod.snd)
    (hne : ∀ c ∈ cells, c.2 ≠ 0) : cells ⊆ changes zero b := by
  intro c hc
  have hc' : b.get c.1 = c.2 := List.map_inj_left.1 hget c hc
  apply mem_changes.2
  rw [get_zero, hc']
  exact ⟨(hne c hc).symm, rfl⟩

end Bank
end ByteMachine
