/-!
# Counts in double precision

A double holds every natural number with at most 53 binary digits.  A larger
one is rounded to 53 digits, a half to the even neighbour.

**Results.**
* `nearest_of_lt`: a number below 2⁵³ is kept as it is.
* `close_nearest`: rounding moves a number by at most half of a unit in the last
  of the 53 digits.
-/

namespace ByteMachine
namespace Binary64

/-- The number of binary digits that a double keeps. -/
def precision : Nat := 53

/-- The number of low binary digits of `n` that a double drops. -/
def dropped (n : Nat) : Nat :=
  n.log2 + 1 - precision

/-- The natural number that the double nearest to `n` denotes. -/
def nearest (n : Nat) : Nat :=
  let unit := 1 <<< dropped n
  let q := n / unit
  let r := n % unit
  if 2 * r < unit ∨ (2 * r = unit ∧ q % 2 = 0) then q * unit else (q + 1) * unit

/-- The two numbers differ by at most half of a unit in the last of the binary digits that a
double keeps of the first. -/
def Close (n m : Nat) : Prop :=
  2 * m ≤ 2 * n + 1 <<< dropped n ∧ 2 * n ≤ 2 * m + 1 <<< dropped n

theorem dropped_of_lt {n : Nat} (h : n < 1 <<< precision) : dropped n = 0 := by
  rw [Nat.one_shiftLeft] at h
  rcases Nat.eq_zero_or_pos n with h₀ | h₀
  · subst h₀
    rfl
  · have hl : n.log2 < precision := (Nat.log2_lt (by omega)).2 h
    simp only [dropped]
    omega

theorem nearest_of_lt {n : Nat} (h : n < 1 <<< precision) : nearest n = n := by
  simp [nearest, dropped_of_lt h, Nat.mod_one]

theorem close_nearest (n : Nat) : Close n (nearest n) := by
  have hunit : 0 < 1 <<< dropped n := by
    rw [Nat.one_shiftLeft]
    exact Nat.two_pow_pos (dropped n)
  have hn := Nat.div_add_mod n (1 <<< dropped n)
  have hr := Nat.mod_lt n hunit
  rw [Nat.mul_comm] at hn
  simp only [Close, nearest]
  split
  · next h =>
      constructor
      · omega
      · omega
  · next h =>
      rw [Nat.add_mul, Nat.one_mul]
      constructor
      · omega
      · omega

end Binary64
end ByteMachine
