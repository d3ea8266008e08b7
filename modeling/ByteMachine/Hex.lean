/-!
# Bytes in hexadecimal

Addresses, opcodes and operands are written as `0x` and two upper-case digits.

**Results.**
* `byte_eq_numeral`: the text of a byte is its numeral to the base 16, in upper case and
  with two places.
* `byte_inj`: different bytes have different texts.
* `length_byte`: all these texts have the same length.
-/

namespace ByteMachine
namespace Hex

/-- The upper-case digit of a number below 16. -/
def digit (n : Nat) : Char :=
  if n < 10 then Char.ofNat (0x30 + n) else Char.ofNat (0x37 + n)

/-- The text of a byte: `0x`, then its high and its low digit. -/
def byte (b : UInt8) : String :=
  String.ofList ['0', 'x', digit (b.toNat / 16), digit (b.toNat % 16)]

/-- The numeral of a byte to the base 16: `0x`, then its digits in upper case, filled up with
zeros to two places. -/
def numeral (b : UInt8) : String :=
  String.ofList ('0' :: 'x' :: ((Nat.toDigits 16 b.toNat).map Char.toUpper).leftpad 2 '0')

theorem toUpper_digitChar : ∀ n, n < 16 → (Nat.digitChar n).toUpper = digit n := by
  decide

/-- A byte below 16 has one digit and is filled up, and any other byte has two. -/
theorem byte_eq_numeral (b : UInt8) : byte b = numeral b := by
  have hb := b.toNat_lt
  have hlow := toUpper_digitChar (b.toNat % 16) (by omega)
  rw [byte, numeral]
  by_cases h : b.toNat < 16
  · have hzero : b.toNat / 16 = 0 := Nat.div_eq_of_lt h
    rw [Nat.mod_eq_of_lt h] at hlow
    rw [Nat.toDigits_of_lt_base h, hzero, Nat.mod_eq_of_lt h, List.map_singleton, hlow]
    rfl
  · have hle : 16 ≤ b.toNat := Nat.le_of_not_lt h
    have hhigh := toUpper_digitChar (b.toNat / 16) (by omega)
    rw [Nat.toDigits_of_base_le (by decide) hle, Nat.toDigits_of_lt_base (by omega),
      List.singleton_append, List.map_cons, List.map_singleton, hhigh, hlow]
    rfl

theorem digit_inj : ∀ m, m < 16 → ∀ n, n < 16 → digit m = digit n → m = n := by
  decide

/-- A byte can be read off its text. -/
theorem byte_inj {a b : UInt8} (h : byte a = byte b) : a = b := by
  have h' := String.ofList_injective h
  simp only [List.cons.injEq, and_true, true_and] at h'
  have ha := a.toNat_lt
  have hb := b.toNat_lt
  have h₁ := digit_inj _ (by omega) _ (by omega) h'.1
  have h₂ := digit_inj _ (by omega) _ (by omega) h'.2
  apply UInt8.toNat_inj.1
  omega

theorem length_byte (b : UInt8) : (byte b).toList.length = 4 := by
  rw [byte, String.toList_ofList]
  rfl

end Hex
end ByteMachine
