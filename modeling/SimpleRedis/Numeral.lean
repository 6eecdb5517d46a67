import Mathlib.Data.Nat.Digits.Defs

/-!
# Numerals, most significant digit first

`numeral` writes a number in a base and `value` reads a list of digits with the
loop of a text parser. Zero has one digit.
-/
namespace SimpleRedis.Numeral

/-- The digits of `n` in base `b` as they are written. -/
def numeral (b n : ℕ) : List ℕ := if n = 0 then [0] else (Nat.digits b n).reverse

/-- The number that a list of digits denotes. -/
def value (b : ℕ) (ds : List ℕ) : ℕ := ds.foldl (fun v d => v * b + d) 0

theorem numeral_ne_nil (b n : ℕ) : numeral b n ≠ [] := by
  unfold numeral
  split
  · simp
  · rename_i h
    simpa using Nat.digits_ne_nil_iff_ne_zero.mpr h

theorem lt_of_mem_numeral {b n d : ℕ} (hb : 1 < b) (h : d ∈ numeral b n) : d < b := by
  unfold numeral at h
  split at h
  · rw [List.mem_singleton] at h
    omega
  · exact Nat.digits_lt_base hb (List.mem_reverse.mp h)

theorem value_numeral (b n : ℕ) : value b (numeral b n) = n := by
  unfold value numeral
  split
  · rename_i h
    simp [h]
  · rw [List.foldl_reverse]
    have hdigits := Nat.ofDigits_digits b n
    rw [Nat.ofDigits_eq_foldr] at hdigits
    conv_rhs => rw [← hdigits]
    congr 1
    funext d v
    simp only [Nat.cast_id]
    ring

end SimpleRedis.Numeral
