import Mathlib.Data.List.Basic
import Mathlib.Data.Nat.ModEq
import Mathlib.Logic.Function.Basic

/-!
# Indices of a ring buffer

A ring of `cap` cells holds the entries of an unbounded sequence whose numbers lie
in a window of `cap` consecutive ones; entry `k` is in cell `k % cap`. Within the
window a cell belongs to one entry only, and comparing the cells of the two ends
tells whether the ring is empty or full. `Window` says that the cells hold the entries
from `r` on and nothing else.
-/
namespace SimpleRedis.RingIndex

variable {cap r w j k : ℕ}

/-- The cells of a window are different. -/
theorem eq_of_mod_eq (hj : r ≤ j) (hj' : j < r + cap) (hk : r ≤ k) (hk' : k < r + cap)
    (h : j % cap = k % cap) : j = k := by
  rcases Nat.le_total j k with hle | hle
  · have hdvd : cap ∣ k - j := (Nat.modEq_iff_dvd' hle).mp h
    have hzero := Nat.eq_zero_of_dvd_of_lt hdvd (by omega)
    omega
  · have hdvd : cap ∣ j - k := (Nat.modEq_iff_dvd' hle).mp h.symm
    have hzero := Nat.eq_zero_of_dvd_of_lt hdvd (by omega)
    omega

/-- The ends meet in one cell if nothing lies between them. -/
theorem empty_iff (hle : r ≤ w) (hlt : w < r + cap) : r % cap = w % cap ↔ r = w :=
  ⟨eq_of_mod_eq le_rfl (by omega) hle hlt, fun h => by rw [h]⟩

/-- The cell behind the last one is the first one if the ring is full but for a cell. -/
theorem full_iff (hle : r ≤ w) (hlt : w < r + cap) :
    (w % cap + 1) % cap = r % cap ↔ w + 1 = r + cap := by
  rw [Nat.mod_add_mod]
  constructor
  · intro h
    by_contra hne
    have := eq_of_mod_eq (by omega) (by omega) le_rfl (by omega) h
    omega
  · intro h
    rw [h, Nat.add_mod_right]

/-- The cells from the first one to the last one are as many as the entries. -/
theorem distance_mod (hle : r ≤ w) (hlt : w < r + cap) :
    (w % cap + cap - r % cap) % cap = w - r := by
  have hcell : r % cap < cap := Nat.mod_lt r (by omega)
  have hw : w % cap = (r % cap + (w - r)) % cap := by
    rw [Nat.mod_add_mod, Nat.add_sub_cancel' hle]
  rcases Nat.lt_or_ge (r % cap + (w - r)) cap with hbefore | hafter
  · have hsum : r % cap + (w - r) + cap - r % cap = w - r + cap := by omega
    rw [hw, Nat.mod_eq_of_lt hbefore, hsum, Nat.add_mod_right, Nat.mod_eq_of_lt (by omega)]
  · have hsum : r % cap + (w - r) - cap + cap - r % cap = w - r := by omega
    have hlap : (r % cap + (w - r) - cap) % cap = r % cap + (w - r) - cap :=
      Nat.mod_eq_of_lt (by omega)
    rw [hw, Nat.mod_eq_sub_mod hafter, hlap, hsum, Nat.mod_eq_of_lt (by omega)]

theorem succ_mod : (k % cap + 1) % cap = (k + 1) % cap := Nat.mod_add_mod k cap 1

/-- The cells hold the entries of `xs` from number `r` on; the others of the ring are
empty. -/
structure Window {α : Type*} (cap : ℕ) (data : ℕ → Option α) (xs : List α) (r : ℕ) : Prop where
  le : r ≤ xs.length
  room : xs.length ≤ r + cap
  entry : ∀ k x, r ≤ k → xs[k]? = some x → data (k % cap) = some x
  free : ∀ k, xs.length ≤ k → k < r + cap → data (k % cap) = none

namespace Window

variable {α : Type*} {data : ℕ → Option α} {xs : List α} {x : α}

theorem empty (cap : ℕ) : Window cap (fun _ => (none : Option α)) [] 0 where
  le := le_rfl
  room := Nat.zero_le _
  entry _ _ _ h := by simp at h
  free _ _ _ := rfl

/-- The next entry goes into the first empty cell. -/
theorem put (h : Window cap data xs r) (hlt : xs.length < r + cap) (x : α) :
    Window cap (Function.update data (xs.length % cap) (some x)) (xs ++ [x]) r := by
  have hle := h.le
  refine ⟨?_, ?_, fun k y hk hy => ?_, fun k hk hk' => ?_⟩
  · rw [List.length_append]
    omega
  · rw [List.length_append, List.length_singleton]
    omega
  · have hlen := (List.getElem?_eq_some_iff.mp hy).1
    rw [List.length_append, List.length_singleton] at hlen
    by_cases hlast : k = xs.length
    · subst hlast
      rw [List.getElem?_concat_length] at hy
      rw [Function.update_self, hy]
    · have hne : k % cap ≠ xs.length % cap := fun heq =>
        hlast (eq_of_mod_eq hk (by omega) hle hlt heq)
      rw [List.getElem?_append_left (by omega)] at hy
      rw [Function.update_of_ne hne]
      exact h.entry k y hk hy
  · rw [List.length_append, List.length_singleton] at hk
    have hne : k % cap ≠ xs.length % cap := fun heq => by
      have := eq_of_mod_eq (by omega) hk' hle hlt heq
      omega
    rw [Function.update_of_ne hne]
    exact h.free k (by omega) hk'

/-- The first entry is taken out of its cell. -/
theorem take (h : Window cap data xs r) (hlt : r < xs.length) :
    Window cap (Function.update data (r % cap) none) xs (r + 1) := by
  have hroom := h.room
  refine ⟨hlt, by omega, fun k y hk hy => ?_, fun k hk hk' => ?_⟩
  · have hlen := (List.getElem?_eq_some_iff.mp hy).1
    have hne : k % cap ≠ r % cap := fun heq => by
      have := eq_of_mod_eq (by omega) (by omega) le_rfl (by omega) heq
      omega
    rw [Function.update_of_ne hne]
    exact h.entry k y (by omega) hy
  · by_cases hcell : k % cap = r % cap
    · rw [hcell, Function.update_self]
    · have hne : k ≠ r + cap := fun heq => hcell (by rw [heq, Nat.add_mod_right])
      rw [Function.update_of_ne hcell]
      exact h.free k hk (by omega)

end Window

end SimpleRedis.RingIndex
