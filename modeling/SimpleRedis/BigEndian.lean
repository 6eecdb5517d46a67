import Mathlib.Data.List.Induction
import Mathlib.Data.Nat.Bitwise
import Mathlib.Tactic.Ring

/-!
# Big-endian byte strings

The most significant byte comes first. `value` reads a byte string of any
length, `digits` writes the low-order bytes of a number in a fixed width, and
the two are inverse to each other. The last section reads a byte string into a
machine word by shifting and or-ing, the usual loop of a binary decoder.
-/
namespace SimpleRedis.BigEndian

/-- The number a byte string denotes, most significant byte first. -/
def value (bs : List UInt8) : ℕ := bs.foldl (fun v b => v * 256 + b.toNat) 0

/-- The `n` low-order bytes of `v`, most significant byte first. -/
def digits : ℕ → ℕ → List UInt8
  | 0, _ => []
  | n + 1, v => digits n (v / 256) ++ [UInt8.ofNat v]

@[simp] theorem value_nil : value [] = 0 := rfl

@[simp] theorem value_concat (bs : List UInt8) (b : UInt8) :
    value (bs ++ [b]) = value bs * 256 + b.toNat := by
  simp [value]

@[simp] theorem length_digits (n v : ℕ) : (digits n v).length = n := by
  induction n generalizing v with
  | zero => rfl
  | succ n ih => simp [digits, ih]

theorem value_lt (bs : List UInt8) : value bs < 256 ^ bs.length := by
  induction bs using List.reverseRecOn with
  | nil => simp
  | append_singleton bs b ih =>
      have hb : b.toNat < 256 := b.toNat_lt
      rw [value_concat, List.length_append, List.length_singleton, Nat.pow_succ]
      omega

theorem value_digits (n v : ℕ) : value (digits n v) = v % 256 ^ n := by
  induction n generalizing v with
  | zero => simp [digits, Nat.mod_one]
  | succ n ih =>
      rw [digits, value_concat, ih, Nat.pow_succ, Nat.mul_comm (256 ^ n) 256,
        Nat.mod_mul]
      simp only [UInt8.toNat_ofNat']
      omega

theorem value_digits_of_lt {n v : ℕ} (h : v < 256 ^ n) : value (digits n v) = v := by
  rw [value_digits, Nat.mod_eq_of_lt h]

/-- Writing back what was read gives the same bytes. -/
theorem digits_value (bs : List UInt8) : digits bs.length (value bs) = bs := by
  induction bs using List.reverseRecOn with
  | nil => rfl
  | append_singleton bs b ih =>
      have hb : b.toNat < 256 := b.toNat_lt
      have hq : (value bs * 256 + b.toNat) / 256 = value bs := by omega
      have hr : UInt8.ofNat (value bs * 256 + b.toNat) = b := by
        apply UInt8.toNat_inj.mp
        simp only [UInt8.toNat_ofNat']
        omega
      rw [List.length_append, List.length_singleton, digits, value_concat, hq, hr, ih]

/-- The loop of an encoder, which shifts each byte down to the low end. -/
theorem digits_eq_shifts (n v : ℕ) :
    digits n v = (List.range n).reverse.map fun i => UInt8.ofNat (v >>> (8 * i)) := by
  induction n generalizing v with
  | zero => rfl
  | succ n ih =>
      have hshift : ∀ i, (v / 256) >>> (8 * i) = v >>> (8 * (i + 1)) := fun i => by
        rw [Nat.mul_add, Nat.add_comm, Nat.shiftRight_add, Nat.shiftRight_eq_div_pow v]
      rw [digits, ih, List.range_succ_eq_map, List.reverse_cons, List.map_append,
        ← List.map_reverse, List.map_map]
      simp only [hshift, Function.comp_def, Nat.succ_eq_add_one, List.map_cons, List.map_nil,
        Nat.mul_zero, Nat.shiftRight_zero]

section Words

/-- Shifting by one byte leaves room for the next byte. -/
theorem shiftLeft_or_byte (v b : ℕ) (hb : b < 256) : v <<< 8 ||| b = v * 256 + b := by
  rw [← Nat.shiftLeft_add_eq_or_of_lt (i := 8) (by simpa using hb), Nat.shiftLeft_eq]

/-- A word that takes in one byte at a time without overflow holds the value
of the bytes; `step` is the body of the loop and `bound` the word's range. -/
theorem foldl_toNat {W : Type} (toNat : W → ℕ) (step : W → UInt8 → W) (bound : ℕ)
    (hstep : ∀ v b, toNat v * 256 + b.toNat < bound →
      toNat (step v b) = toNat v * 256 + b.toNat)
    (bs : List UInt8) (v : W) (h : toNat v * 256 ^ bs.length + value bs < bound) :
    toNat (bs.foldl step v) = toNat v * 256 ^ bs.length + value bs := by
  induction bs using List.reverseRecOn with
  | nil => simp
  | append_singleton bs b ih =>
      have hexp : toNat v * 256 ^ (bs ++ [b]).length + value (bs ++ [b]) =
          (toNat v * 256 ^ bs.length + value bs) * 256 + b.toNat := by
        rw [List.length_append, List.length_singleton, value_concat]
        ring
      rw [hexp] at h ⊢
      have hbs := ih (by omega)
      rw [List.foldl_append, List.foldl_cons, List.foldl_nil, hstep _ _ (by rw [hbs]; exact h),
        hbs]

theorem u64_step (v : UInt64) (b : UInt8) (h : v.toNat * 256 + b.toNat < 2 ^ 64) :
    (v <<< 8 ||| b.toUInt64).toNat = v.toNat * 256 + b.toNat := by
  have hb : b.toNat < 256 := b.toNat_lt
  have hshift : (v <<< 8).toNat = v.toNat <<< 8 := by
    rw [UInt64.toNat_shiftLeft, show (8 : UInt64).toNat % 64 = 8 from rfl]
    rw [Nat.shiftLeft_eq]
    exact Nat.mod_eq_of_lt ((Nat.le_add_right _ _).trans_lt h)
  rw [UInt64.toNat_or, hshift, UInt8.toNat_toUInt64, shiftLeft_or_byte _ _ hb]

theorem u32_step (v : UInt32) (b : UInt8) (h : v.toNat * 256 + b.toNat < 2 ^ 32) :
    (v <<< 8 ||| b.toUInt32).toNat = v.toNat * 256 + b.toNat := by
  have hb : b.toNat < 256 := b.toNat_lt
  have hshift : (v <<< 8).toNat = v.toNat <<< 8 := by
    rw [UInt32.toNat_shiftLeft, show (8 : UInt32).toNat % 32 = 8 from rfl]
    rw [Nat.shiftLeft_eq]
    exact Nat.mod_eq_of_lt ((Nat.le_add_right _ _).trans_lt h)
  rw [UInt32.toNat_or, hshift, UInt8.toNat_toUInt32, shiftLeft_or_byte _ _ hb]

/-- The mask and the cast keep the same byte. -/
theorem u64_byte (v : UInt64) {s : ℕ} (h : s < 64) :
    ((v >>> UInt64.ofNat s) &&& 0xff).toUInt8 = UInt8.ofNat (v.toNat >>> s) := by
  apply UInt8.toNat_inj.mp
  rw [UInt64.toNat_toUInt8, UInt64.toNat_and, UInt64.toNat_shiftRight, UInt64.toNat_ofNat',
    UInt8.toNat_ofNat', Nat.mod_eq_of_lt (by omega : s < 2 ^ 64), Nat.mod_eq_of_lt h]
  exact (congrArg (· % 2 ^ 8) (Nat.and_two_pow_sub_one_eq_mod _ 8)).trans (Nat.mod_mod _ _)

theorem u32_byte (v : UInt32) {s : ℕ} (h : s < 32) :
    ((v >>> UInt32.ofNat s) &&& 0xff).toUInt8 = UInt8.ofNat (v.toNat >>> s) := by
  apply UInt8.toNat_inj.mp
  rw [UInt32.toNat_toUInt8, UInt32.toNat_and, UInt32.toNat_shiftRight, UInt32.toNat_ofNat',
    UInt8.toNat_ofNat', Nat.mod_eq_of_lt (by omega : s < 2 ^ 32), Nat.mod_eq_of_lt h]
  exact (congrArg (· % 2 ^ 8) (Nat.and_two_pow_sub_one_eq_mod _ 8)).trans (Nat.mod_mod _ _)

end Words

end SimpleRedis.BigEndian
