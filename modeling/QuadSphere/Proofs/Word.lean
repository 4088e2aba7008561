import Mathlib.Data.Nat.Factorization.Basic
import Mathlib.Tactic.IntervalCases
import Mathlib.Tactic.Ring
import QuadSphere.Cell.Basic

/-!
# Bits of a word

A number other than zero is an odd multiple `2 * q + 1` of a power `2 ^ k`: its lowest set bit is in
place `k`, and the bits of `q` follow.  The operations on words that find the marker, the parent and
the siblings of a cell are read off from this.

* `toNat_and_zero_sub`: the lowest bit of a word that is set.
* `toNat_cutAt`: the parent of a cell, or its ancestor at a level.
* `toNat_and_not_sub_one`: a coordinate rounded down to a multiple of a side.
* `and_not_eq_iff`, `xor_children`: the two tests for siblings.
-/

namespace QuadSphere.Word

/-! ## Odd multiples of powers -/

theorem testBit_odd_mul (q k i : Nat) :
    ((2 * q + 1) * 2 ^ k).testBit i =
      (decide (i = k) || decide (k < i) && q.testBit (i - k - 1)) := by
  rw [Nat.testBit_mul_two_pow]
  rcases Nat.lt_trichotomy i k with h | h | h
  · simp [show ¬k ≤ i by omega, show i ≠ k by omega, show ¬k < i by omega]
  · subst h; simp
  · obtain ⟨j, rfl⟩ : ∃ j, i = k + j + 1 := ⟨i - k - 1, by omega⟩
    rw [show k + j + 1 - k = j + 1 by omega, Nat.testBit_add_one, show (2 * q + 1) / 2 = q by omega]
    simp [show k ≤ k + j + 1 by omega, show k < k + j + 1 by omega, show k + j + 1 ≠ k by omega]

theorem exists_eq_odd_mul {w : Nat} (h : w ≠ 0) : ∃ k q, w = (2 * q + 1) * 2 ^ k := by
  obtain ⟨k, m, ⟨q, rfl⟩, rfl⟩ := Nat.exists_eq_two_pow_mul_odd h
  exact ⟨k, q, Nat.mul_comm _ _⟩

theorem lt_of_odd_mul_lt {q k : Nat} (h : (2 * q + 1) * 2 ^ k < 2 ^ 64) : k < 64 := by
  by_contra hk
  have : 2 ^ 64 ≤ 2 ^ k := Nat.pow_le_pow_right (by omega) (by omega)
  have : 2 ^ k ≤ (2 * q + 1) * 2 ^ k := Nat.le_mul_of_pos_left _ (by omega)
  omega

theorem two_pow_width {k : Nat} (hk : k < 64) : 2 ^ 64 = 2 * 2 ^ (63 - k) * 2 ^ k := by
  rw [← Nat.pow_succ', ← Nat.pow_add, show 63 - k + 1 + k = 64 by omega]

theorem succ_le_of_odd_mul_lt {q k : Nat} (h : (2 * q + 1) * 2 ^ k < 2 ^ 64) :
    q + 1 ≤ 2 ^ (63 - k) := by
  rw [two_pow_width (lt_of_odd_mul_lt h)] at h
  have := Nat.lt_of_mul_lt_mul_right h
  omega

theorem mod_two_eq_one_iff {x : UInt64} : x % 2 = 1 ↔ x.toNat % 2 = 1 := by
  rw [← UInt64.toNat_inj, UInt64.toNat_mod]
  rfl

/-! ## Markers -/

theorem toNat_zero_sub {w : UInt64} (h : w ≠ 0) : (0 - w).toNat = 2 ^ 64 - w.toNat := by
  have h0 : w.toNat ≠ 0 := fun h0 => h (UInt64.toNat_inj.mp h0)
  have := w.toNat_lt
  rw [UInt64.toNat_sub, UInt64.toNat_zero]
  omega

theorem ne_zero_of_odd_mul {w : UInt64} {k q : Nat} (h : w.toNat = (2 * q + 1) * 2 ^ k) :
    w ≠ 0 := by
  rintro rfl
  have : 0 < (2 * q + 1) * 2 ^ k := Nat.mul_pos (by omega) (Nat.two_pow_pos k)
  simp at h

theorem toNat_and_zero_sub {w : UInt64} {k q : Nat} (h : w.toNat = (2 * q + 1) * 2 ^ k) :
    (w &&& (0 - w)).toNat = 2 ^ k := by
  have hlt : (2 * q + 1) * 2 ^ k < 2 ^ 64 := h ▸ w.toNat_lt
  have hq := succ_le_of_odd_mul_lt hlt
  have hneg : (0 - w).toNat = (2 * (2 ^ (63 - k) - (q + 1)) + 1) * 2 ^ k := by
    rw [toNat_zero_sub (ne_zero_of_odd_mul h), h, two_pow_width (lt_of_odd_mul_lt hlt),
      ← Nat.sub_mul]
    congr 1
    omega
  rw [UInt64.toNat_and, h, hneg]
  apply Nat.eq_of_testBit_eq
  intro i
  rw [Nat.testBit_and, testBit_odd_mul, testBit_odd_mul,
    Nat.testBit_two_pow_sub_succ (by omega), Nat.testBit_two_pow]
  by_cases hi : i = k
  · simp [hi]
  · cases q.testBit (i - k - 1) <;> simp [hi, Ne.symm hi]

theorem testBit_and_zero_sub {w m : UInt64} {k : Nat} (hm : m.toNat = 2 ^ k) (i : Nat) :
    (w &&& (0 - m)).toNat.testBit i = (decide (k ≤ i) && w.toNat.testBit i) := by
  have hlt : 2 ^ k < 2 ^ 64 := hm ▸ m.toNat_lt
  have hk : k < 64 := (Nat.pow_lt_pow_iff_right (by omega)).mp hlt
  have hneg : (0 - m).toNat = (2 ^ (64 - k) - 1) * 2 ^ k := by
    rw [toNat_zero_sub (ne_zero_of_odd_mul (k := k) (q := 0) (by omega)), hm, Nat.sub_mul,
      ← Nat.pow_add, show 64 - k + k = 64 by omega, Nat.one_mul]
  rw [UInt64.toNat_and, hneg, Nat.testBit_and, Nat.testBit_mul_two_pow,
    Nat.testBit_two_pow_sub_one]
  by_cases hi : i < 64
  · by_cases hki : k ≤ i
    · simp [hki, show i - k < 64 - k by omega]
    · simp [hki]
  · have hbit : w.toNat.testBit i = false := Nat.testBit_lt_two_pow
      (lt_of_lt_of_le w.toNat_lt (Nat.pow_le_pow_right (by omega) (by omega)))
    simp [hbit]

/-- A word cut at a marker has the bits above the marker, and the marker. -/
theorem toNat_cutAt {w m : UInt64} {k : Nat} (hm : m.toNat = 2 ^ k) :
    (Cell.cutAt w m).word.toNat = (2 * (w.toNat / 2 ^ (k + 1)) + 1) * 2 ^ k := by
  apply Nat.eq_of_testBit_eq
  intro i
  rw [testBit_odd_mul, Nat.testBit_div_two_pow, Cell.cutAt, UInt64.toNat_or, Nat.testBit_or,
    testBit_and_zero_sub hm, hm, Nat.testBit_two_pow]
  rcases Nat.lt_trichotomy i k with h | h | h
  · simp [show ¬k ≤ i by omega, show i ≠ k by omega, show ¬k < i by omega, show k ≠ i by omega]
  · simp [h]
  · simp [show k ≤ i by omega, show i ≠ k by omega, h, show k ≠ i by omega,
      show i - k - 1 + (k + 1) = i by omega]

/-! ## Rounding down -/

/-- Clearing the bits below a power of two rounds down to a multiple of it. -/
theorem toNat_and_not_sub_one {x m : UInt32} {k : Nat} (hm : m.toNat = 2 ^ k) :
    (x &&& ~~~(m - 1)).toNat = x.toNat / 2 ^ k * 2 ^ k := by
  have hpos := Nat.two_pow_pos k
  have hone : (m - 1).toNat = 2 ^ k - 1 := by
    rw [UInt32.toNat_sub_of_le _ _ (UInt32.le_iff_toNat_le.mpr (by rw [hm]; exact hpos)), hm]
    rfl
  have hlow : 2 ^ k - 1 < 2 ^ 32 := hone ▸ (m - 1).toNat_lt
  have hnot : (~~~(m - 1)).toNat = 2 ^ 32 - (2 ^ k - 1 + 1) := by
    rw [UInt32.toNat_not, hone, UInt32.size]
    omega
  rw [UInt32.toNat_and, hnot]
  apply Nat.eq_of_testBit_eq
  intro i
  rw [Nat.testBit_and, Nat.testBit_two_pow_sub_succ hlow, Nat.testBit_two_pow_sub_one,
    Nat.testBit_mul_two_pow, Nat.testBit_div_two_pow]
  by_cases hi : k ≤ i
  · by_cases hw : i < 32
    · simp [hi, hw, show ¬i < k by omega]
    · have hx : x.toNat.testBit i = false := Nat.testBit_lt_two_pow
        (Nat.lt_of_lt_of_le x.toNat_lt (Nat.pow_le_pow_right (by omega) (by omega)))
      simp [hi, hx]
  · simp [hi, show i < k by omega]

/-! ## Siblings -/

theorem testBit_and_not {x m : UInt64} {k : Nat} (hm : m.toNat = 6 * 2 ^ k) (i : Nat) :
    (x &&& ~~~m).toNat.testBit i =
      (x.toNat.testBit i && !(decide (i = k + 1) || decide (i = k + 2))) := by
  have hnot : (~~~m).toNat = 2 ^ 64 - (m.toNat + 1) := by
    rw [UInt64.toNat_not, UInt64.size]
    omega
  have hbit : m.toNat.testBit i = (decide (i = k + 1) || decide (i = k + 2)) := by
    have h6 : 6 * 2 ^ k = (2 * 2 ^ 0 + 1) * 2 ^ (k + 1) := by ring
    rw [hm, h6, testBit_odd_mul, Nat.testBit_two_pow]
    by_cases h1 : i = k + 1
    · simp [h1]
    · by_cases h2 : i = k + 2
      · simp [h2]
      · simp [h1, h2]; omega
  rw [UInt64.toNat_and, Nat.testBit_and, hnot, Nat.testBit_two_pow_sub_succ m.toNat_lt, hbit]
  by_cases hi : i < 64
  · simp [hi]
  · have hx : x.toNat.testBit i = false := Nat.testBit_lt_two_pow
      (lt_of_lt_of_le x.toNat_lt (Nat.pow_le_pow_right (by omega) (by omega)))
    simp [hx]

/-- Two words agree beside the bits in places `k + 1` and `k + 2`. -/
theorem and_not_eq_iff {a d m : UInt64} {k : Nat} (hm : m.toNat = 6 * 2 ^ k) :
    a &&& ~~~m = d &&& ~~~m ↔
      a.toNat % 2 ^ (k + 1) = d.toNat % 2 ^ (k + 1) ∧
        a.toNat / 2 ^ (k + 3) = d.toNat / 2 ^ (k + 3) := by
  rw [← UInt64.toNat_inj]
  constructor
  · intro h
    have hbit : ∀ i, i ≠ k + 1 → i ≠ k + 2 → a.toNat.testBit i = d.toNat.testBit i := by
      intro i h1 h2
      have hi := congrArg (·.testBit i) h
      simp only [testBit_and_not hm, h1, h2, decide_false, Bool.or_self, Bool.not_false,
        Bool.and_true] at hi
      exact hi
    constructor
    · apply Nat.eq_of_testBit_eq
      intro i
      rw [Nat.testBit_mod_two_pow, Nat.testBit_mod_two_pow]
      by_cases hi : i < k + 1
      · rw [hbit i (by omega) (by omega)]
      · simp [hi]
    · apply Nat.eq_of_testBit_eq
      intro i
      rw [Nat.testBit_div_two_pow, Nat.testBit_div_two_pow, hbit _ (by omega) (by omega)]
  · rintro ⟨hlow, hhigh⟩
    apply Nat.eq_of_testBit_eq
    intro i
    rw [testBit_and_not hm, testBit_and_not hm]
    rcases Nat.lt_or_ge i (k + 1) with hi | hi
    · have := congrArg (·.testBit i) hlow
      simp only [Nat.testBit_mod_two_pow, hi, decide_true, Bool.true_and] at this
      rw [this]
    · rcases Nat.lt_or_ge i (k + 3) with hi' | hi'
      · have : i = k + 1 ∨ i = k + 2 := by omega
        rcases this with h | h <;> simp [h]
      · have := congrArg (·.testBit (i - (k + 3))) hhigh
        simp only [Nat.testBit_div_two_pow, show i - (k + 3) + (k + 3) = i by omega] at this
        rw [this]

/-- The four values of the two bits above a marker cancel each other out. -/
theorem xor_children (r k : Nat) :
    (8 * r + 1) * 2 ^ k ^^^ (8 * r + 3) * 2 ^ k ^^^ (8 * r + 5) * 2 ^ k = (8 * r + 7) * 2 ^ k := by
  have hsplit : ∀ b < 8, ∀ i, (8 * r + b).testBit i =
      if i < 3 then b.testBit i else r.testBit (i - 3) := by
    intro b hb i
    exact Nat.testBit_two_pow_mul_add r (i := 3) hb i
  have hodd : (8 * r + 1) ^^^ (8 * r + 3) ^^^ (8 * r + 5) = 8 * r + 7 := by
    apply Nat.eq_of_testBit_eq
    intro i
    rw [Nat.testBit_xor, Nat.testBit_xor, hsplit 1 (by omega), hsplit 3 (by omega),
      hsplit 5 (by omega), hsplit 7 (by omega)]
    by_cases hi : i < 3
    · rw [if_pos hi, if_pos hi, if_pos hi, if_pos hi]
      interval_cases i <;> rfl
    · simp [hi]
  simp only [← Nat.shiftLeft_eq, ← Nat.shiftLeft_xor_distrib, hodd]

end QuadSphere.Word
