import Mathlib.Data.Nat.Bitwise
import QuadSphere.Proofs.Range

/-!
# The tree of cells

A parent has the number `q / 4` among the ranges of four times the length, and the children have the
numbers `4 * q + i`.  So the ranges of the children are the quarters of that of the cell.

* `At.parent`, `At.child`, `At.child_bounds`: where parents and children lie.
* `isValid_iff`: which words are cells.
* `hasLeaf_iff_exists_child`: a cell has the leaves of its children.
* `covers_or_eq_child`: nothing lies between a cell and its children.
* `covers_of_isLeaf`: nothing lies below a leaf.
* `At.next`: the cells of one size lie side by side.
-/

namespace QuadSphere.Cell

variable {c d p : Cell} {k q i : Nat}

theorem At.toNat_shiftLeft_marker (h : c.At k q) {n : Nat} (hn : k + n < 64) :
    (c.marker <<< UInt64.ofNat n).toNat = 2 ^ (k + n) := by
  have hlt : 2 ^ (k + n) < 2 ^ 64 := Nat.pow_lt_pow_right (by omega) hn
  rw [UInt64.toNat_shiftLeft, h.marker_eq, UInt64.toNat_ofNat_of_lt' (by
    rw [UInt64.size]; omega), Nat.mod_eq_of_lt (by omega : n < 64), Nat.shiftLeft_eq,
    ← Nat.pow_add, Nat.mod_eq_of_lt hlt]

theorem At.parent (h : c.At k q) (hk : k + 2 < 64) : c.parent.At (k + 2) (q / 4) := by
  have hcut := Word.toNat_cutAt (w := c.word) (h.toNat_shiftLeft_marker hk)
  have hq : c.word.toNat / 2 ^ (k + 2 + 1) = q / 4 := by
    rw [h, show k + 2 + 1 = k + 3 by omega, Nat.pow_add, Nat.mul_comm (2 ^ k),
      Nat.mul_div_mul_right _ _ (Nat.two_pow_pos k)]
    omega
  rw [hq] at hcut
  exact hcut

/-- The sum by which a child is found, which may pass through zero. -/
theorem add_odd_mul_quarter (Q I H : UInt64) :
    (2 * Q + 1) * 4 * H + (2 * I + 1 - 4) * H = (2 * (4 * Q + I) + 1) * H := by
  grind

theorem At.child (h : c.At (k + 2) q) (hi : i < 4) : (c.child i).At k (4 * q + i) := by
  have hk := h.lt
  have hpow : 2 ^ (k + 2) = 4 * 2 ^ k := by ring
  have hsmall : 2 ^ k < UInt64.size := Nat.pow_lt_pow_right Nat.one_lt_two (show k < 64 by omega)
  have hquarter : c.marker >>> 2 = UInt64.ofNat (2 ^ k) := by
    rw [← UInt64.toNat_inj, UInt64.toNat_shiftRight, h.marker_eq, UInt64.toNat_ofNat_of_lt' hsmall,
      hpow, show (2 : UInt64).toNat % 64 = 2 from rfl, Nat.shiftRight_eq_div_pow]
    omega
  have hword : c.word = (2 * UInt64.ofNat q + 1) * 4 * UInt64.ofNat (2 ^ k) := by
    rw [← UInt64.ofNat_toNat (x := c.word), h, hpow, ← Nat.mul_assoc, UInt64.ofNat_mul,
      UInt64.ofNat_mul, UInt64.ofNat_add, UInt64.ofNat_mul]
    rfl
  have hchild : (c.child i).word = UInt64.ofNat ((2 * (4 * q + i) + 1) * 2 ^ k) := by
    rw [Cell.child, hquarter, hword, add_odd_mul_quarter]
    simp only [UInt64.ofNat_mul, UInt64.ofNat_add]
    rfl
  have hlt : (2 * (4 * q + i) + 1) * 2 ^ k < UInt64.size := by
    calc (2 * (4 * q + i) + 1) * 2 ^ k < (2 * (4 * q + 4)) * 2 ^ k :=
          Nat.mul_lt_mul_of_pos_right (by omega) (Nat.two_pow_pos k)
      _ = c.stop := by rw [h.stop_eq]; ring
      _ ≤ 2 ^ 64 := h.stop_le
  rw [At, hchild, UInt64.toNat_ofNat_of_lt' hlt]

/-- The ranges of the four children make up that of the cell. -/
theorem At.child_bounds (h : c.At (k + 2) q) (hi : i < 4) :
    (c.child i).start = c.start + i * (2 * 2 ^ k) ∧
      (c.child i).stop = c.start + (i + 1) * (2 * 2 ^ k) ∧ c.stop = c.start + 4 * (2 * 2 ^ k) := by
  rw [(h.child hi).start_eq, (h.child hi).stop_eq, h.start_eq, h.stop_eq]
  refine ⟨?_, ?_, ?_⟩ <;> ring

/-! ## Cells among the words -/

theorem At.face_lt_iff (h : c.At k q) (hk : k ≤ 60) :
    c.face < faceCount ↔ c.stop ≤ 6 * 2 ^ 61 := by
  have hface : c.face = c.word.toNat / 2 ^ 61 := by
    rw [Cell.face, UInt64.toNat_shiftRight, Nat.shiftRight_eq_div_pow]
    rfl
  have hsplit : 6 * 2 ^ 61 = 6 * 2 ^ (60 - k) * (2 * 2 ^ k) := by
    rw [show 61 = 60 - k + 1 + k by omega, Nat.pow_add, Nat.pow_succ]
    ring
  have hstop : c.stop = (q + 1) * (2 * 2 ^ k) := by rw [h.stop_eq]; ring
  have hpos := Nat.two_pow_pos k
  rw [hface, faceCount, Nat.div_lt_iff_lt_mul (Nat.two_pow_pos 61), hsplit, hstop, h]
  constructor
  · intro hlt
    rw [show 6 * 2 ^ (60 - k) * (2 * 2 ^ k) = 12 * 2 ^ (60 - k) * 2 ^ k by ring] at hlt
    have := Nat.lt_of_mul_lt_mul_right hlt
    exact Nat.mul_le_mul_right _ (by omega)
  · intro hle
    have := Nat.le_of_mul_le_mul_right hle (by omega)
    calc (2 * q + 1) * 2 ^ k < (2 * q + 2) * 2 ^ k := Nat.mul_lt_mul_of_pos_right (by omega) hpos
      _ = (q + 1) * (2 * 2 ^ k) := by ring
      _ ≤ _ := hle

theorem At.marker_and_ne_zero_iff (h : c.At k q) :
    (c.marker &&& 0x1555555555555555 != 0) = true ↔ k % 2 = 0 ∧ k ≤ 60 := by
  have hk := h.lt
  have hand : (c.marker &&& 0x1555555555555555).toNat =
      2 ^ k * (Nat.testBit 0x1555555555555555 k).toNat := by
    rw [UInt64.toNat_and, h.marker_eq, Nat.two_pow_and]
    rfl
  rw [bne_iff_ne, Ne, ← UInt64.toNat_inj, hand]
  clear hand h
  revert k
  decide

/-- The cells are the odd multiples of the powers of four up to the size of a face, on six
faces. -/
theorem isValid_iff :
    c.isValid = true ↔ ∃ m q, m ≤ 30 ∧ c.At (2 * m) q ∧ c.stop ≤ 6 * 2 ^ 61 := by
  constructor
  · intro h
    have hne : c ≠ null := by
      rintro rfl
      exact absurd h (by decide)
    obtain ⟨k, q, hc⟩ := exists_at hne
    rw [isValid, Bool.and_eq_true, decide_eq_true_eq, hc.marker_and_ne_zero_iff] at h
    obtain ⟨hface, heven, hk⟩ := h
    obtain ⟨m, rfl⟩ : ∃ m, k = 2 * m := ⟨k / 2, by omega⟩
    exact ⟨m, q, by omega, hc, (hc.face_lt_iff hk).mp hface⟩
  · rintro ⟨m, q, hm, hc, hstop⟩
    rw [isValid, Bool.and_eq_true, decide_eq_true_eq, hc.marker_and_ne_zero_iff,
      hc.face_lt_iff (by omega)]
    exact ⟨hstop, by omega, by omega⟩

theorem ne_null_of_isValid (h : c.isValid = true) : c ≠ null := by
  obtain ⟨m, q, _, hc, _⟩ := isValid_iff.mp h
  exact hc.ne_null

theorem exists_at_of_not_isLeaf (h : c.isValid = true) (hl : ¬c.isLeaf = true) :
    ∃ m q, m < 30 ∧ c.At (2 * m + 2) q ∧ c.stop ≤ 6 * 2 ^ 61 := by
  obtain ⟨m, q, hm, hc, hstop⟩ := isValid_iff.mp h
  rw [hc.isLeaf_iff] at hl
  obtain ⟨m, rfl⟩ : ∃ n, m = n + 1 := ⟨m - 1, by omega⟩
  exact ⟨m, q, by omega, hc, hstop⟩

theorem At.cutsLeft_eq {m : Nat} (h : c.At (2 * m) q) : c.cutsLeft = m := by
  rw [cutsLeft, h.trailingZeros_eq]
  omega

theorem isLeaf_iff_cutsLeft (h : c.isValid = true) : c.isLeaf = true ↔ c.cutsLeft = 0 := by
  obtain ⟨m, q, _, hat, _⟩ := isValid_iff.mp h
  rw [hat.isLeaf_iff, hat.cutsLeft_eq]
  omega

/-! ## Parents and children -/

section Children

variable (hc : c.isValid = true) (hl : ¬c.isLeaf = true)
include hc hl

theorem isValid_child (hi : i < 4) : (c.child i).isValid = true := by
  obtain ⟨m, q, hm, hat, hstop⟩ := exists_at_of_not_isLeaf hc hl
  obtain ⟨_, hci, hcs⟩ := hat.child_bounds hi
  have : (i + 1) * (2 * 2 ^ (2 * m)) ≤ 4 * (2 * 2 ^ (2 * m)) := Nat.mul_le_mul_right _ hi
  exact isValid_iff.mpr ⟨m, 4 * q + i, by omega, hat.child hi, by omega⟩

theorem cutsLeft_child (hi : i < 4) : (c.child i).cutsLeft + 1 = c.cutsLeft := by
  obtain ⟨m, q, hm, hat, hstop⟩ := exists_at_of_not_isLeaf hc hl
  rw [(hat.child hi).cutsLeft_eq, At.cutsLeft_eq (m := m + 1) hat]

theorem parent_child (hi : i < 4) : (c.child i).parent = c := by
  obtain ⟨m, q, hm, hat, _⟩ := exists_at_of_not_isLeaf hc hl
  have hpar := (hat.child hi).parent (by omega)
  rw [show (4 * q + i) / 4 = q by omega] at hpar
  exact hpar.eq hat

theorem covers_child (hi : i < 4) : c.Covers (c.child i) := by
  obtain ⟨m, q, hm, hat, hstop⟩ := exists_at_of_not_isLeaf hc hl
  obtain ⟨hcf, hci, hcs⟩ := hat.child_bounds hi
  have : (i + 1) * (2 * 2 ^ (2 * m)) ≤ 4 * (2 * 2 ^ (2 * m)) := Nat.mul_le_mul_right _ hi
  exact ⟨by omega, by omega⟩

theorem hasLeaf_iff_exists_child (x : UInt64) :
    c.HasLeaf x ↔ ∃ i < 4, (c.child i).HasLeaf x := by
  constructor
  · intro hx
    obtain ⟨m, q, hm, hat, hstop⟩ := exists_at_of_not_isLeaf hc hl
    rw [hasLeaf_iff (ne_null_of_isValid hc)] at hx
    obtain ⟨i, hi, hlo, hhi⟩ : ∃ i < 4, c.start + i * (2 * 2 ^ (2 * m)) ≤ x.toNat ∧
        x.toNat < c.start + (i + 1) * (2 * 2 ^ (2 * m)) := by
      have hquarters := (hat.child_bounds (i := 0) (by omega)).2.2
      generalize 2 * 2 ^ (2 * m) = s at hquarters ⊢
      rcases Nat.lt_or_ge x.toNat (c.start + s) with h1 | h1
      · exact ⟨0, by omega, by omega, by omega⟩
      rcases Nat.lt_or_ge x.toNat (c.start + 2 * s) with h2 | h2
      · exact ⟨1, by omega, by omega, by omega⟩
      rcases Nat.lt_or_ge x.toNat (c.start + 3 * s) with h3 | h3
      · exact ⟨2, by omega, by omega, by omega⟩
      · exact ⟨3, by omega, by omega, by omega⟩
    refine ⟨i, hi, ?_⟩
    obtain ⟨hcf, hci, hcs⟩ := hat.child_bounds hi
    have := range_bounds (ne_null_of_isValid (isValid_child hc hl hi))
    rw [hasLeaf_iff (ne_null_of_isValid (isValid_child hc hl hi))]
    omega
  · rintro ⟨i, hi, hx⟩
    exact (covers_iff (ne_null_of_isValid hc) (ne_null_of_isValid (isValid_child hc hl hi))).mp
      (covers_child hc hl hi) x hx

theorem covers_or_eq_child (hd : d.isValid = true) (hi : i < 4) (h : d.Covers (c.child i)) :
    d.Covers c ∨ d = c.child i := by
  have hc0 := ne_null_of_isValid hc
  have hd0 := ne_null_of_isValid hd
  have hi0 := ne_null_of_isValid (isValid_child hc hl hi)
  obtain ⟨m, q, hm, hat, _⟩ := exists_at_of_not_isLeaf hc hl
  obtain ⟨n, r, hn, hdat, _⟩ := isValid_iff.mp hd
  obtain hdc | hcd := covers_or_covers hd0 hc0
    ((covers_iff hd0 hi0).mp h _ (hasLeaf_firstLeaf hi0))
    ((covers_iff hc0 hi0).mp (covers_child hc hl hi) _ (hasLeaf_firstLeaf hi0))
  · exact Or.inl hdc
  · rcases Nat.lt_or_ge m n with hmn | hmn
    · left
      rw [hcd.eq_of_marker_le hc0 hd0]
      · exact Covers.refl d
      · rw [hat.marker_eq, hdat.marker_eq]
        exact Nat.pow_le_pow_right (by omega) (by omega)
    · right
      apply h.eq_of_marker_le hd0 hi0
      rw [hdat.marker_eq, (hat.child hi).marker_eq]
      exact Nat.pow_le_pow_right (by omega) (by omega)

theorem not_covers_of_child (hi : i < 4) : ¬(c.child i).Covers c := by
  intro h
  have hcut := cutsLeft_child hc hl hi
  rw [h.antisymm (ne_null_of_isValid (isValid_child hc hl hi)) (ne_null_of_isValid hc)
    (covers_child hc hl hi)] at hcut
  omega

end Children

/-- Nothing lies below a leaf but the leaf itself. -/
theorem covers_of_isLeaf (hc : c.isValid = true) (hl : c.isLeaf = true) (hd : d ≠ null)
    {x : UInt64} (hx : c.HasLeaf x) (hx' : d.HasLeaf x) : d.Covers c := by
  have hc0 := ne_null_of_isValid hc
  obtain ⟨m, q, _, hat, _⟩ := isValid_iff.mp hc
  obtain rfl : m = 0 := by
    have := hat.isLeaf_iff.mp hl
    omega
  rcases covers_or_covers hc0 hd hx hx' with h | h
  · rw [h.eq_of_marker_le hc0 hd (by rw [hat.marker_eq]; exact toNat_marker_pos hd)]
    exact Covers.refl d
  · exact h

/-! ## Steps along the curve -/

theorem At.next_of_lt (hat : c.At k q) (h : c.word.toNat + 2 * 2 ^ k < 2 ^ 64) :
    c.next.At k (q + 1) := by
  have hpow : 2 ^ (k + 1) < 2 ^ 64 := by rw [Nat.pow_succ]; omega
  have hmarker := hat.toNat_shiftLeft_marker (n := 1)
    ((Nat.pow_lt_pow_iff_right (by omega)).mp hpow)
  rw [Nat.pow_succ] at hmarker
  rw [At, Cell.next, UInt64.toNat_add, show (c.marker <<< 1).toNat = 2 ^ k * 2 from hmarker,
    Nat.mod_eq_of_lt (by omega), hat.word_eq]
  ring

theorem At.next {m : Nat} (hat : c.At (2 * m) q) (hc : c.isValid = true) :
    c.next.At (2 * m) (q + 1) := by
  obtain ⟨n, r, hn, hat', hstop⟩ := isValid_iff.mp hc
  have hword := hat.word_eq
  have hle := hat.stop_eq
  have hpow : 2 ^ (2 * m) ≤ 2 ^ 60 := by
    have := (hat.unique hat').1
    exact Nat.pow_le_pow_right (by omega) (by omega)
  exact hat.next_of_lt (by omega)

end QuadSphere.Cell
