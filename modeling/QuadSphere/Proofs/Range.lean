import QuadSphere.Cell.Leaves
import QuadSphere.Cell.Outcome
import QuadSphere.Proofs.Word

/-!
# Ranges of leaves

A word other than zero is an odd multiple `2 * q + 1` of a power `2 ^ k`, which `Cell.At` says, and
its marker is that power.  So the range of leaves below it goes from `start`, the even multiple
before it, to `stop`, the one behind it.  Two such ranges are equal, one of them lies in one half of
the other, or they lie apart (`nested_or_apart`), whether the words are cells or not.  All that
`contains` and the order of the words say about two cells follows from this.

* `contains_iff`, `covers_iff`: a cell contains another one if it has all its leaves.
* `lastLeaf_lt_firstLeaf_iff`, `Before.apart`: a range that ends before another one begins.
* `meets_iff`, `covers_or_covers`: two cells with a common leaf are nested.
-/

namespace QuadSphere.Cell

/-! ## Words as multiples of powers -/

/-- The word of the cell is the odd multiple `2 * q + 1` of `2 ^ k`: the leaves below the cell are
the run of `2 ^ k` leaves with the number `q`. -/
def At (c : Cell) (k q : Nat) : Prop :=
  c.word.toNat = (2 * q + 1) * 2 ^ k

/-- The leaves below a cell are the odd numbers from `start` to `stop`. -/
def start (c : Cell) : Nat :=
  c.word.toNat - c.marker.toNat

def stop (c : Cell) : Nat :=
  c.word.toNat + c.marker.toNat

theorem ext_toNat {c d : Cell} (h : c.word.toNat = d.word.toNat) : c = d := by
  cases c; cases d
  exact congrArg Cell.mk (UInt64.toNat_inj.mp h)

theorem exists_at {c : Cell} (h : c ≠ null) : ∃ k q, c.At k q := by
  apply Word.exists_eq_odd_mul
  intro h0
  exact h (ext_toNat h0)

section At

variable {c d : Cell} {k q j r : Nat}

theorem At.ne_null (h : c.At k q) : c ≠ null := by
  rintro rfl
  exact Word.ne_zero_of_odd_mul h rfl

theorem At.lt (h : c.At k q) : k < 64 :=
  Word.lt_of_odd_mul_lt (h ▸ c.word.toNat_lt)

theorem At.marker_eq (h : c.At k q) : c.marker.toNat = 2 ^ k :=
  Word.toNat_and_zero_sub h

theorem At.start_eq (h : c.At k q) : c.start = 2 * (q * 2 ^ k) := by
  rw [start, h.marker_eq, h]
  rw [Nat.add_mul, Nat.one_mul, Nat.add_sub_cancel, Nat.mul_assoc]

theorem At.stop_eq (h : c.At k q) : c.stop = 2 * (q * 2 ^ k) + 2 * 2 ^ k := by
  rw [stop, h.marker_eq, h]
  ring

theorem At.word_eq (h : c.At k q) : c.word.toNat = 2 * (q * 2 ^ k) + 2 ^ k := by
  rw [h]
  ring

theorem At.eq (hc : c.At k q) (hd : d.At k q) : c = d :=
  ext_toNat (hc.trans hd.symm)

theorem At.unique (h : c.At k q) (h' : c.At j r) : k = j ∧ q = r := by
  have hp : 2 ^ k = 2 ^ j := h.marker_eq.symm.trans h'.marker_eq
  obtain rfl : k = j := Nat.pow_right_injective (Nat.le_refl 2) hp
  have hm := Nat.eq_of_mul_eq_mul_right (Nat.two_pow_pos k) (h.symm.trans h')
  exact ⟨rfl, by omega⟩

theorem At.trailingZeros_eq (h : c.At k q) : c.trailingZeros = k := by
  rw [trailingZeros, if_neg (word_ne_zero h.ne_null), h.marker_eq, Nat.log2_two_pow]

theorem At.stop_le (h : c.At k q) : c.stop ≤ 2 ^ 64 := by
  have hlt : (2 * q + 1) * 2 ^ k < 2 ^ 64 := h ▸ c.word.toNat_lt
  have hq := Word.succ_le_of_odd_mul_lt hlt
  calc c.stop = 2 * (q + 1) * 2 ^ k := by rw [h.stop_eq]; ring
    _ ≤ 2 * 2 ^ (63 - k) * 2 ^ k := Nat.mul_le_mul_right _ (by omega)
    _ = 2 ^ 64 := (Word.two_pow_width h.lt).symm

theorem At.isLeaf_iff (h : c.At k q) : c.isLeaf = true ↔ k = 0 := by
  have hbit := Word.testBit_odd_mul q k 0
  rw [← h] at hbit
  have hw : (c.word &&& 1).toNat = c.word.toNat % 2 := by
    rw [UInt64.toNat_and]
    exact Nat.and_one_is_mod _
  rw [isLeaf, bne_iff_ne, Ne, ← UInt64.toNat_inj, hw]
  rw [Nat.testBit_zero] at hbit
  by_cases hk : k = 0
  · subst hk; simp at hbit ⊢; omega
  · simp [hk, Ne.symm hk] at hbit ⊢; omega

theorem At.isFace_iff (h : c.At k q) : c.isFace = true ↔ 60 ≤ k := by
  have hmask : (c.word &&& (markerAt 0 - 1)).toNat = c.word.toNat % 2 ^ 60 := by
    rw [UInt64.toNat_and, ← Nat.and_two_pow_sub_one_eq_mod]
    rfl
  rw [isFace, beq_iff_eq, ← UInt64.toNat_inj, hmask, h, UInt64.toNat_zero]
  constructor
  · intro hmod
    by_contra hk
    have hdvd : 2 ^ (k + 1) ∣ (2 * q + 1) * 2 ^ k := by
      exact Nat.dvd_trans (Nat.pow_dvd_pow 2 (by omega)) (Nat.dvd_of_mod_eq_zero hmod)
    rw [Nat.pow_succ', Nat.mul_dvd_mul_iff_right (Nat.two_pow_pos k)] at hdvd
    omega
  · intro hk
    apply Nat.mod_eq_zero_of_dvd
    exact Nat.dvd_trans (Nat.pow_dvd_pow 2 hk) (Nat.dvd_mul_left _ _)

end At

theorem start_add_marker {c : Cell} (h : c ≠ null) :
    c.start + c.marker.toNat = c.word.toNat := by
  obtain ⟨k, q, hc⟩ := exists_at h
  rw [hc.start_eq, hc.marker_eq, hc.word_eq]

theorem word_add_marker (c : Cell) : c.word.toNat + c.marker.toNat = c.stop := rfl

theorem toNat_marker_pos {c : Cell} (h : c ≠ null) : 0 < c.marker.toNat := by
  obtain ⟨k, q, hc⟩ := exists_at h
  rw [hc.marker_eq]
  exact Nat.two_pow_pos k

/-- Where the range of a cell lies: around its word, and between even numbers. -/
theorem range_bounds {c : Cell} (h : c ≠ null) :
    c.start < c.word.toNat ∧ c.word.toNat < c.stop ∧ c.start % 2 = 0 ∧ c.stop % 2 = 0 ∧
      c.stop ≤ 2 ^ 64 := by
  have hpos := toNat_marker_pos h
  have hsum := start_add_marker h
  have hstop := word_add_marker c
  obtain ⟨k, q, hc⟩ := exists_at h
  refine ⟨by omega, by omega, ?_, ?_, hc.stop_le⟩
  · rw [hc.start_eq]; omega
  · rw [hc.stop_eq]; omega

theorem toNat_marker_sub_one {c : Cell} (h : c ≠ null) :
    (c.marker - 1).toNat = c.marker.toNat - 1 :=
  UInt64.toNat_sub_of_le _ _ (UInt64.le_iff_toNat_le.mpr (toNat_marker_pos h))

theorem toNat_firstLeaf {c : Cell} (h : c ≠ null) : c.firstLeaf.word.toNat = c.start + 1 := by
  have hpos := toNat_marker_pos h
  have hsum := start_add_marker h
  have hone := toNat_marker_sub_one h
  rw [firstLeaf, UInt64.toNat_sub_of_le _ _ (UInt64.le_iff_toNat_le.mpr (by omega)), hone]
  omega

theorem toNat_lastLeaf {c : Cell} (h : c ≠ null) : c.lastLeaf.word.toNat + 1 = c.stop := by
  have hpos := toNat_marker_pos h
  have hb := range_bounds h
  have hstop := word_add_marker c
  rw [lastLeaf, UInt64.toNat_add, toNat_marker_sub_one h]
  omega

theorem lt_iff {c d : Cell} : c < d ↔ c.word.toNat < d.word.toNat :=
  UInt64.lt_iff_toNat_lt

theorem le_iff {c d : Cell} : c ≤ d ↔ c.word.toNat ≤ d.word.toNat :=
  UInt64.le_iff_toNat_le

theorem hasLeaf_iff {c : Cell} (h : c ≠ null) {x : UInt64} :
    c.HasLeaf x ↔ x.toNat % 2 = 1 ∧ c.start < x.toNat ∧ x.toNat < c.stop := by
  have hfirst := toNat_firstLeaf h
  have hlast := toNat_lastLeaf h
  rw [HasLeaf, Word.mod_two_eq_one_iff, UInt64.le_iff_toNat_le, UInt64.le_iff_toNat_le]
  omega

/-- The ranges of one size lie one behind the other. -/
theorem At.stop_le_start {c d : Cell} {k q r : Nat} (hc : c.At k q) (hd : d.At k r) (h : q < r) :
    c.stop ≤ d.start := by
  have := Nat.mul_le_mul_right (2 ^ k) (Nat.succ_le_of_lt h)
  rw [Nat.succ_mul] at this
  rw [hc.stop_eq, hd.start_eq]
  omega

/-- A coarser and a finer cell: the finer one lies in one half of the coarser one, or apart. -/
theorem At.nested_or_apart {c d : Cell} {k q j r : Nat} (hc : c.At k q) (hd : d.At j r)
    (h : j < k) :
    (c.start ≤ d.start ∧ d.stop ≤ c.word.toNat) ∨ (c.word.toNat ≤ d.start ∧ d.stop ≤ c.stop) ∨
      c.stop ≤ d.start ∨ d.stop ≤ c.start := by
  obtain ⟨t, rfl⟩ : ∃ t, k = j + t + 1 := ⟨k - j - 1, by omega⟩
  -- all the numbers are multiples of the length of the finer range
  have hcs : c.start = 2 * q * 2 ^ t * (2 * 2 ^ j) := by rw [hc.start_eq]; ring
  have hcw : c.word.toNat = (2 * q * 2 ^ t + 2 ^ t) * (2 * 2 ^ j) := by rw [hc.word_eq]; ring
  have hct : c.stop = (2 * q * 2 ^ t + 2 * 2 ^ t) * (2 * 2 ^ j) := by rw [hc.stop_eq]; ring
  have hds : d.start = r * (2 * 2 ^ j) := by rw [hd.start_eq]; ring
  have hdt : d.stop = (r + 1) * (2 * 2 ^ j) := by rw [hd.stop_eq]; ring
  have hmul : ∀ {a b : Nat}, a ≤ b → a * (2 * 2 ^ j) ≤ b * (2 * 2 ^ j) := fun hab =>
    Nat.mul_le_mul_right _ hab
  rw [hcs, hcw, hct, hds, hdt]
  rcases Nat.lt_or_ge r (2 * q * 2 ^ t) with h1 | h1
  · exact Or.inr (Or.inr (Or.inr (hmul h1)))
  rcases Nat.lt_or_ge r (2 * q * 2 ^ t + 2 ^ t) with h2 | h2
  · exact Or.inl ⟨hmul h1, hmul h2⟩
  rcases Nat.lt_or_ge r (2 * q * 2 ^ t + 2 * 2 ^ t) with h3 | h3
  · exact Or.inr (Or.inl ⟨hmul h2, hmul h3⟩)
  · exact Or.inr (Or.inr (Or.inl (hmul h3)))

/-- Two cells are equal, or one of them lies in one half of the other, or they lie apart. -/
theorem nested_or_apart {c d : Cell} (hc : c ≠ null) (hd : d ≠ null) :
    c = d ∨
      (c.start ≤ d.start ∧ d.stop ≤ c.word.toNat ∨ c.word.toNat ≤ d.start ∧ d.stop ≤ c.stop) ∨
      (d.start ≤ c.start ∧ c.stop ≤ d.word.toNat ∨ d.word.toNat ≤ c.start ∧ c.stop ≤ d.stop) ∨
      c.stop ≤ d.start ∨ d.stop ≤ c.start := by
  obtain ⟨k, q, hk⟩ := exists_at hc
  obtain ⟨j, r, hj⟩ := exists_at hd
  rcases Nat.lt_trichotomy j k with h | h | h
  · have := hk.nested_or_apart hj h
    omega
  · subst h
    rcases Nat.lt_trichotomy q r with h' | h' | h'
    · have := hk.stop_le_start hj h'
      omega
    · subst h'
      exact Or.inl (hk.eq hj)
    · have := hj.stop_le_start hk h'
      omega
  · have := hj.nested_or_apart hk h
    omega

/-! ## Ranges -/

/-- The range of `d` lies in that of `c`. -/
def Covers (c d : Cell) : Prop :=
  c.start ≤ d.start ∧ d.stop ≤ c.stop

/-- The range of `c` ends before that of `d` begins. -/
def Before (c d : Cell) : Prop :=
  c.stop ≤ d.start

/-- The ranges of `c` and `d` have a part in common. -/
def Meets (c d : Cell) : Prop :=
  ¬c.Before d ∧ ¬d.Before c

section Ranges

variable {c d e : Cell}

theorem Covers.refl (c : Cell) : c.Covers c :=
  ⟨Nat.le_refl _, Nat.le_refl _⟩

theorem Covers.trans (h : c.Covers d) (h' : d.Covers e) : c.Covers e :=
  ⟨Nat.le_trans h.1 h'.1, Nat.le_trans h'.2 h.2⟩

theorem start_le_stop (c : Cell) : c.start ≤ c.stop :=
  Nat.le_trans (Nat.sub_le _ _) (Nat.le_add_right _ _)

theorem start_le_word (c : Cell) : c.start ≤ c.word.toNat :=
  Nat.sub_le _ _

theorem Before.trans (h : c.Before d) (h' : d.Before e) : c.Before e :=
  Nat.le_trans h (Nat.le_trans (start_le_stop d) h')

theorem Covers.antisymm (hc : c ≠ null) (hd : d ≠ null) (h : c.Covers d) (h' : d.Covers c) :
    c = d := by
  have := start_add_marker hc
  have := start_add_marker hd
  have := word_add_marker c
  have := word_add_marker d
  obtain ⟨h1, h2⟩ := h
  obtain ⟨h3, h4⟩ := h'
  exact ext_toNat (by omega)

/-- Nested ranges of the same length are equal. -/
theorem Covers.eq_of_marker_le (hc : c ≠ null) (hd : d ≠ null) (h : c.Covers d)
    (hm : c.marker.toNat ≤ d.marker.toNat) : c = d := by
  have := start_add_marker hc
  have := start_add_marker hd
  have := word_add_marker c
  have := word_add_marker d
  obtain ⟨h1, h2⟩ := h
  exact ext_toNat (by omega)

/-- Two cells are nested or apart. -/
theorem covers_or_before (hc : c ≠ null) (hd : d ≠ null) :
    c.Covers d ∨ d.Covers c ∨ c.Before d ∨ d.Before c := by
  have hbc := range_bounds hc
  have hbd := range_bounds hd
  rcases nested_or_apart hc hd with rfl | h
  · exact Or.inl (Covers.refl c)
  · simp only [Covers, Before]
    omega

theorem Covers.meets (hd : d ≠ null) (h : c.Covers d) : c.Meets d := by
  have hbd := range_bounds hd
  obtain ⟨h1, h2⟩ := h
  simp only [Meets, Before]
  omega

/-- A range is known to lie in another one as soon as its middle does. -/
theorem covers_iff_word (hc : c ≠ null) (hd : d ≠ null) :
    c.Covers d ↔ c.start < d.word.toNat ∧ d.word.toNat < c.stop := by
  have hbc := range_bounds hc
  have hbd := range_bounds hd
  rw [Covers]
  rcases nested_or_apart hc hd with rfl | h <;> omega

theorem firstLeaf_lt_firstLeaf_iff (hc : c ≠ null) (hd : d ≠ null) :
    c.firstLeaf < d.firstLeaf ↔ c.start < d.start := by
  rw [lt_iff, toNat_firstLeaf hc, toNat_firstLeaf hd]
  omega

theorem firstLeaf_eq_iff (hc : c ≠ null) (hd : d ≠ null) :
    c.firstLeaf = d.firstLeaf ↔ c.start = d.start := by
  have hfirst := toNat_firstLeaf hc
  have hfirst' := toNat_firstLeaf hd
  constructor
  · intro h
    rw [h] at hfirst
    omega
  · intro h
    exact ext_toNat (by omega)

theorem le_lastLeaf_iff (hc : c ≠ null) (hd : d ≠ null) (h : c.start < d.word.toNat) :
    d ≤ c.lastLeaf ↔ c.Covers d := by
  have hlast := toNat_lastLeaf hc
  rw [covers_iff_word hc hd, le_iff]
  omega

theorem contains_iff (hc : c ≠ null) (hd : d ≠ null) : c.contains d = true ↔ c.Covers d := by
  have hbc := range_bounds hc
  have hbd := range_bounds hd
  have hfirst := toNat_firstLeaf hc
  have hlast := toNat_lastLeaf hc
  simp only [contains, Bool.and_eq_true, decide_eq_true_eq, le_iff, Covers]
  rcases nested_or_apart hc hd with rfl | h
  · omega
  · omega

theorem lastLeaf_lt_firstLeaf_iff (hc : c ≠ null) (hd : d ≠ null) :
    c.lastLeaf < d.firstLeaf ↔ c.Before d := by
  have hbc := range_bounds hc
  have hbd := range_bounds hd
  have hfirst := toNat_firstLeaf hd
  have hlast := toNat_lastLeaf hc
  rw [lt_iff, Before]
  omega

theorem Before.lt (hc : c ≠ null) (hd : d ≠ null) (h : c.Before d) : c < d := by
  have hbc := range_bounds hc
  have hbd := range_bounds hd
  rw [Before] at h
  rw [lt_iff]
  omega

/-! ## Leaves and ranges -/

theorem hasLeaf_firstLeaf (hc : c ≠ null) : c.HasLeaf c.firstLeaf.word := by
  have hb := range_bounds hc
  rw [hasLeaf_iff hc, toNat_firstLeaf hc]
  omega

theorem hasLeaf_lastLeaf (hc : c ≠ null) : c.HasLeaf c.lastLeaf.word := by
  have hb := range_bounds hc
  have := toNat_lastLeaf hc
  rw [hasLeaf_iff hc]
  omega

/-- A cell covers another one if it has all its leaves. -/
theorem covers_iff (hc : c ≠ null) (hd : d ≠ null) :
    c.Covers d ↔ ∀ x, d.HasLeaf x → c.HasLeaf x := by
  constructor
  · rintro ⟨h1, h2⟩ x hx
    rw [hasLeaf_iff hd] at hx
    rw [hasLeaf_iff hc]
    omega
  · intro h
    have hfirst := (hasLeaf_iff hc).mp (h _ (hasLeaf_firstLeaf hd))
    have hlast := (hasLeaf_iff hc).mp (h _ (hasLeaf_lastLeaf hd))
    have hbc := range_bounds hc
    have hbd := range_bounds hd
    have := toNat_lastLeaf hd
    rw [toNat_firstLeaf hd] at hfirst
    rw [Covers]
    omega

theorem Before.apart (hc : c ≠ null) (hd : d ≠ null) (h : c.Before d) (x : UInt64)
    (hx : c.HasLeaf x) : ¬d.HasLeaf x := by
  rw [hasLeaf_iff hc] at hx
  rw [hasLeaf_iff hd]
  rw [Before] at h
  omega

/-- Two ranges have a part in common if the cells have a leaf in common. -/
theorem meets_iff (hc : c ≠ null) (hd : d ≠ null) :
    c.Meets d ↔ ∃ x, c.HasLeaf x ∧ d.HasLeaf x := by
  constructor
  · rintro ⟨hcd, hdc⟩
    rcases covers_or_before hc hd with h | h | h | h
    · exact ⟨_, (covers_iff hc hd).mp h _ (hasLeaf_firstLeaf hd), hasLeaf_firstLeaf hd⟩
    · exact ⟨_, hasLeaf_firstLeaf hc, (covers_iff hd hc).mp h _ (hasLeaf_firstLeaf hc)⟩
    · exact absurd h hcd
    · exact absurd h hdc
  · rintro ⟨x, hx, hx'⟩
    exact ⟨fun h => h.apart hc hd x hx hx', fun h => h.apart hd hc x hx' hx⟩

/-- Of two cells without a common leaf the one with the smaller word comes first. -/
theorem before_of_apart (hc : c ≠ null) (hd : d ≠ null) (hlt : c < d)
    (h : ∀ x, c.HasLeaf x → ¬d.HasLeaf x) : c.Before d := by
  by_contra hcd
  have hdc : ¬d.Before c := by
    intro hdc
    have hgt := hdc.lt hd hc
    rw [lt_iff] at hlt hgt
    omega
  obtain ⟨x, hx, hx'⟩ := (meets_iff hc hd).mp ⟨hcd, hdc⟩
  exact h x hx hx'

/-- Of two cells with a common leaf one covers the other. -/
theorem covers_or_covers (hc : c ≠ null) (hd : d ≠ null) {x : UInt64} (hx : c.HasLeaf x)
    (hx' : d.HasLeaf x) : c.Covers d ∨ d.Covers c := by
  rcases covers_or_before hc hd with h | h | h | h
  · exact Or.inl h
  · exact Or.inr h
  · exact absurd hx' (h.apart hc hd x hx)
  · exact absurd hx (h.apart hd hc x hx')

end Ranges

end QuadSphere.Cell
