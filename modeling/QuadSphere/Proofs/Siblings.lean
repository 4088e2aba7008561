import QuadSphere.Proofs.Tree
import QuadSphere.Cover.Basic

/-!
# Siblings

The test for siblings compares the words of four cells bit by bit.  On cells in increasing order it
finds out whether they are the four children of one cell.

* `Cover.areSiblings?_spec`: what the test decides.
* `Family.bounds`: the ranges of four siblings make up that of their parent.
* `Family.exists_parent`, `family_child`: the families of cells are the children of one cell.
* `Cover.siblings_have_one_parent`: so the test finds the children of one cell, and the last one of
  them leads back to it.
-/

namespace QuadSphere

open Cell

/-- The four children of one cell, in order, or those of another word that can be cut. -/
def Family (a b c d : Cell) : Prop :=
  ∃ k r, k < 60 ∧ a.At k (4 * r) ∧ b.At k (4 * r + 1) ∧ c.At k (4 * r + 2) ∧ d.At k (4 * r + 3)

section

variable {a b c d : Cell} {k q r : Nat}

theorem Cell.At.mod_div (h : d.At k q) :
    d.word.toNat % 2 ^ (k + 1) = 2 ^ k ∧ d.word.toNat / 2 ^ (k + 3) = q / 4 := by
  rw [h, Nat.pow_succ', Nat.mul_mod_mul_right, Nat.pow_add, Nat.mul_comm (2 ^ k),
    Nat.mul_div_mul_right _ _ (Nat.two_pow_pos k), show (2 * q + 1) % 2 = 1 by omega]
  omega

theorem Cell.At.agrees_iff (h : d.At k q) :
    (a.word.toNat % 2 ^ (k + 1) = d.word.toNat % 2 ^ (k + 1) ∧
        a.word.toNat / 2 ^ (k + 3) = d.word.toNat / 2 ^ (k + 3)) ↔
      ∃ r, a.At k r ∧ r / 4 = q / 4 := by
  rw [h.mod_div.1, h.mod_div.2]
  constructor
  · rintro ⟨hm, hd⟩
    have hat : a.At k (a.word.toNat / 2 ^ (k + 1)) := by
      have hsum := Nat.div_add_mod a.word.toNat (2 ^ (k + 1))
      rw [hm] at hsum
      calc a.word.toNat = 2 ^ (k + 1) * (a.word.toNat / 2 ^ (k + 1)) + 2 ^ k := hsum.symm
        _ = _ := by ring
    exact ⟨_, hat, hat.mod_div.2.symm.trans hd⟩
  · rintro ⟨r, hr, hq⟩
    exact ⟨hr.mod_div.1, hr.mod_div.2.trans hq⟩

theorem Cell.At.lt_iff_of_same (hc : c.At k q) (hd : d.At k r) : c < d ↔ q < r := by
  rw [Cell.lt_iff, hc, hd, Nat.mul_lt_mul_right (Nat.two_pow_pos k)]
  omega

theorem Cell.At.xor_eq (ha : a.At k (4 * r)) (hb : b.At k (4 * r + 1)) (hc : c.At k (4 * r + 2))
    (hd : d.At k (4 * r + 3)) : a.word ^^^ b.word ^^^ c.word = d.word := by
  have hodd : ∀ i, 2 * (4 * r + i) + 1 = 8 * r + (2 * i + 1) := by omega
  have hxor := Word.xor_children r k
  rw [← UInt64.toNat_inj, UInt64.toNat_xor, UInt64.toNat_xor, hb, hc, hd, hodd, hodd, hodd,
    show a.word.toNat = (8 * r + 1) * 2 ^ k by rw [ha, ← hodd 0]; rfl]
  exact hxor

/-- The bits that tell the siblings of a cell below a face apart; their sum does not overflow. -/
theorem Cover.siblingBits?_eq (h : d.At k q) (hk : k < 60) :
    ∃ m, Cover.siblingBits? d = .ok m ∧ m.toNat = 6 * 2 ^ k := by
  have hlow : (d.marker <<< 1).toNat = 2 ^ (k + 1) := h.toNat_shiftLeft_marker (n := 1) (by omega)
  have htwo : (d.marker <<< 1 <<< 1).toNat = 2 ^ (k + 2) := by
    rw [UInt64.toNat_shiftLeft, hlow, show (1 : UInt64).toNat % 64 = 1 from rfl, Nat.shiftLeft_eq,
      ← Nat.pow_succ, Nat.mod_eq_of_lt (Nat.pow_lt_pow_right Nat.one_lt_two (by omega))]
  have hsum : 2 ^ (k + 1) + 2 ^ (k + 2) = 6 * 2 ^ k := by ring
  have hlt : (d.marker <<< 1).toNat + (d.marker <<< 1 <<< 1).toNat < UInt64.size := by
    have : 2 ^ k < 2 ^ 60 := Nat.pow_lt_pow_right Nat.one_lt_two hk
    rw [hlow, htwo, hsum, UInt64.size]
    omega
  refine ⟨d.marker <<< 1 + d.marker <<< 1 <<< 1, Cell.sum?_eq_ok hlt, ?_⟩
  rw [UInt64.toNat_add, Nat.mod_eq_of_lt hlt, hlow, htwo, hsum]

/-- **The test for siblings** gives a value for any words in increasing order, and tells families
apart from other words. -/
theorem Cover.areSiblings?_spec (hd : d ≠ null) (hab : a < b) (hbc : b < c) (hcd : c < d) :
    ∃ t, Cover.areSiblings? a b c d = .ok t ∧ (t = true ↔ Family a b c d) := by
  obtain ⟨k, q, hat⟩ := exists_at hd
  unfold Cover.areSiblings?
  by_cases hxor : a.word ^^^ b.word ^^^ c.word = d.word
  swap
  · refine ⟨false, by simp [hxor], by simp, ?_⟩
    rintro ⟨j, r, _, ha, hb, hc, hd⟩
    exact absurd (ha.xor_eq hb hc hd) hxor
  by_cases hface : d.isFace = true
  · refine ⟨false, by simp [hxor, hface], by simp, ?_⟩
    rintro ⟨j, r, hj, _, _, _, hd⟩
    have := hd.isFace_iff.mp hface
    omega
  have hk : k < 60 := by
    rw [hat.isFace_iff] at hface
    omega
  obtain ⟨m, hm, hbits⟩ := Cover.siblingBits?_eq hat hk
  simp only [hxor, hface, hm, ne_eq, not_true_eq_false, if_false, ok_bind, pure_eq_ok]
  refine ⟨_, rfl, ?_⟩
  simp only [Bool.and_eq_true, beq_iff_eq, Word.and_not_eq_iff hbits, hat.agrees_iff]
  constructor
  · rintro ⟨⟨⟨r₁, h₁, e₁⟩, r₂, h₂, e₂⟩, r₃, h₃, e₃⟩
    rw [h₁.lt_iff_of_same h₂] at hab
    rw [h₂.lt_iff_of_same h₃] at hbc
    rw [h₃.lt_iff_of_same hat] at hcd
    obtain rfl : r₁ = 4 * (q / 4) := by omega
    obtain rfl : r₂ = 4 * (q / 4) + 1 := by omega
    obtain rfl : r₃ = 4 * (q / 4) + 2 := by omega
    exact ⟨k, q / 4, hk, h₁, h₂, h₃, by rwa [show 4 * (q / 4) + 3 = q by omega]⟩
  · rintro ⟨j, r, _, ha, hb, hc, hd⟩
    obtain ⟨rfl, rfl⟩ := hat.unique hd
    exact ⟨⟨⟨_, ha, by omega⟩, _, hb, by omega⟩, _, hc, by omega⟩

/-! ## Families and their parent -/

theorem Family.bounds (h : Family a b c d) :
    a.stop = b.start ∧ b.stop = c.start ∧ c.stop = d.start ∧
      d.parent.start = a.start ∧ d.parent.stop = d.stop := by
  obtain ⟨k, r, hk, ha, hb, hc, hd⟩ := h
  have hp := hd.parent (by omega)
  rw [show (4 * r + 3) / 4 = r by omega] at hp
  rw [ha.start_eq, ha.stop_eq, hb.start_eq, hb.stop_eq, hc.start_eq, hc.stop_eq, hd.start_eq,
    hd.stop_eq, hp.start_eq, hp.stop_eq]
  refine ⟨?_, ?_, ?_, ?_, ?_⟩ <;> ring

theorem Family.not_isFace (h : Family a b c d) : ¬d.isFace = true := by
  obtain ⟨k, r, hk, _, _, _, hd⟩ := h
  rw [hd.isFace_iff]
  omega

theorem Family.parent_ne_null (h : Family a b c d) : d.parent ≠ null := by
  obtain ⟨k, r, hk, _, _, _, hd⟩ := h
  exact (hd.parent (by omega)).ne_null

theorem Family.isValid_parent (h : Family a b c d) (hv : d.isValid = true) :
    d.parent.isValid = true := by
  have hb := h.bounds
  obtain ⟨k, r, hk, _, _, _, hd⟩ := h
  obtain ⟨m, q, hm, hat, hstop⟩ := isValid_iff.mp hv
  obtain ⟨rfl, rfl⟩ := hd.unique hat
  exact isValid_iff.mpr ⟨m + 1, _, by omega, hd.parent (by omega), by omega⟩

theorem Family.exists_parent (h : Family a b c d) (hv : d.isValid = true) :
    ∃ p : Cell, p.isValid = true ∧ ¬p.isLeaf = true ∧
      a = p.child 0 ∧ b = p.child 1 ∧ c = p.child 2 ∧ d = p.child 3 := by
  refine ⟨d.parent, h.isValid_parent hv, ?_⟩
  obtain ⟨k, r, hk, ha, hb, hc, hd⟩ := h
  have hp := hd.parent (by omega)
  rw [show (4 * r + 3) / 4 = r by omega] at hp
  rw [hp.isLeaf_iff]
  exact ⟨by omega, ha.eq (hp.child (by omega)), hb.eq (hp.child (by omega)),
    hc.eq (hp.child (by omega)), hd.eq (hp.child (by omega))⟩

theorem family_child {p : Cell} (hp : p.isValid = true) (hl : ¬p.isLeaf = true) :
    Family (p.child 0) (p.child 1) (p.child 2) (p.child 3) := by
  obtain ⟨m, q, hm, hat, _⟩ := exists_at_of_not_isLeaf hp hl
  exact ⟨2 * m, q, by omega, hat.child (by omega), hat.child (by omega), hat.child (by omega),
    hat.child (by omega)⟩

end

/-! ## The test on cells -/

/-- The four cells are what the cell is cut into. -/
structure CutsInto (p a b c d : Cell) : Prop where
  valid : p.isValid = true
  first : p.child? 0 = .ok a
  second : p.child? 1 = .ok b
  third : p.child? 2 = .ok c
  last : p.child? 3 = .ok d

namespace CutsInto

variable {p a b c d : Cell}

theorem not_isLeaf (h : CutsInto p a b c d) : ¬p.isLeaf = true :=
  (child?_eq_ok_iff.mp h.last).1

theorem family (h : CutsInto p a b c d) : Family a b c d := by
  obtain ⟨_, _, rfl⟩ := child?_eq_ok_iff.mp h.first
  obtain ⟨_, _, rfl⟩ := child?_eq_ok_iff.mp h.second
  obtain ⟨_, _, rfl⟩ := child?_eq_ok_iff.mp h.third
  obtain ⟨_, _, rfl⟩ := child?_eq_ok_iff.mp h.last
  exact family_child h.valid h.not_isLeaf

theorem parent?_eq (h : CutsInto p a b c d) : d.parent? = .ok p := by
  rw [parent?_eq_ok h.family.not_isFace]
  obtain ⟨hl, _, rfl⟩ := child?_eq_ok_iff.mp h.last
  rw [parent_child h.valid hl (by omega)]

end CutsInto

/-- Four cells are a family if they are what one cell is cut into. -/
theorem family_iff_exists_cutsInto {a b c d : Cell} (hd : d.isValid = true) :
    Family a b c d ↔ ∃ p, CutsInto p a b c d := by
  constructor
  · intro h
    obtain ⟨p, hp, hl, rfl, rfl, rfl, rfl⟩ := h.exists_parent hd
    have hchild : ∀ {k}, k < 4 → p.child? k = .ok (p.child k) :=
      fun hk => child?_eq_ok_iff.mpr ⟨hl, hk, rfl⟩
    exact ⟨p, hp, hchild (by omega), hchild (by omega), hchild (by omega), hchild (by omega)⟩
  · rintro ⟨p, h⟩
    exact h.family

/-- **The test finds the four children of one cell.**  On cells in increasing order it gives a
value, and finds siblings where the cells are what one cell that is no leaf is cut into, in this
order.  The last of them has a parent, which is that cell.  It is enough that the last one is a
cell. -/
theorem Cover.siblings_have_one_parent (a b c d : Cell) (hd : d.isValid = true) (hab : a < b)
    (hbc : b < c) (hcd : c < d) :
    ∃ t, Cover.areSiblings? a b c d = .ok t ∧
      (t = true ↔ ∃ p, CutsInto p a b c d) ∧
      ∀ p, CutsInto p a b c d → p.isLeaf = false ∧ d.parent? = .ok p := by
  obtain ⟨t, ht, hfam⟩ := Cover.areSiblings?_spec (ne_null_of_isValid hd) hab hbc hcd
  refine ⟨t, ht, hfam.trans (family_iff_exists_cutsInto hd), fun p hp => ?_⟩
  exact ⟨Bool.eq_false_iff.mpr hp.not_isLeaf, hp.parent?_eq⟩

/-- The parts of a face; and four leaves whose words cancel each other out, but which lie in two
cells. -/
theorem Cover.siblings_have_one_parent_face :
    (let a : Cell := ⟨0x4400000000000000⟩
    let b : Cell := ⟨0x4c00000000000000⟩
    let c : Cell := ⟨0x5400000000000000⟩
    let d : Cell := ⟨0x5c00000000000000⟩
    (d.isValid = true ∧ a < b ∧ b < c ∧ c < d) ∧ Cover.areSiblings? a b c d = .ok true ∧
      d.parent? = .ok ⟨0x5000000000000000⟩) ∧
    let a : Cell := ⟨0x01⟩
    let b : Cell := ⟨0x03⟩
    let c : Cell := ⟨0x11⟩
    let d : Cell := ⟨0x13⟩
    (d.isValid = true ∧ a < b ∧ b < c ∧ c < d) ∧ a.word ^^^ b.word ^^^ c.word = d.word ∧
      ¬∃ p, CutsInto p a b c d := by
  constructor
  · intro a b c d
    have hd : d.isValid = true ∧ a < b ∧ b < c ∧ c < d := by decide
    obtain ⟨t, ht, hparts, hparent⟩ :=
      Cover.siblings_have_one_parent a b c d hd.1 hd.2.1 hd.2.2.1 hd.2.2.2
    have hcut : CutsInto ⟨0x5000000000000000⟩ a b c d := ⟨by decide, rfl, rfl, rfl, rfl⟩
    rw [hparts.mpr ⟨_, hcut⟩] at ht
    exact ⟨hd, ht, (hparent _ hcut).2⟩
  · have hno : Cover.areSiblings? ⟨0x01⟩ ⟨0x03⟩ ⟨0x11⟩ ⟨0x13⟩ = .ok false := rfl
    intro a b c d
    have hd : d.isValid = true ∧ a < b ∧ b < c ∧ c < d := by decide
    obtain ⟨t, ht, hparts, _⟩ :=
      Cover.siblings_have_one_parent a b c d hd.1 hd.2.1 hd.2.2.1 hd.2.2.2
    obtain rfl : false = t := Except.ok.inj (hno.symm.trans ht)
    exact ⟨hd, by decide, fun hp => Bool.false_ne_true (hparts.mpr hp)⟩

end QuadSphere
