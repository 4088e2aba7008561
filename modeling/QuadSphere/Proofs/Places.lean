import QuadSphere.Proofs.Squares

/-!
# Leaves and their places

A leaf can be given by its word or by face, column and row: `ofPlace` and `place` lead from one to
the other, along the curve and back.  For a coarser cell, whose leaves are an interval of words,
`place` gives one of the leaves in it.  Which one depends on how the curve lies in the square, but
with both coordinates rounded down to multiples of the side it is the lower left corner, and the
leaves of the cell are those in the square that begins there.

* `leaf_place_bijection`: leaves and the places on the cube correspond one to one.
* `hasLeaf_iff_exists_inSquare`: the leaves of a cell are those at the places in its square.
* `leaves_eq_square`: the interval of words and the square hold the same leaves.
-/

namespace QuadSphere.Cell

variable {c : Cell} {p : Place}

/-! ## Leaves -/

/-- **Leaves and places correspond one to one.**  The leaf at a place on the cube is a cell of the
face and its place is the one it was found by; and the leaf at the place of a leaf is that leaf. -/
theorem leaf_place_bijection :
    (∀ p : Place, p.face < faceCount → p.i < faceSide → p.j < faceSide →
      (ofPlace p).isValid = true ∧ (ofPlace p).isLeaf = true ∧ (ofPlace p).face = p.face ∧
        (ofPlace p).place = p) ∧
    ∀ c : Cell, c.isValid = true → c.isLeaf = true →
      (c.place.face < faceCount ∧ c.place.i < faceSide ∧ c.place.j < faceSide) ∧
        ofPlace c.place = c := by
  constructor
  · intro p hf hi hj
    have hp : p.OnCube := ⟨hf, hi, hj⟩
    have hleaf : (ofPlace p).isLeaf = true := (ofPlace_at hp).isLeaf_iff.mpr rfl
    exact ⟨isValid_ofPlace hp, hleaf, face_ofPlace hp, place_ofPlace hp⟩
  · intro c hc hl
    obtain ⟨hf, hi, hj⟩ := onCube_place hc
    exact ⟨⟨hf, hi, hj⟩, ofPlace_place hc hl⟩

/-- A place in the last column of the last face, and the last leaf of all. -/
theorem leaf_place_bijection_last :
    let p : Place := ⟨5, 0x3fffffff, 12345⟩
    let c : Cell := ⟨0xbfffffffffffffff⟩
    (p.face < faceCount ∧ p.i < faceSide ∧ p.j < faceSide) ∧ (ofPlace p).place = p ∧
      (c.isValid = true ∧ c.isLeaf = true) ∧ ofPlace c.place = c := by
  intro p c
  have hp : p.face < faceCount ∧ p.i < faceSide ∧ p.j < faceSide := by decide
  have hc : c.isValid = true ∧ c.isLeaf = true := by decide
  obtain ⟨hplaces, hleaves⟩ := leaf_place_bijection
  obtain ⟨_, _, _, hplace⟩ := hplaces p hp.1 hp.2.1 hp.2.2
  exact ⟨hp, hplace, hc, (hleaves c hc.1 hc.2).2⟩

/-! ## Rounding down -/

theorem div_eq_div_iff {s t u : Nat} (hs : 0 < s) :
    t / s = u / s ↔ u / s * s ≤ t ∧ t < u / s * s + s := by
  rw [Nat.div_eq_iff hs]
  omega

theorem div_mul_add_le {s t n : Nat} (hs : 0 < s) (hn : s ∣ n) (ht : t < n) :
    t / s * s + s ≤ n := by
  obtain ⟨q, rfl⟩ := hn
  have hlt : t / s < q := (Nat.div_lt_iff_lt_mul hs).mpr (Nat.mul_comm s q ▸ ht)
  calc t / s * s + s = (t / s + 1) * s := by ring
    _ ≤ q * s := Nat.mul_le_mul_right s hlt
    _ = s * q := Nat.mul_comm q s

/-! ## The square of a cell -/

/-- The place lies in the square that begins at the corner of the cell. -/
structure InSquare (c : Cell) (p : Place) : Prop where
  face_eq : p.face = c.corner.face
  i_mem : c.corner.i ≤ p.i ∧ p.i < c.corner.i + c.side
  j_mem : c.corner.j ≤ p.j ∧ p.j < c.corner.j + c.side

theorem corner_eq (c : Cell) :
    c.corner = ⟨c.face, c.place.i / c.side * c.side, c.place.j / c.side * c.side⟩ :=
  rfl

theorem inSquare_iff : c.InSquare p ↔ p.SameSquare c.side c.place := by
  constructor
  · rintro ⟨hface, hi, hj⟩
    exact ⟨hface, (div_eq_div_iff (side_pos c)).mpr hi, (div_eq_div_iff (side_pos c)).mpr hj⟩
  · rintro ⟨hface, hi, hj⟩
    exact ⟨hface, (div_eq_div_iff (side_pos c)).mp hi, (div_eq_div_iff (side_pos c)).mp hj⟩

theorem inSquare_place (c : Cell) : c.InSquare c.place :=
  inSquare_iff.mpr ⟨rfl, rfl, rfl⟩

theorem inSquare_corner (c : Cell) : c.InSquare c.corner := by
  have hpos := side_pos c
  exact ⟨rfl, by omega, by omega⟩

theorem side_eq_two_pow (c : Cell) : c.side = 2 ^ (leafLevel - c.level) :=
  (side_eq_sideAt c).trans (sideAt_eq c.level)

/-- The bits of a coordinate below the side, cleared in a word of 32 bits. -/
theorem toNat_and_not_side {t : Nat} (ht : t < faceSide) :
    (UInt32.ofNat t &&& ~~~(UInt32.ofNat c.side - 1)).toNat = t / c.side * c.side := by
  have hle : c.side ≤ faceSide := Nat.le_of_dvd (by decide) (side_dvd c)
  have hsize : faceSide < UInt32.size := by decide
  have hside : (UInt32.ofNat c.side).toNat = 2 ^ (leafLevel - c.level) := by
    rw [UInt32.toNat_ofNat_of_lt' (by omega), side_eq_two_pow]
  rw [Word.toNat_and_not_sub_one hside, UInt32.toNat_ofNat_of_lt' (by omega),
    ← side_eq_two_pow]

section Valid

variable (hc : c.isValid = true)
include hc

theorem corner_add_side_le :
    c.corner.face < faceCount ∧ c.corner.i + c.side ≤ faceSide ∧ c.corner.j + c.side ≤ faceSide := by
  obtain ⟨hf, hi, hj⟩ := onCube_place hc
  exact ⟨hf, div_mul_add_le (side_pos c) (side_dvd c) hi,
    div_mul_add_le (side_pos c) (side_dvd c) hj⟩

theorem InSquare.onCube (h : c.InSquare p) : p.OnCube := by
  obtain ⟨hf, hi, hj⟩ := corner_add_side_le hc
  have := h.i_mem
  have := h.j_mem
  exact ⟨h.face_eq ▸ hf, by omega, by omega⟩

theorem hasLeaf_iff_exists_inSquare (x : UInt64) :
    c.HasLeaf x ↔ ∃ p, c.InSquare p ∧ x = (ofPlace p).word := by
  constructor
  · intro hx
    obtain ⟨p, hp, rfl⟩ := exists_ofPlace hc hx
    exact ⟨p, inSquare_iff.mpr ((hasLeaf_ofPlace_iff hc hp).mp hx), rfl⟩
  · rintro ⟨p, hp, rfl⟩
    exact (hasLeaf_ofPlace_iff hc (hp.onCube hc)).mpr (inSquare_iff.mp hp)

end Valid

/-- **The leaves of a cell are those in its square.**  The side is a power of two, so the corner has
the coordinates of the cell's place without their lowest bits.  The square lies on the face; the
place of the cell is in it, and its corner is the lowest leaf of the cell along both axes. -/
theorem leaves_eq_square (c : Cell) (hc : c.isValid = true) :
    (∀ x, c.HasLeaf x ↔ ∃ p, c.InSquare p ∧ x = (ofPlace p).word) ∧
      (c.side = 2 ^ (leafLevel - c.level) ∧ c.corner.face = c.face ∧
        c.corner.i = (UInt32.ofNat c.place.i &&& ~~~(UInt32.ofNat c.side - 1)).toNat ∧
        c.corner.j = (UInt32.ofNat c.place.j &&& ~~~(UInt32.ofNat c.side - 1)).toNat) ∧
      (c.face < faceCount ∧ c.corner.i + c.side ≤ faceSide ∧ c.corner.j + c.side ≤ faceSide) ∧
      c.HasLeaf (ofPlace c.place).word ∧ c.HasLeaf (ofPlace c.corner).word ∧
      ∀ x, c.HasLeaf x → c.corner.i ≤ (⟨x⟩ : Cell).place.i ∧ c.corner.j ≤ (⟨x⟩ : Cell).place.j := by
  have hleaf := hasLeaf_iff_exists_inSquare hc
  obtain ⟨_, hi, hj⟩ := onCube_place hc
  refine ⟨hleaf, ⟨side_eq_two_pow c, rfl, ?_, ?_⟩, corner_add_side_le hc, ?_, ?_, ?_⟩
  · rw [corner_eq, toNat_and_not_side hi]
  · rw [corner_eq, toNat_and_not_side hj]
  · exact (hleaf _).mpr ⟨_, inSquare_place c, rfl⟩
  · exact (hleaf _).mpr ⟨_, inSquare_corner c, rfl⟩
  · intro x hx
    obtain ⟨p, hp, rfl⟩ := (hleaf x).mp hx
    rw [show (⟨(ofPlace p).word⟩ : Cell) = ofPlace p from rfl, place_ofPlace (hp.onCube hc)]
    exact ⟨hp.i_mem.1, hp.j_mem.1⟩

/-- A cell of four leaves, whose own place is the upper right one of them. -/
theorem leaves_eq_square_four :
    let c : Cell := ⟨0x2000000000000014⟩
    c.isValid = true ∧ c.place = ⟨1, 3, 3⟩ ∧ c.corner = ⟨1, 2, 2⟩ ∧
      ∀ x, c.HasLeaf x ↔ ∃ p, c.InSquare p ∧ x = (ofPlace p).word := by
  intro c
  have hc : c.isValid = true := by decide
  exact ⟨hc, by decide, by decide, (leaves_eq_square c hc).1⟩

end QuadSphere.Cell
