import QuadSphere.Cell.Square
import QuadSphere.Proofs.Curve
import QuadSphere.Proofs.Tree

/-!
# Cells as squares

The leaves are numbered along the curve, and the cell `At (2 * m) q` holds the leaves whose number
divided by `4 ^ m` is `q`.  Since the first bits of a number are the number of the square on the
coarser curve, these are the leaves of one square with the side `2 ^ m`.

`Place.cell` is the cell of a level around a place, and every cell is the one around its own place
(`cell_place`).  So a statement about cells becomes one about rows and columns:

* `place_ofPlace`, `ofPlace_place`: a leaf and its place are found by each other.
* `hasLeaf_ofPlace_iff`: the leaves of a cell are those in its square.
* `cell_eq_cell_iff`: two places have the same cell of a level if they lie in the same square.
* `covers_cell_iff`: a cell covers the finer cells around the places in its square.
* `hasLeaf_iff_exists_covers`: a cell has the leaves of the cells of a level below it.
* `place_mod_side`: the place of a cell that is no leaf is away from the border of its square.
-/

namespace QuadSphere

open Cell

/-! ## Places -/

/-- The place is on one of the six faces. -/
structure Place.OnCube (p : Place) : Prop where
  face_lt : p.face < faceCount
  i_lt : p.i < faceSide
  j_lt : p.j < faceSide

theorem faceSide_eq : faceSide = 2 ^ leafLevel := rfl

/-- The number of the leaf at a place along the whole curve. -/
def Place.number (p : Place) : Nat :=
  p.face * 4 ^ leafLevel + Curve.encode (faceOrientation p.face) leafLevel p.i p.j

/-- The two places lie in the same square of the grid with the given side. -/
structure Place.SameSquare (side : Nat) (p p' : Place) : Prop where
  face_eq : p.face = p'.face
  i_eq : p.i / side = p'.i / side
  j_eq : p.j / side = p'.j / side

theorem Place.SameSquare.symm {side : Nat} {p p' : Place} (h : p.SameSquare side p') :
    p'.SameSquare side p :=
  ⟨h.face_eq.symm, h.i_eq.symm, h.j_eq.symm⟩

theorem Place.SameSquare.trans {side : Nat} {p p' p'' : Place} (h : p.SameSquare side p')
    (h' : p'.SameSquare side p'') : p.SameSquare side p'' :=
  ⟨h.face_eq.trans h'.face_eq, h.i_eq.trans h'.i_eq, h.j_eq.trans h'.j_eq⟩

section Number

variable {p p' : Place} {m : Nat}

theorem Place.OnCube.number_lt (h : p.OnCube) : p.number < 6 * 4 ^ leafLevel := by
  have hcode := Curve.encode_lt (faceOrientation p.face) leafLevel p.i p.j
  have hface : p.face + 1 ≤ 6 := h.face_lt
  calc p.number < p.face * 4 ^ leafLevel + 4 ^ leafLevel := Nat.add_lt_add_left hcode _
    _ = (p.face + 1) * 4 ^ leafLevel := by ring
    _ ≤ 6 * 4 ^ leafLevel := Nat.mul_le_mul_right _ hface

/-- The first bits of a number are the face and the place of the square on a coarser curve. -/
theorem Place.number_div (p : Place) (hm : m ≤ leafLevel) :
    p.number / 4 ^ m = p.face * 4 ^ (leafLevel - m) +
      Curve.encode (faceOrientation p.face) (leafLevel - m) (p.i / 2 ^ m) (p.j / 2 ^ m) := by
  have hsplit : 4 ^ leafLevel = 4 ^ m * 4 ^ (leafLevel - m) := by
    rw [← Nat.pow_add, Nat.add_sub_cancel' hm]
  have hcode := Curve.encode_div (faceOrientation p.face) (leafLevel - m) m p.i p.j
  rw [Nat.sub_add_cancel hm] at hcode
  rw [number, hsplit, ← hcode, show p.face * (4 ^ m * 4 ^ (leafLevel - m)) =
    4 ^ m * (p.face * 4 ^ (leafLevel - m)) by ring, Nat.mul_add_div (Nat.pow_pos (by omega))]

/-- The bits below the face do not reach up to it. -/
theorem eq_and_eq_of_mul_add_eq {a b x y s : Nat} (hx : x < s) (hy : y < s)
    (h : a * s + x = b * s + y) : a = b ∧ x = y := by
  have hdiv := congrArg (· / s) h
  have hmod := congrArg (· % s) h
  simp only [Nat.mul_add_mod_self_right, Nat.mod_eq_of_lt hx, Nat.mod_eq_of_lt hy] at hmod
  simp only [Nat.mul_comm _ s, Nat.mul_add_div (Nat.zero_lt_of_lt hx), Nat.div_eq_of_lt hx,
    Nat.div_eq_of_lt hy, Nat.add_zero] at hdiv
  exact ⟨hdiv, hmod⟩

theorem Place.OnCube.number_div_eq_iff (h : p.OnCube) (h' : p'.OnCube) (hm : m ≤ leafLevel) :
    p.number / 4 ^ m = p'.number / 4 ^ m ↔ p.SameSquare (2 ^ m) p' := by
  have hside : faceSide = 2 ^ (leafLevel - m) * 2 ^ m := by
    rw [← Nat.pow_add, Nat.sub_add_cancel hm, faceSide_eq]
  have hlt : ∀ {x : Nat}, x < faceSide → x / 2 ^ m < 2 ^ (leafLevel - m) := fun hx =>
    (Nat.div_lt_iff_lt_mul (Nat.two_pow_pos m)).mpr (hside ▸ hx)
  rw [p.number_div hm, p'.number_div hm]
  constructor
  · intro heq
    obtain ⟨hface, hcode⟩ := eq_and_eq_of_mul_add_eq (Curve.encode_lt _ _ _ _)
      (Curve.encode_lt _ _ _ _) heq
    rw [hface] at hcode
    obtain ⟨hi, hj⟩ := Curve.encode_inj _ (hlt h.i_lt) (hlt h.j_lt) (hlt h'.i_lt) (hlt h'.j_lt)
      hcode
    exact ⟨hface, hi, hj⟩
  · rintro ⟨hface, hi, hj⟩
    rw [hface, hi, hj]

end Number

namespace Cell

variable {c d : Cell} {p p' : Place} {m q l : Nat}

/-! ## Leaves -/

theorem face_eq_div (c : Cell) : c.face = c.word.toNat / 2 ^ 61 := by
  rw [face, UInt64.toNat_shiftRight, Nat.shiftRight_eq_div_pow]
  rfl

theorem ofPlace_at (h : p.OnCube) : (ofPlace p).At 0 p.number := by
  have hlt := h.number_lt
  have hword : (p.face <<< positionBits) +
      2 * Curve.encode (faceOrientation p.face) leafLevel p.i p.j + 1 = 2 * p.number + 1 := by
    rw [Place.number, Nat.shiftLeft_eq]
    simp only [positionBits, leafLevel]
    omega
  rw [leafLevel] at hlt
  rw [At, ofPlace, hword, UInt64.toNat_ofNat_of_lt' (by rw [UInt64.size]; omega)]
  omega

theorem toNat_word_ofPlace (h : p.OnCube) : (ofPlace p).word.toNat = 2 * p.number + 1 := by
  rw [ofPlace_at h, Nat.pow_zero, Nat.mul_one]

theorem isValid_ofPlace (h : p.OnCube) : (ofPlace p).isValid = true := by
  have hlt := h.number_lt
  refine isValid_iff.mpr ⟨0, p.number, by omega, ofPlace_at h, ?_⟩
  rw [(ofPlace_at h).stop_eq]
  rw [leafLevel] at hlt
  omega

theorem face_ofPlace (h : p.OnCube) : (ofPlace p).face = p.face := by
  have hcode := Curve.encode_lt (faceOrientation p.face) leafLevel p.i p.j
  rw [face_eq_div, toNat_word_ofPlace h, Place.number]
  rw [leafLevel] at hcode ⊢
  omega

theorem place_ofPlace (h : p.OnCube) : (ofPlace p).place = p := by
  have hcode := Curve.encode_lt (faceOrientation p.face) leafLevel p.i p.j
  have hmod : (2 * p.number + 1) / 2 % 4 ^ leafLevel =
      Curve.encode (faceOrientation p.face) leafLevel p.i p.j := by
    rw [show (2 * p.number + 1) / 2 = p.number by omega, Place.number,
      Nat.mul_add_mod_self_right, Nat.mod_eq_of_lt hcode]
  rw [place, face_ofPlace h, toNat_word_ofPlace h, Curve.decode_of_mod_eq _ hmod,
    ← faceSide_eq, Nat.mod_eq_of_lt h.i_lt, Nat.mod_eq_of_lt h.j_lt]

/-! ## The place of a cell -/

theorem toNat_word_lt (hc : c.isValid = true) : c.word.toNat < 6 * 2 ^ 61 := by
  obtain ⟨m, q, _, _, hstop⟩ := isValid_iff.mp hc
  have := range_bounds (ne_null_of_isValid hc)
  omega

theorem place_eq (c : Cell) : c.place =
    ⟨c.face, (Curve.decode (faceOrientation c.face) leafLevel (c.word.toNat / 2)).1,
      (Curve.decode (faceOrientation c.face) leafLevel (c.word.toNat / 2)).2⟩ :=
  rfl

theorem onCube_place (hc : c.isValid = true) : c.place.OnCube := by
  have hlt := toNat_word_lt hc
  obtain ⟨hi, hj⟩ :=
    Curve.decode_lt (faceOrientation c.face) leafLevel (c.word.toNat / 2)
  refine ⟨?_, hi, hj⟩
  rw [place_eq, face_eq_div, faceCount]
  dsimp only
  omega

/-- The place of a cell is that of the leaf whose word differs from it in the marker only. -/
theorem number_place (c : Cell) : c.place.number = c.word.toNat / 2 := by
  obtain ⟨hi, hj⟩ :=
    Curve.decode_lt (faceOrientation c.face) leafLevel (c.word.toNat / 2)
  rw [place_eq, Place.number]
  dsimp only
  rw [Curve.encode_of_mod_eq _ (Nat.mod_eq_of_lt hi) (Nat.mod_eq_of_lt hj), face_eq_div, leafLevel]
  omega

theorem ofPlace_place (hc : c.isValid = true) (hl : c.isLeaf = true) : ofPlace c.place = c := by
  obtain ⟨m, q, _, hat, _⟩ := isValid_iff.mp hc
  have hword : c.word.toNat = 2 * q + 1 := by
    rw [hat, hat.isLeaf_iff.mp hl, Nat.pow_zero, Nat.mul_one]
  apply ext_toNat
  rw [toNat_word_ofPlace (onCube_place hc), number_place]
  omega

theorem At.level_eq (h : c.At (2 * m) q) : c.level = leafLevel - m := by
  rw [level, h.cutsLeft_eq]

theorem At.side_eq (h : c.At (2 * m) q) (hm : m ≤ leafLevel) : c.side = 2 ^ m := by
  rw [side, sideAt, h.level_eq, Nat.one_shiftLeft, Nat.sub_sub_self hm]

theorem level_le (c : Cell) : c.level ≤ leafLevel :=
  Nat.sub_le _ _

theorem cutsLeft_le (hc : c.isValid = true) : c.cutsLeft ≤ leafLevel := by
  obtain ⟨m, q, hm, hat, _⟩ := isValid_iff.mp hc
  rw [hat.cutsLeft_eq]
  exact hm

theorem level_add_cutsLeft (hc : c.isValid = true) : c.level + c.cutsLeft = leafLevel :=
  Nat.sub_add_cancel (cutsLeft_le hc)

theorem sideAt_eq (l : Nat) : sideAt l = 2 ^ (leafLevel - l) :=
  Nat.one_shiftLeft _

theorem sideAt_pos (l : Nat) : 0 < sideAt l := by
  rw [sideAt_eq]
  exact Nat.two_pow_pos _

/-- The side of a coarser level is a multiple of that of a finer one, and that of a level divides
the side of a face. -/
theorem sideAt_dvd {l l' : Nat} (h : l ≤ l') : sideAt l' ∣ sideAt l := by
  rw [sideAt_eq, sideAt_eq]
  exact Nat.pow_dvd_pow 2 (by omega)

theorem At.number_place_div (h : c.At (2 * m) q) : c.place.number / 4 ^ m = q := by
  rw [number_place, Nat.div_div_eq_div_mul, h, Nat.pow_mul, show 2 ^ 2 = 4 from rfl,
    Nat.mul_div_mul_right _ _ (Nat.pow_pos (by omega))]
  omega

/-- **The leaves of a cell are those in its square.** -/
theorem hasLeaf_ofPlace_iff (hc : c.isValid = true) (hp : p.OnCube) :
    c.HasLeaf (ofPlace p).word ↔ p.SameSquare c.side c.place := by
  obtain ⟨m, q, hm, hat, _⟩ := isValid_iff.mp hc
  have hpos : 0 < 4 ^ m := Nat.pow_pos (by omega)
  rw [hat.side_eq hm, ← hp.number_div_eq_iff (onCube_place hc) hm, hat.number_place_div,
    hasLeaf_iff hat.ne_null, hat.start_eq, hat.stop_eq, toNat_word_ofPlace hp, Nat.pow_mul,
    show 2 ^ 2 = 4 from rfl, Nat.div_eq_iff hpos]
  omega

theorem isLeaf_of_hasLeaf {x : UInt64} (hc : c.isValid = true) (hx : c.HasLeaf x) :
    (⟨x⟩ : Cell).isValid = true ∧ (⟨x⟩ : Cell).isLeaf = true := by
  obtain ⟨m, q, _, _, hstop⟩ := isValid_iff.mp hc
  have hleaf := (hasLeaf_iff (ne_null_of_isValid hc)).mp hx
  have hat : (⟨x⟩ : Cell).At 0 (x.toNat / 2) := by
    rw [At, Nat.pow_zero, Nat.mul_one]
    dsimp only
    omega
  refine ⟨isValid_iff.mpr ⟨0, x.toNat / 2, by omega, hat, ?_⟩, hat.isLeaf_iff.mpr rfl⟩
  rw [hat.stop_eq]
  omega

theorem exists_ofPlace {x : UInt64} (hc : c.isValid = true) (hx : c.HasLeaf x) :
    ∃ p : Place, p.OnCube ∧ x = (ofPlace p).word := by
  obtain ⟨hv, hl⟩ := isLeaf_of_hasLeaf hc hx
  exact ⟨(⟨x⟩ : Cell).place, onCube_place hv, by rw [ofPlace_place hv hl]⟩

theorem hasLeaf_place (hc : c.isValid = true) : c.HasLeaf (ofPlace c.place).word :=
  (hasLeaf_ofPlace_iff hc (onCube_place hc)).mpr ⟨rfl, rfl, rfl⟩

/-! ## Cells of one level -/

theorem At.eq_of_covers {k j r : Nat} (hc : c.At k q) (hd : d.At j r) (h : c.Covers d)
    (hkj : k ≤ j) : c = d := by
  apply h.eq_of_marker_le hc.ne_null hd.ne_null
  rw [hc.marker_eq, hd.marker_eq]
  exact Nat.pow_le_pow_right (by omega) hkj

/-- Of two cells with a common leaf the coarser one covers the other. -/
theorem covers_of_hasLeaf {x : UInt64} (hc : c.isValid = true) (hd : d.isValid = true)
    (hl : c.level ≤ d.level) (hx : c.HasLeaf x) (hx' : d.HasLeaf x) : c.Covers d := by
  obtain ⟨m, q, hm, hat, _⟩ := isValid_iff.mp hc
  obtain ⟨n, r, hn, hdat, _⟩ := isValid_iff.mp hd
  rw [hat.level_eq, hdat.level_eq, leafLevel] at hl
  rcases covers_or_covers hat.ne_null hdat.ne_null hx hx' with h | h
  · exact h
  · rw [hdat.eq_of_covers hat h (by omega)]
    exact Covers.refl c

theorem eq_of_hasLeaf {x : UInt64} (hc : c.isValid = true) (hd : d.isValid = true)
    (hl : c.level = d.level) (hx : c.HasLeaf x) (hx' : d.HasLeaf x) : c = d :=
  Covers.antisymm (ne_null_of_isValid hc) (ne_null_of_isValid hd)
    (covers_of_hasLeaf hc hd (Nat.le_of_eq hl) hx hx')
    (covers_of_hasLeaf hd hc (Nat.le_of_eq hl.symm) hx' hx)

theorem level_le_of_covers (hc : c.isValid = true) (hd : d.isValid = true) (h : c.Covers d) :
    c.level ≤ d.level := by
  by_contra hlt
  have hfirst := hasLeaf_firstLeaf (ne_null_of_isValid hd)
  have hcfirst := (covers_iff (ne_null_of_isValid hc) (ne_null_of_isValid hd)).mp h _ hfirst
  have hdc := covers_of_hasLeaf hd hc (by omega) hfirst hcfirst
  rw [h.antisymm (ne_null_of_isValid hc) (ne_null_of_isValid hd) hdc] at hlt
  exact hlt (Nat.le_refl _)

theorem toNat_markerAt (l : Nat) : (markerAt l).toNat = 2 ^ (2 * (leafLevel - l)) := by
  have hlt : 2 ^ (2 * (leafLevel - l)) < UInt64.size :=
    Nat.pow_lt_pow_right Nat.one_lt_two (show 2 * (leafLevel - l) < 64 by rw [leafLevel]; omega)
  rw [markerAt, Nat.one_shiftLeft, UInt64.toNat_ofNat_of_lt' hlt]

theorem marker_lt_markerAt_iff (hc : c.isValid = true) : c.marker < markerAt l ↔ l < c.level := by
  obtain ⟨m, q, hm, hat, _⟩ := isValid_iff.mp hc
  rw [UInt64.lt_iff_toNat_lt, hat.marker_eq, toNat_markerAt, hat.level_eq,
    Nat.pow_lt_pow_iff_right Nat.one_lt_two]
  omega

theorem At.word_div (h : c.At (2 * m) q) (hl : l + m ≤ leafLevel) :
    c.word.toNat / 2 ^ (2 * (leafLevel - l) + 1) = q / 4 ^ (leafLevel - l - m) := by
  obtain ⟨t, ht⟩ : ∃ t, leafLevel - l = m + t := ⟨leafLevel - l - m, by omega⟩
  rw [ht, Nat.add_sub_cancel_left, h, show 2 * (m + t) + 1 = 1 + 2 * t + 2 * m by omega,
    Nat.pow_add, Nat.mul_div_mul_right _ _ (Nat.two_pow_pos _), Nat.pow_add, Nat.pow_one,
    ← Nat.div_div_eq_div_mul, show (2 * q + 1) / 2 = q by omega, Nat.pow_mul]

/-- **Where the ancestors of a cell lie.** -/
theorem At.ancestor (h : c.At (2 * m) q) (hl : l + m ≤ leafLevel) :
    (c.ancestor l).At (2 * (leafLevel - l)) (q / 4 ^ (leafLevel - l - m)) := by
  have hcut := Word.toNat_cutAt (w := c.word) (toNat_markerAt l)
  rw [h.word_div hl] at hcut
  exact hcut

/-- The cells of a level are the words with a number below the number of squares. -/
theorem At.isValid_iff_lt (h : c.At (2 * m) q) (hm : m ≤ leafLevel) :
    c.isValid = true ↔ q < 6 * 4 ^ (leafLevel - m) := by
  have hsplit : 6 * 2 ^ 61 = 6 * 4 ^ (leafLevel - m) * (2 * 2 ^ (2 * m)) := by
    rw [show 61 = 1 + 2 * leafLevel from rfl, Nat.pow_add, Nat.pow_mul, Nat.pow_mul,
      show leafLevel = leafLevel - m + m by omega, Nat.pow_add, Nat.add_sub_cancel]
    ring
  have hbound : c.stop ≤ 6 * 2 ^ 61 ↔ q < 6 * 4 ^ (leafLevel - m) := by
    rw [h.stop_eq, hsplit, show 2 * (q * 2 ^ (2 * m)) + 2 * 2 ^ (2 * m) =
      (q + 1) * (2 * 2 ^ (2 * m)) by ring, Nat.mul_le_mul_right_iff (by positivity),
      Nat.succ_le_iff]
  rw [← hbound, isValid_iff]
  constructor
  · rintro ⟨_, _, _, _, hstop⟩
    exact hstop
  · intro hstop
    exact ⟨m, q, hm, h, hstop⟩

theorem isValid_parent (hc : c.isValid = true) (hl : 0 < c.level) :
    c.parent.isValid = true ∧ c.parent.level + 1 = c.level := by
  obtain ⟨m, q, hm, hat, _⟩ := isValid_iff.mp hc
  have hq := (hat.isValid_iff_lt hm).mp hc
  rw [hat.level_eq, leafLevel] at hl
  have hpar : c.parent.At (2 * (m + 1)) (q / 4) := hat.parent (by omega)
  rw [leafLevel, show 30 - m = 30 - (m + 1) + 1 by omega, Nat.pow_succ] at hq
  refine ⟨(hpar.isValid_iff_lt (by rw [leafLevel]; omega)).mpr ?_, ?_⟩
  · rw [leafLevel]
    omega
  · rw [hpar.level_eq, hat.level_eq, leafLevel]
    omega

theorem ancestor_spec (hc : c.isValid = true) (hl : l ≤ c.level) :
    (c.ancestor l).isValid = true ∧ (c.ancestor l).level = l ∧ (c.ancestor l).Covers c := by
  obtain ⟨m, q, hm, hat, _⟩ := isValid_iff.mp hc
  have hq := (hat.isValid_iff_lt hm).mp hc
  rw [hat.level_eq] at hl
  rw [leafLevel] at hl hq
  obtain ⟨t, ht⟩ : ∃ t, l + m + t = 30 := ⟨30 - l - m, by omega⟩
  have hanc := hat.ancestor (l := l) (by rw [leafLevel]; omega)
  rw [leafLevel, show 30 - l = m + t by omega, Nat.add_sub_cancel_left] at hanc
  have hpow : 2 ^ (2 * (m + t)) = 4 ^ t * 2 ^ (2 * m) := by
    rw [show 2 * (m + t) = 2 * t + 2 * m by omega, Nat.pow_add, Nat.pow_mul]
  refine ⟨?_, ?_, ?_⟩
  · rw [hanc.isValid_iff_lt (by rw [leafLevel]; omega), leafLevel,
      Nat.div_lt_iff_lt_mul (Nat.pow_pos (by omega))]
    rw [show 30 - m = 30 - (m + t) + t by omega, Nat.pow_add, ← Nat.mul_assoc] at hq
    exact hq
  · rw [hanc.level_eq, leafLevel]
    omega
  · have hmod := Nat.div_add_mod q (4 ^ t)
    have hrem := Nat.mod_lt q (Nat.pow_pos (by omega : 0 < 4) (n := t))
    have h1 : q / 4 ^ t * (4 ^ t * 2 ^ (2 * m)) ≤ q * 2 ^ (2 * m) := by
      rw [← Nat.mul_assoc]
      exact Nat.mul_le_mul_right _ (Nat.div_mul_le_self q _)
    have h2 : q * 2 ^ (2 * m) + 2 ^ (2 * m) ≤
        q / 4 ^ t * (4 ^ t * 2 ^ (2 * m)) + 4 ^ t * 2 ^ (2 * m) := by
      calc q * 2 ^ (2 * m) + 2 ^ (2 * m) = (q + 1) * 2 ^ (2 * m) := by ring
        _ ≤ (4 ^ t * (q / 4 ^ t) + 4 ^ t) * 2 ^ (2 * m) := Nat.mul_le_mul_right _ (by omega)
        _ = _ := by ring
    rw [Covers, hanc.start_eq, hanc.stop_eq, hat.start_eq, hat.stop_eq, hpow]
    omega

end Cell

/-- The cell of a level that a place lies in. -/
def Place.cell (p : Place) (l : Nat) : Cell :=
  (ofPlace p).ancestor l

namespace Cell

variable {c d : Cell} {p p' : Place} {l : Nat}

theorem side_eq_sideAt (c : Cell) : c.side = sideAt c.level := rfl

theorem side_pos (c : Cell) : 0 < c.side :=
  sideAt_pos c.level

theorem faceSide_eq_mul (hl : l ≤ leafLevel) : faceSide = 2 ^ l * sideAt l := by
  rw [faceSide_eq, sideAt_eq, ← Nat.pow_add, Nat.add_sub_cancel' hl]

theorem side_dvd (c : Cell) : c.side ∣ faceSide :=
  ⟨2 ^ c.level, by rw [faceSide_eq_mul (level_le c), Nat.mul_comm, side_eq_sideAt]⟩

theorem face_place (c : Cell) : c.place.face = c.face := rfl

theorem face_lt (hc : c.isValid = true) : c.face < faceCount :=
  (onCube_place hc).face_lt

section Around

variable (hp : p.OnCube) (hl : l ≤ leafLevel)
include hp hl

theorem cell_spec : (p.cell l).isValid = true ∧ (p.cell l).level = l ∧
    (p.cell l).HasLeaf (ofPlace p).word := by
  have hv := isValid_ofPlace hp
  have hlevel : (ofPlace p).level = leafLevel := At.level_eq (m := 0) (ofPlace_at hp)
  obtain ⟨ha, hal, hcov⟩ := ancestor_spec hv (hl.trans_eq hlevel.symm)
  refine ⟨ha, hal, (covers_iff (ne_null_of_isValid ha) (ne_null_of_isValid hv)).mp hcov _ ?_⟩
  rw [hasLeaf_iff (ne_null_of_isValid hv), (ofPlace_at hp).start_eq, (ofPlace_at hp).stop_eq,
    toNat_word_ofPlace hp]
  omega

theorem isValid_cell : (p.cell l).isValid = true :=
  (cell_spec hp hl).1

theorem level_cell : (p.cell l).level = l :=
  (cell_spec hp hl).2.1

theorem side_cell : (p.cell l).side = sideAt l := by
  rw [side_eq_sideAt, level_cell hp hl]

theorem hasLeaf_cell : (p.cell l).HasLeaf (ofPlace p).word :=
  (cell_spec hp hl).2.2

theorem sameSquare_place_cell : p.SameSquare (sideAt l) (p.cell l).place := by
  rw [← side_cell hp hl]
  exact (hasLeaf_ofPlace_iff (isValid_cell hp hl) hp).mp (hasLeaf_cell hp hl)

theorem hasLeaf_cell_iff (hp' : p'.OnCube) :
    (p.cell l).HasLeaf (ofPlace p').word ↔ p'.SameSquare (sideAt l) p := by
  rw [hasLeaf_ofPlace_iff (isValid_cell hp hl) hp', side_cell hp hl]
  constructor
  · intro h
    exact h.trans (sameSquare_place_cell hp hl).symm
  · intro h
    exact h.trans (sameSquare_place_cell hp hl)

/-- **Two places lie in the same cell of a level if they lie in the same square.** -/
theorem cell_eq_cell_iff (hp' : p'.OnCube) :
    p.cell l = p'.cell l ↔ p.SameSquare (sideAt l) p' := by
  rw [← hasLeaf_cell_iff hp' hl hp]
  constructor
  · intro h
    rw [← h]
    exact hasLeaf_cell hp hl
  · intro h
    exact eq_of_hasLeaf (isValid_cell hp hl) (isValid_cell hp' hl)
      ((level_cell hp hl).trans (level_cell hp' hl).symm) (hasLeaf_cell hp hl) h

/-- A cell covers those cells of a finer level whose places lie in its square. -/
theorem covers_cell_iff (hc : c.isValid = true) (hcl : c.level ≤ l) :
    c.Covers (p.cell l) ↔ p.SameSquare c.side c.place := by
  have hv := isValid_cell hp hl
  rw [← hasLeaf_ofPlace_iff hc hp]
  constructor
  · intro h
    exact (covers_iff (ne_null_of_isValid hc) (ne_null_of_isValid hv)).mp h _ (hasLeaf_cell hp hl)
  · intro h
    exact covers_of_hasLeaf hc hv (by rw [level_cell hp hl]; exact hcl) h (hasLeaf_cell hp hl)

end Around

/-- **Every cell is the one around its own place.** -/
theorem cell_place (hc : c.isValid = true) : c.place.cell c.level = c := by
  have hp := onCube_place hc
  exact eq_of_hasLeaf (isValid_cell hp (level_le c)) hc (level_cell hp (level_le c))
    (hasLeaf_cell hp (level_le c)) (hasLeaf_place hc)

/-- A cell has the leaves of the cells of a level below it. -/
theorem hasLeaf_iff_exists_covers (hc : c.isValid = true) (hcl : c.level ≤ l) (hl : l ≤ leafLevel)
    (x : UInt64) :
    c.HasLeaf x ↔ ∃ a : Cell, (a.isValid = true ∧ a.level = l ∧ c.Covers a) ∧ a.HasLeaf x := by
  constructor
  · intro hx
    obtain ⟨p, hp, rfl⟩ := exists_ofPlace hc hx
    have hlevel := level_cell hp hl
    have hcov := covers_of_hasLeaf hc (isValid_cell hp hl) (by rw [hlevel]; exact hcl) hx
      (hasLeaf_cell hp hl)
    exact ⟨p.cell l, ⟨isValid_cell hp hl, hlevel, hcov⟩, hasLeaf_cell hp hl⟩
  · rintro ⟨a, ⟨ha, _, hcov⟩, hx⟩
    exact (covers_iff (ne_null_of_isValid hc) (ne_null_of_isValid ha)).mp hcov x hx

/-- The place of a cell that is no leaf lies next to the centre of its square, on the diagonal. -/
theorem place_mod_side (hc : c.isValid = true) (hl : c.level < leafLevel) :
    c.place.i % c.side = c.place.j % c.side ∧
      (c.place.i % c.side = c.side / 2 ∨ c.place.i % c.side + 1 = c.side / 2) := by
  obtain ⟨m, q, hm, hat, _⟩ := isValid_iff.mp hc
  rw [hat.level_eq] at hl
  obtain ⟨n, rfl⟩ : ∃ n, m = n + 1 := ⟨m - 1, by rw [leafLevel] at hl; omega⟩
  have hmid : c.word.toNat / 2 % 4 ^ (n + 1) = 2 * 4 ^ n := by
    have hpos := Nat.pow_pos (by omega : 0 < 4) (n := n)
    have hword : c.word.toNat = 2 * (2 * 4 ^ n + q * 4 ^ (n + 1)) := by
      rw [hat, Nat.pow_mul, show 2 ^ 2 = 4 from rfl, Nat.pow_succ]
      ring
    rw [hword, Nat.mul_div_cancel_left _ (by omega), Nat.add_mul_mod_self_right,
      Nat.mod_eq_of_lt (by rw [Nat.pow_succ]; omega)]
  obtain ⟨o', ho'⟩ := Curve.exists_decode_mod (faceOrientation c.face) (leafLevel - (n + 1)) (n + 1)
    (c.word.toNat / 2)
  rw [Nat.sub_add_cancel (show n + 1 ≤ leafLevel from hm), Curve.decode_middle o' hmid,
    Prod.ext_iff] at ho'
  have hpos := Nat.two_pow_pos n
  rw [hat.side_eq hm, place_eq, Nat.pow_succ, Nat.mul_div_cancel _ (by omega : 0 < 2),
    ← Nat.pow_succ]
  dsimp only at ho' ⊢
  rw [ho'.1, ho'.2]
  cases o'.inverted
  · exact ⟨rfl, Or.inl rfl⟩
  · refine ⟨rfl, Or.inr ?_⟩
    simp only [if_true]
    omega

end Cell

end QuadSphere
