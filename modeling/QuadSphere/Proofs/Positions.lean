import QuadSphere.Proofs.Descendants

/-!
# Positions

A cell can be named by its face, a position on the face and its level.  The position is read as that
of a leaf: its bits above the face are dropped, and its lowest bit is taken for a marker.  The first
bits of the leaf, down to the level, are those of the cell.  So the position of a cell names the
cell, although it has the marker of the cell in a place where a leaf has bits of its path.

* `leafAt_at`: the number of the leaf at a position.
* `ancestor_leafAt_at`: the number of the cell of a level around it.
* `positions_name_cells`: every cell has its position, and which positions name the same cell.
-/

namespace QuadSphere.Cell

variable {c : Cell} {face l : Nat}

/-- The mask drops the bits of the face. -/
theorem toNat_and_mask (w : UInt64) : (w &&& 0x1fffffffffffffff).toNat = w.toNat % 2 ^ 61 := by
  rw [UInt64.toNat_and]
  exact Nat.and_two_pow_sub_one_eq_mod _ 61

theorem toNat_position (c : Cell) : c.position.toNat = c.word.toNat % 2 ^ 61 :=
  toNat_and_mask c.word

theorem mod_or_one_lt (n : Nat) : n % 2 ^ 61 ||| 1 < 2 ^ 61 :=
  Nat.or_lt_two_pow (Nat.mod_lt n (by decide)) (by decide)

theorem ofPosition_eq_ok (hface : face < faceCount) (hl : l ≤ leafLevel) (w : UInt64) :
    ofPosition face w l = .ok ((leafAt face w).ancestor l) := by
  rw [ofPosition, checkFace, checkLevel, if_pos hface, if_pos hl]
  rfl

section Leaf

variable (hface : face < faceCount) (w : UInt64)
include hface

/-! ## The leaf at a position -/

theorem toNat_leafAt :
    (leafAt face w).word.toNat = 2 ^ 61 * face + (w.toNat % 2 ^ 61 ||| 1) := by
  have hshift : (UInt64.ofNat face <<< 61).toNat = 2 ^ 61 * face := by
    have hshifts : ∀ face < faceCount, (UInt64.ofNat face <<< 61).toNat = 2 ^ 61 * face := by decide
    exact hshifts face hface
  rw [leafAt, UInt64.toNat_or, UInt64.toNat_or, toNat_and_mask, hshift,
    Nat.two_pow_add_eq_or_of_lt (mod_or_one_lt w.toNat)]
  rfl

theorem leafAt_at : (leafAt face w).At 0 (face * 4 ^ leafLevel + w.toNat % 2 ^ 61 / 2) := by
  have hword := toNat_leafAt hface w
  have hodd : (w.toNat % 2 ^ 61 ||| 1) % 2 = 1 := Nat.or_mod_two_eq_one.mpr (Or.inr rfl)
  have hhalf : (w.toNat % 2 ^ 61 ||| 1) / 2 = w.toNat % 2 ^ 61 / 2 := by
    rw [Nat.or_div_two]
    exact Nat.or_zero _
  rw [At, Nat.pow_zero, Nat.mul_one, hword, leafLevel]
  omega

theorem isValid_leafAt : (leafAt face w).isValid = true := by
  have hat : (leafAt face w).At (2 * 0) _ := leafAt_at hface w
  rw [hat.isValid_iff_lt (Nat.zero_le _), Nat.sub_zero, leafLevel]
  rw [faceCount] at hface
  omega

theorem isLeaf_leafAt : (leafAt face w).isLeaf = true :=
  (leafAt_at hface w).isLeaf_iff.mpr rfl

theorem level_leafAt : (leafAt face w).level = leafLevel :=
  At.level_eq (m := 0) (leafAt_at hface w)

theorem face_leafAt : (leafAt face w).face = face := by
  rw [At.face_eq (m := 0) (leafAt_at hface w) (Nat.zero_le _), Nat.sub_zero, leafLevel]
  omega

theorem toNat_position_leafAt : (leafAt face w).position.toNat = w.toNat % 2 ^ 61 ||| 1 := by
  rw [toNat_position, toNat_leafAt hface, Nat.mul_add_mod]
  exact Nat.mod_eq_of_lt (mod_or_one_lt w.toNat)

/-! ## The cell around it -/

theorem ancestor_leafAt_at (hl : l ≤ leafLevel) : ((leafAt face w).ancestor l).At
    (2 * (leafLevel - l)) (face * 4 ^ l + w.toNat % 2 ^ 61 / 2 ^ (2 * (leafLevel - l) + 1)) := by
  have hat := At.ancestor (m := 0) (leafAt_at hface w) (l := l) hl
  have hsplit : 4 ^ leafLevel = 4 ^ (leafLevel - l) * 4 ^ l := by
    rw [← Nat.pow_add, Nat.sub_add_cancel hl]
  have hbits : 2 ^ (2 * (leafLevel - l) + 1) = 2 * 4 ^ (leafLevel - l) := by
    rw [Nat.pow_succ', Nat.pow_mul]
  rw [Nat.sub_zero, hsplit, Nat.mul_left_comm, Nat.mul_add_div (Nat.pow_pos (by omega)),
    Nat.div_div_eq_div_mul, ← hbits] at hat
  exact hat

theorem face_ancestor_leafAt (hl : l ≤ leafLevel) : ((leafAt face w).ancestor l).face = face := by
  have hlow : w.toNat % 2 ^ 61 / 2 ^ (2 * (leafLevel - l) + 1) < 4 ^ l := by
    have hbits : 2 ^ 61 = 4 ^ l * 2 ^ (2 * (leafLevel - l) + 1) := by
      rw [show 4 ^ l = 2 ^ (2 * l) from (Nat.pow_mul 2 2 l).symm, ← Nat.pow_add]
      congr 1
      rw [leafLevel] at hl ⊢
      omega
    rw [Nat.div_lt_iff_lt_mul (Nat.two_pow_pos _), ← hbits]
    exact Nat.mod_lt _ (by decide)
  rw [(ancestor_leafAt_at hface w hl).face_eq (Nat.sub_le _ _), Nat.sub_sub_self hl, Nat.mul_comm,
    Nat.mul_add_div (Nat.pow_pos (by omega)), Nat.div_eq_of_lt hlow, Nat.add_zero]

end Leaf

/-! ## Positions as names -/

/-- **The position of a cell names the cell.** -/
theorem ofPosition_position (hc : c.isValid = true) :
    ofPosition c.face c.position c.level = .ok c := by
  obtain ⟨q, _, hat⟩ := (isValid_and_level_iff (level_le c)).mp ⟨hc, rfl⟩
  -- as a leaf the position stands for the place of the cell
  have hnumber : c.face * 4 ^ leafLevel + c.position.toNat % 2 ^ 61 / 2 = c.place.number := by
    rw [number_place, toNat_position, Nat.mod_mod, face_eq_div, leafLevel]
    omega
  have hleaf := leafAt_at (face_lt hc) c.position
  rw [hnumber] at hleaf
  have hanc := At.ancestor (m := 0) hleaf (l := c.level) (level_le c)
  rw [Nat.sub_zero, hat.number_place_div] at hanc
  rw [ofPosition_eq_ok (face_lt hc) (level_le c), hanc.eq hat]

/-- Two positions name the same cell if their bits above its marker are the same. -/
theorem ofPosition_eq_iff (hface : face < faceCount) (hl : l ≤ leafLevel) (w v : UInt64) :
    ofPosition face w l = ofPosition face v l ↔
      w.toNat % 2 ^ 61 / 2 ^ (2 * (leafLevel - l) + 1) =
        v.toNat % 2 ^ 61 / 2 ^ (2 * (leafLevel - l) + 1) := by
  have hw := ancestor_leafAt_at hface w hl
  have hv := ancestor_leafAt_at hface v hl
  rw [ofPosition_eq_ok hface hl, ofPosition_eq_ok hface hl, Except.ok.injEq]
  constructor
  · intro h
    rw [h] at hw
    exact Nat.add_left_cancel (hw.unique hv).2
  · intro h
    rw [h] at hw
    exact hw.eq hv

/-- **Faces, positions and levels name the cells.**  Every cell is found by its own face, position
and level.  A position of any 64 bits names a cell of each level on each face, which is the ancestor
of the leaf with the low bits of the position, and two positions name the same cell if these bits
are the same down to the marker of the level. -/
theorem positions_name_cells :
    (∀ c : Cell, c.isValid = true → ofPosition c.face c.position c.level = .ok c) ∧
    ∀ face l : Nat, face < faceCount → l ≤ leafLevel →
      (∀ w : UInt64, ∃ c leaf : Cell, ofPosition face w l = .ok c ∧
        c.isValid = true ∧ c.face = face ∧ c.level = l ∧
        (leaf.isValid = true ∧ leaf.isLeaf = true ∧ leaf.face = face ∧
          leaf.position.toNat = w.toNat % 2 ^ 61 ||| 1) ∧
        leaf.ancestor? l = .ok c ∧ c.contains? leaf = .ok true) ∧
      ∀ w v : UInt64, ofPosition face w l = ofPosition face v l ↔
        w.toNat % 2 ^ 61 / 2 ^ (2 * (leafLevel - l) + 1) =
          v.toNat % 2 ^ 61 / 2 ^ (2 * (leafLevel - l) + 1) := by
  refine ⟨fun c => ofPosition_position, fun face l hface hl => ⟨fun w => ?_, ?_⟩⟩
  · have hv := isValid_leafAt hface w
    have hlevel : l ≤ (leafAt face w).level := by rwa [level_leafAt hface]
    obtain ⟨hc, hcl, hcov⟩ := ancestor_spec hv hlevel
    refine ⟨_, leafAt face w, ofPosition_eq_ok hface hl w, hc, face_ancestor_leafAt hface w hl, hcl,
      ⟨hv, isLeaf_leafAt hface w, face_leafAt hface w, toNat_position_leafAt hface w⟩,
      if_pos hlevel, ?_⟩
    have hcontains := (contains_iff (ne_null_of_isValid hc) (ne_null_of_isValid hv)).mpr hcov
    rw [contains?_eq_ok (ne_null_of_isValid hc), hcontains]
  · exact ofPosition_eq_iff hface hl

/-- A cell of the last face, named by its position and by one with other bits above those of the
position and from the marker on. -/
theorem positions_name_cells_eight :
    let c : Cell := ⟨0xa123500000000000⟩
    (c.isValid = true ∧ 5 < faceCount ∧ 8 ≤ leafLevel) ∧
      ofPosition 5 0x0123500000000000 8 = .ok c ∧ ofPosition 5 0xe123456789abcdef 8 = .ok c := by
  intro c
  have hc : c.isValid = true := by decide
  obtain ⟨hself, hname⟩ := positions_name_cells
  obtain ⟨hface, hposition, hlevel⟩ :
      c.face = 5 ∧ c.position = 0x0123500000000000 ∧ c.level = 8 := by decide
  have hpos := hself c hc
  rw [hface, hposition, hlevel] at hpos
  have hsame := (hname 5 8 (by decide) (by decide)).2 0xe123456789abcdef 0x0123500000000000
  exact ⟨⟨hc, by decide, by decide⟩, hpos, (hsame.mpr (by decide)).trans hpos⟩

end QuadSphere.Cell
