import Mathlib.Order.Bounds.Basic
import Mathlib.Tactic.IntervalCases
import QuadSphere.Proofs.Descendants
import QuadSphere.Proofs.Normalization

/-!
# Refinement onto a grid of levels

The levels of a grid begin with a least level and go on in strides up to the leaves.  Since every
stride divides the leaf level, the next multiple of the stride is found with what is missing of the
leaf level (`isLeast_add_sub_mod`).

Refining a cover replaces each cell by the cells of one level below it.  These have the leaves of
the cell and lie within its range, so the cells that replace a canonical cover lie apart and in
order, and normalization turns them into the cover again.

* `isGridLevel_gridLevel`: the level on the grid that is found is the first one.
* `separated_flatMap_below`, `ofList_flatMap_below`: cells of any finer levels in the place of those
  of a cover.
* `refine_of_normal`: the refinement of a normal cover.
-/

namespace QuadSphere

open Cell

variable {c : Cell} {cells : List Cell} {least stride level l : Nat}

namespace Cover

/-! ## Levels on a grid -/

/-- The levels of a grid that are not coarser than `level`. -/
structure OnGrid (least stride level l : Nat) : Prop where
  level_le : max level least ≤ l
  le_leafLevel : l ≤ leafLevel
  dvd : stride ∣ l - least

/-- The first level of a grid that is not coarser than `level`, or that of the leaves if there is no
such level. -/
def IsGridLevel (least stride level l : Nat) : Prop :=
  IsLeast {l | OnGrid least stride level l} l ∨
    (∀ l, ¬OnGrid least stride level l) ∧ l = leafLevel

theorem isLeast_add_sub_mod {s n x : Nat} (hs : s ∣ n) (hx : x ≤ n) :
    IsLeast {y | x ≤ y ∧ s ∣ y} (x + (n - x) % s) := by
  have hrest := Nat.mod_le (n - x) s
  refine ⟨⟨Nat.le_add_right _ _, ?_⟩, ?_⟩
  · rw [Nat.dvd_iff_mod_eq_zero, Nat.add_mod_mod, Nat.add_sub_cancel' hx]
    exact Nat.mod_eq_zero_of_dvd hs
  · rintro y ⟨hxy, hy⟩
    rcases Nat.le_total n y with hny | hyn
    · omega
    · have hmod : (n - x) % s = (y - x) % s := by
        rw [show n - x = n - y + (y - x) by omega, Nat.add_mod,
          Nat.mod_eq_zero_of_dvd (Nat.dvd_sub hs hy), Nat.zero_add, Nat.mod_mod]
      have := Nat.mod_le (y - x) s
      omega

theorem gridLevel_eq (hstride : 0 < stride) (hl : max level least ≤ leafLevel) :
    gridLevel least stride level = min leafLevel
      (max level least + (leafLevel - (max level least - least)) % stride) := by
  rw [gridLevel]
  split
  · rfl
  · next h =>
    obtain rfl : stride = 1 := by omega
    rw [Nat.mod_one, Nat.add_zero, Nat.min_eq_right hl]

/-- **The level on the grid**, for every stride that divides the leaf level. -/
theorem isGridLevel_gridLevel (hstride : stride ∣ leafLevel) (hleast : least ≤ leafLevel)
    (hlevel : level ≤ leafLevel) :
    IsGridLevel least stride level (gridLevel least stride level) := by
  -- so neither of the two differences in the level is cut off at zero
  have hl : max level least ≤ leafLevel := Nat.max_le.mpr ⟨hlevel, hleast⟩
  have hpos : 0 < stride := Nat.pos_of_dvd_of_pos hstride (by decide)
  rw [gridLevel_eq hpos hl]
  generalize hx : max level least - least = x
  obtain ⟨⟨_, hdvd⟩, hmin⟩ := isLeast_add_sub_mod hstride (show x ≤ leafLevel by omega)
  have hfirst : ∀ l, OnGrid least stride level l →
      max level least + (leafLevel - x) % stride ≤ l := by
    rintro l ⟨hle, _, hl⟩
    have := hmin ⟨show x ≤ l - least by omega, hl⟩
    omega
  rcases Nat.lt_or_ge leafLevel (max level least + (leafLevel - x) % stride) with hlt | hge
  · refine Or.inr ⟨fun l h => ?_, Nat.min_eq_left (Nat.le_of_lt hlt)⟩
    have := hfirst l h
    have := h.le_leafLevel
    omega
  · rw [Nat.min_eq_right hge]
    refine Or.inl ⟨⟨Nat.le_add_right _ _, hge, ?_⟩, hfirst⟩
    rwa [show max level least + (leafLevel - x) % stride - least =
      x + (leafLevel - x) % stride by omega]

theorem IsGridLevel.bounds (h : IsGridLevel least stride level l) (hlevel : level ≤ leafLevel) :
    level ≤ l ∧ l ≤ leafLevel := by
  rcases h with ⟨⟨hle, hl, _⟩, _⟩ | ⟨_, rfl⟩
  · exact ⟨Nat.le_trans (Nat.le_max_left _ _) hle, hl⟩
  · exact ⟨hlevel, Nat.le_refl _⟩

theorem dvd_leafLevel (hpos : 1 ≤ stride) (hle : stride ≤ 3) : stride ∣ leafLevel := by
  interval_cases stride <;> decide

/-! ## One cell -/

theorem refineCell_eq_ok (hc : c.isValid = true) (hcl : c.level ≤ gridLevel least stride c.level)
    (hl : gridLevel least stride c.level ≤ leafLevel) :
    refineCell least stride c = .ok (c.below (gridLevel least stride c.level)) := by
  rw [refineCell]
  split
  · next heq =>
    rw [heq, below_level hc]
    rfl
  · rw [endAt?_eq_ok hc hcl hl, firstAt?_eq_ok hcl hl, ok_bind, ok_bind, walk_eq_below hc hcl hl]

/-! ## All the cells of a cover -/

section Flat

variable {f : Cell → Nat} (hcan : IsCanonical cells)
  (hf : ∀ c ∈ cells, c.level ≤ f c ∧ f c ≤ leafLevel)
include hcan hf

theorem isValid_of_mem_flatMap_below : ∀ d ∈ cells.flatMap fun c => c.below (f c),
    d.isValid = true := by
  intro d hd
  obtain ⟨c, hc, hdc⟩ := List.mem_flatMap.mp hd
  obtain ⟨hcl, hl⟩ := hf c hc
  exact ((mem_below_iff (hcan.valid c hc) hcl hl).mp hdc).1

theorem separated_flatMap_below : Separated (cells.flatMap fun c => c.below (f c)) := by
  refine ⟨ne_null_of_valid (isValid_of_mem_flatMap_below hcan hf),
    List.pairwise_flatMap.mpr ⟨fun c hc => ?_, ?_⟩⟩
  · exact pairwise_below (hcan.valid c hc) (hf c hc).1 (hf c hc).2
  · refine hcan.separated.pairwise.imp_of_mem fun {a b} ha hb hab d hd e he => ?_
    obtain ⟨_, _, had⟩ := (mem_below_iff (hcan.valid a ha) (hf a ha).1 (hf a ha).2).mp hd
    obtain ⟨_, _, hbe⟩ := (mem_below_iff (hcan.valid b hb) (hf b hb).1 (hf b hb).2).mp he
    exact Nat.le_trans had.2 (Nat.le_trans hab hbe.1)

theorem hasLeaf_flatMap_below_iff (x : UInt64) :
    HasLeaf (cells.flatMap fun c => c.below (f c)) x ↔ HasLeaf cells x := by
  have hbelow : ∀ c ∈ cells, (HasLeaf (c.below (f c)) x ↔ c.HasLeaf x) := fun c hc =>
    hasLeaf_below_iff (hcan.valid c hc) (hf c hc).1 (hf c hc).2 x
  constructor
  · rintro ⟨d, hd, hdx⟩
    obtain ⟨c, hc, hdc⟩ := List.mem_flatMap.mp hd
    exact ⟨c, hc, (hbelow c hc).mp ⟨d, hdc, hdx⟩⟩
  · rintro ⟨c, hc, hcx⟩
    obtain ⟨d, hdc, hdx⟩ := (hbelow c hc).mpr hcx
    exact ⟨d, List.mem_flatMap.mpr ⟨c, hc, hdc⟩, hdx⟩

/-- **Normalization undoes refinement**, whatever the levels are. -/
theorem ofList_flatMap_below : ofList (cells.flatMap fun c => c.below (f c)) = .ok ⟨cells⟩ := by
  obtain ⟨A, hA, hcanA, hleaf⟩ := ofList_of_valid (isValid_of_mem_flatMap_below hcan hf)
  rw [hA, ← hcanA.eq_of_same_leaves hcan fun x =>
    (hleaf x).trans (hasLeaf_flatMap_below_iff hcan hf x)]

end Flat

theorem checkGrid_of_lt (h : leafLevel < least) :
    checkGrid least stride = .error (.levelOutOfRange least) := by
  rw [checkGrid, checkLevel, if_neg (Nat.not_le_of_lt h)]
  rfl

theorem checkGrid_of_le (h : least ≤ leafLevel) :
    checkGrid least stride =
      if stride < 1 ∨ 3 < stride then .error (.strideOutOfRange stride) else .ok () := by
  rw [checkGrid, checkLevel, if_pos h]
  rfl

/-- **A cover is refined to the first levels of the grid, and normalization undoes it.**  Each cell
is replaced by all the cells below it on one level, in order; the whole list increases, no two cells
of it have a leaf in common, and its normal form is the cover.  A least level beyond the leaves is
refused, and so is a stride other than one, two and three. -/
theorem refine_of_normal (A : Cover) (least stride : Nat) (hv : ∀ c ∈ A.cells, c.isValid = true)
    (hA : A.isNormal? = .ok true) :
    (least ≤ leafLevel → 1 ≤ stride → stride ≤ 3 → ∃ parts : List (List Cell),
      A.refine least stride = .ok parts.flatten ∧
      List.Forall₂ (fun c part => ∃ l, IsGridLevel least stride c.level l ∧
        ∀ d, d ∈ part ↔ d.isValid = true ∧ d.level = l ∧ d.ancestor? c.level = .ok c)
        A.cells parts ∧
      parts.flatten.Pairwise (· < ·) ∧
      parts.flatten.Pairwise (fun c d => ∀ x, c.HasLeaf x → ¬d.HasLeaf x) ∧
      (∀ d ∈ parts.flatten, d.isValid = true) ∧
      ofList parts.flatten = .ok A) ∧
    (leafLevel < least → A.refine least stride = .error (.refused (.levelOutOfRange least))) ∧
    (least ≤ leafLevel → stride < 1 ∨ 3 < stride →
      A.refine least stride = .error (.refused (.strideOutOfRange stride))) := by
  refine ⟨fun hleast hpos hle => ?_, fun hlt => ?_, fun hleast hstride => ?_⟩
  · have hcan : IsCanonical A.cells := isCanonical_iff.mpr ⟨hv, hA⟩
    have hgrid : ∀ c : Cell, IsGridLevel least stride c.level (gridLevel least stride c.level) :=
      fun c => isGridLevel_gridLevel (dvd_leafLevel hpos hle) hleast (level_le c)
    have hf : ∀ c ∈ A.cells, c.level ≤ gridLevel least stride c.level ∧
        gridLevel least stride c.level ≤ leafLevel := fun c _ => (hgrid c).bounds (level_le c)
    have hrefine := mapM_eq_ok fun c hc => refineCell_eq_ok (hv c hc) (hf c hc).1 (hf c hc).2
    have hsep := separated_flatMap_below hcan hf
    refine ⟨A.cells.map fun c => c.below (gridLevel least stride c.level), ?_, ?_, ?_⟩
    · rw [refine, checkGrid_of_le hleast, if_neg (by omega), hrefine]
      rfl
    · rw [List.forall₂_map_right_iff, List.forall₂_same]
      intro c hc
      exact ⟨_, hgrid c, fun d => mem_below_iff_ancestor? (hv c hc) (hf c hc).1 (hf c hc).2⟩
    · rw [← List.flatMap_def]
      have hapart := hsep.pairwise.imp_of_mem fun hc hd h =>
        h.apart (hsep.ne_null _ hc) (hsep.ne_null _ hd)
      exact ⟨hsep.increasing, hapart, isValid_of_mem_flatMap_below hcan hf,
        ofList_flatMap_below hcan hf⟩
  · rw [refine, checkGrid_of_lt hlt]
    rfl
  · rw [refine, checkGrid_of_le hleast, if_pos hstride]
    rfl

/-- A cell of the first level and one of the third, on the grid of the levels two, four and so
on. -/
theorem refine_of_normal_two :
    let A : Cover := ⟨[⟨0x4c00000000000000⟩, ⟨0x5b40000000000000⟩]⟩
    ((∀ c ∈ A.cells, c.isValid = true) ∧ A.isNormal? = .ok true) ∧
      (∃ parts : List (List Cell), A.refine 2 2 = .ok parts.flatten ∧ parts.length = 2 ∧
        parts.flatten.Pairwise (· < ·) ∧ ofList parts.flatten = .ok A) ∧
      A.refine 31 4 = .error (.refused (.levelOutOfRange 31)) ∧
      A.refine 2 4 = .error (.refused (.strideOutOfRange 4)) := by
  intro A
  have hv : ∀ c ∈ A.cells, c.isValid = true := by decide
  have hA : A.isNormal? = .ok true := by decide +kernel
  obtain ⟨parts, hparts, hcells, hinc, _, _, hback⟩ :=
    (refine_of_normal A 2 2 hv hA).1 (by decide) (by decide) (by decide)
  exact ⟨⟨hv, hA⟩, ⟨parts, hparts, hcells.length_eq.symm, hinc, hback⟩,
    (refine_of_normal A 31 4 hv hA).2.1 (by decide),
    (refine_of_normal A 2 4 hv hA).2.2 (by decide) (by decide)⟩

example : refine ⟨[⟨0x4c00000000000000⟩, ⟨0x5b40000000000000⟩]⟩ 2 2 =
    .ok [⟨0x4900000000000000⟩, ⟨0x4b00000000000000⟩, ⟨0x4d00000000000000⟩, ⟨0x4f00000000000000⟩,
      ⟨0x5b10000000000000⟩, ⟨0x5b30000000000000⟩, ⟨0x5b50000000000000⟩, ⟨0x5b70000000000000⟩] := by
  decide +kernel

end Cover

end QuadSphere
