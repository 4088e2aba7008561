import QuadSphere.Proofs.GrowthLaws

/-!
# Growth by a radius

A radius may be any floating-point number, and is turned into a level by a logarithm.  Nothing has
to be known about that number: whatever level it stands for is cut off at that of the leaves, and
again so many levels below the coarsest cells.  So growth by a radius is growth on one level, or,
where the radius is wider than a face, two steps on the level of the faces, and has what all growth
has in common (`GrowsTo`).

* `growByRadius_eq`: which steps of growth a radius stands for.
* `growByRadius_spec`: a radius always makes a cover grow.
* `growByRadius_of_normal`: growth goes outwards, and no finer than it may.
-/

namespace QuadSphere.Cover

open Cell

variable {A B C : Cover} {k l : Nat}

/-! ## The level of a radius -/

theorem foldl_min_level_le (cells : List Cell) (l : Nat) :
    cells.foldl (fun l c => min l c.level) l ≤ l ∧
      ∀ c ∈ cells, cells.foldl (fun l c => min l c.level) l ≤ c.level := by
  induction cells generalizing l with
  | nil => simp
  | cons d cells ih =>
    obtain ⟨hle, hall⟩ := ih (min l d.level)
    rw [List.foldl_cons]
    refine ⟨hle.trans (Nat.min_le_left _ _), List.forall_mem_cons.mpr ⟨?_, hall⟩⟩
    exact hle.trans (Nat.min_le_right _ _)

theorem coarsestLevel_le {c : Cell} (hc : c ∈ A.cells) : A.coarsestLevel ≤ c.level :=
  (foldl_min_level_le A.cells leafLevel).2 c hc

/-- **The steps of growth that a radius stands for**: one, or two on the level of the faces. -/
theorem growByRadius_eq (A : Cover) (radius : Angle) (finer : Nat) :
    ∃ l, l ≤ leafLevel ∧ l ≤ A.coarsestLevel + finer ∧
      (A.growByRadius radius finer = A.growAt l ∨
        radius.radians > Scale.minWidth.value 0 ∧ l = 0 ∧
          A.growByRadius radius finer = do (← A.growAt 0).growAt 0) := by
  have hwide := Scale.minWidth.finestLevel_le radius.radians
  rw [growByRadius]
  generalize Scale.minWidth.finestLevel radius.radians = wide at hwide
  refine ⟨min (A.coarsestLevel + finer) wide, (Nat.min_le_right _ _).trans hwide,
    Nat.min_le_left _ _, ?_⟩
  by_cases hcond : wide = 0 ∧ radius.radians > Scale.minWidth.value 0
  · obtain ⟨rfl, hradius⟩ := hcond
    rw [Nat.min_zero, if_pos ⟨rfl, hradius⟩]
    exact Or.inr ⟨hradius, rfl, rfl⟩
  · exact Or.inl (if_neg hcond)

/-! ## Steps of growth -/

/-- The cover `B` contains `A`, has no cell finer than the level, and is empty if `A` is. -/
structure GrowsTo (l : Nat) (A B : Cover) : Prop where
  canonical : IsCanonical B.cells
  level_le : ∀ c ∈ B.cells, c.level ≤ l
  leaves : ∀ x, HasLeaf A.cells x → HasLeaf B.cells x
  empty : A.cells = [] → B.cells = []

theorem growsTo_of_growAt (hl : l ≤ leafLevel) (hv : ∀ c ∈ A.cells, c.isValid = true) :
    ∃ B, A.growAt l = .ok B ∧ GrowsTo l A B := by
  obtain ⟨B, hB, hcan, hlevel, hleaf⟩ := growAt_spec hl hv
  refine ⟨B, hB, hcan, hlevel, fun x hx => (hleaf x).mpr (isNear_of_hasLeaf hl hv hx), ?_⟩
  intro hA
  refine hcan.eq_nil_iff.mpr fun x hx => not_isNear_nil l x ?_
  rw [← hA]
  exact (hleaf x).mp hx

theorem GrowsTo.trans (h : GrowsTo k A B) (h' : GrowsTo l B C) : GrowsTo l A C where
  canonical := h'.canonical
  level_le := h'.level_le
  leaves x hx := h'.leaves x (h.leaves x hx)
  empty hA := h'.empty (h.empty hA)

theorem GrowsTo.cells_eq_nil_iff (h : GrowsTo l A B) (hA : IsCanonical A.cells) :
    B.cells = [] ↔ A.cells = [] := by
  constructor
  · intro hB
    refine hA.eq_nil_iff.mpr fun x hx => ?_
    exact h.canonical.eq_nil_iff.mp hB x (h.leaves x hx)
  · exact h.empty

theorem GrowsTo.containsCover?_eq_ok (h : GrowsTo l A B) (hA : IsCanonical A.cells) :
    B.containsCover? A = .ok true := by
  obtain ⟨t, ht, hsub⟩ := containsCover?_spec h.canonical hA
  rw [ht, hsub.mpr h.leaves]

theorem growByRadius_spec (hv : ∀ c ∈ A.cells, c.isValid = true) (radius : Angle) (finer : Nat) :
    ∃ l B, l ≤ leafLevel ∧ l ≤ A.coarsestLevel + finer ∧ A.growByRadius radius finer = .ok B ∧
      GrowsTo l A B ∧
      (A.growAt l = .ok B ∨ radius.radians > Scale.minWidth.value 0 ∧ l = 0 ∧
        ∃ C, A.growAt 0 = .ok C ∧ C.growAt 0 = .ok B) := by
  obtain ⟨l, hl, hfiner, hone | ⟨hradius, rfl, htwo⟩⟩ := growByRadius_eq A radius finer
  · obtain ⟨B, hB, hgrows⟩ := growsTo_of_growAt hl hv
    exact ⟨l, B, hl, hfiner, hone.trans hB, hgrows, Or.inl hB⟩
  · obtain ⟨C, hC, hgrowsC⟩ := growsTo_of_growAt hl hv
    obtain ⟨B, hB, hgrowsB⟩ := growsTo_of_growAt hl hgrowsC.canonical.valid
    refine ⟨0, B, hl, hfiner, ?_, hgrowsC.trans hgrowsB, Or.inr ⟨hradius, rfl, C, hC, hB⟩⟩
    rw [htwo, hC, ok_bind, hB]

/-- **Growth by a radius goes outwards and has a limit.**  A radius is any floating-point number.
The cover that is grown by it contains the cover that there was, is empty only with it, and is what
the growth on one level leads to, or that in two steps on the level of the faces.  That level and
those of the cells are at most `finer` levels finer than the coarsest cells that there were. -/
theorem growByRadius_of_normal (A : Cover) (radius : Angle) (finer : Nat)
    (hA : ∀ c ∈ A.cells, c.isValid = true) (hnA : A.isNormal? = .ok true) :
    ∃ B l, A.growByRadius radius finer = .ok B ∧ B.isNormal? = .ok true ∧
      (∀ c ∈ B.cells, c.isValid = true) ∧ B.containsCover? A = .ok true ∧
      (B.isEmpty = true ↔ A.isEmpty = true) ∧
      (∀ m, IsLeast {k | ∃ a ∈ A.cells, a.level = k} m →
        l ≤ min leafLevel (m + finer) ∧ ∀ c ∈ B.cells, c.level ≤ min leafLevel (m + finer)) ∧
      (A.growByLevel l = .ok B ∨ radius.radians > Scale.minWidth.value 0 ∧ l = 0 ∧
        ∃ C, A.growByLevel 0 = .ok C ∧ C.growByLevel 0 = .ok B) := by
  have hcan : IsCanonical A.cells := isCanonical_iff.mpr ⟨hA, hnA⟩
  obtain ⟨l, B, hl, hfiner, hB, hgrows, hsteps⟩ := growByRadius_spec hA radius finer
  refine ⟨B, l, hB, hgrows.canonical.isNormal?_eq, hgrows.canonical.valid,
    hgrows.containsCover?_eq_ok hcan, ?_, ?_, ?_⟩
  · rw [isEmpty, isEmpty, List.isEmpty_iff, List.isEmpty_iff]
    exact hgrows.cells_eq_nil_iff hcan
  · rintro m ⟨⟨a, ha, rfl⟩, _⟩
    have hcoarsest := coarsestLevel_le ha
    have hlimit : l ≤ min leafLevel (a.level + finer) := Nat.le_min.mpr ⟨hl, by omega⟩
    exact ⟨hlimit, fun c hc => (hgrows.level_le c hc).trans hlimit⟩
  · refine hsteps.imp (growByLevel_of_growAt hl) ?_
    rintro ⟨hradius, rfl, C, hC, hB⟩
    exact ⟨hradius, rfl, C, growByLevel_of_growAt hl hC, growByLevel_of_growAt hl hB⟩

/-- A cell of the level 2 and a leaf on another face, grown by a radius that is no number. -/
theorem growByRadius_of_normal_two :
    let A : Cover := ⟨[⟨0x0100000000000000⟩, ⟨0x2000000000000001⟩]⟩
    ((∀ c ∈ A.cells, c.isValid = true) ∧ A.isNormal? = .ok true ∧
      IsLeast {k | ∃ a ∈ A.cells, a.level = k} 2) ∧
      ∃ B, A.growByRadius ⟨0 / 0⟩ 3 = .ok B ∧ B.isNormal? = .ok true ∧
        B.containsCover? A = .ok true ∧ B.isEmpty = false ∧ ∀ c ∈ B.cells, c.level ≤ 5 := by
  intro A
  have hA : ∀ c ∈ A.cells, c.isValid = true := by decide
  have hleast : IsLeast {k | ∃ a ∈ A.cells, a.level = k} 2 := by
    refine ⟨⟨⟨0x0100000000000000⟩, by decide, by decide⟩, ?_⟩
    rintro _ ⟨a, ha, rfl⟩
    revert a
    decide
  obtain ⟨B, l, hB, hnormal, _, hcontains, hempty, hlimit, _⟩ :=
    growByRadius_of_normal A ⟨0 / 0⟩ 3 hA rfl
  refine ⟨⟨hA, rfl, hleast⟩, B, hB, hnormal, hcontains, ?_, (hlimit 2 hleast).2⟩
  exact Bool.eq_false_iff.mpr fun h => Bool.false_ne_true (hempty.mp h)

end QuadSphere.Cover
