import QuadSphere.Cover.Grow
import QuadSphere.Proofs.Algebra
import QuadSphere.Proofs.Neighbours

/-!
# Growth

`IsNear l cells x` says that a leaf is near a list of cells: it lies in a cell of the level `l` that
has a leaf in common with the list, or in a neighbour of such a cell.  This depends on the leaves of
the list only.  A cell that is not finer than the level has the cells of its block near it
(`isNear_singleton_iff`), and a finer one has the same leaves near it as its ancestor has
(`isNear_ancestor_iff`), and so have the cells below that ancestor.

* `spread?_spec`: the scan finds the leaves near a list.
* `growAt_spec`: growing a cover gives the leaves near it.
* `level_le_of_mem`: no cell is finer than it has to be.
* `growByLevel_of_valid`: growth is that of the region, cell by cell.
-/

namespace QuadSphere

open Cell

/-- The leaf lies in a cell of the level that has a leaf in common with the list, or in a neighbour
of such a cell. -/
def IsNear (l : Nat) (cells : List Cell) (x : UInt64) : Prop :=
  ∃ a : Cell, a.isValid = true ∧ a.level = l ∧ (∃ y, a.HasLeaf y ∧ HasLeaf cells y) ∧
    HasLeaf (a :: a.neighbours l) x

variable {c a : Cell} {cells cells' : List Cell} {l : Nat} {x : UInt64}

/-! ## What is near a list -/

theorem IsNear.mono (h : IsNear l cells x) (hsub : ∀ y, HasLeaf cells y → HasLeaf cells' y) :
    IsNear l cells' x := by
  obtain ⟨a, ha, hal, ⟨y, hy, hy'⟩, hx⟩ := h
  exact ⟨a, ha, hal, ⟨y, hy, hsub y hy'⟩, hx⟩

theorem isNear_congr (h : ∀ y, HasLeaf cells y ↔ HasLeaf cells' y) (l : Nat) (x : UInt64) :
    IsNear l cells x ↔ IsNear l cells' x :=
  ⟨fun hx => hx.mono fun y => (h y).mp, fun hx => hx.mono fun y => (h y).mpr⟩

theorem not_isNear_nil (l : Nat) (x : UInt64) : ¬IsNear l [] x := by
  rintro ⟨_, _, _, ⟨y, _, hy⟩, _⟩
  exact hasLeaf_nil y hy

theorem isNear_append (l : Nat) (cells cells' : List Cell) (x : UInt64) :
    IsNear l (cells ++ cells') x ↔ IsNear l cells x ∨ IsNear l cells' x := by
  constructor
  · rintro ⟨a, ha, hal, ⟨y, hy, hy'⟩, hx⟩
    rcases (hasLeaf_append cells cells' y).mp hy' with h | h
    · exact Or.inl ⟨a, ha, hal, ⟨y, hy, h⟩, hx⟩
    · exact Or.inr ⟨a, ha, hal, ⟨y, hy, h⟩, hx⟩
  · rintro (h | h)
    · exact h.mono fun y hy => (hasLeaf_append cells cells' y).mpr (Or.inl hy)
    · exact h.mono fun y hy => (hasLeaf_append cells cells' y).mpr (Or.inr hy)

/-- **Near a cell that is not finer than the level are the cell and its neighbours.** -/
theorem isNear_singleton_iff (hc : c.isValid = true) (hcl : c.level ≤ l) (hl : l ≤ leafLevel)
    (x : UInt64) : IsNear l [c] x ↔ HasLeaf (c :: c.neighbours l) x := by
  rw [hasLeaf_cons_neighbours_iff hc hcl hl]
  constructor
  · rintro ⟨a, ha, hal, ⟨y, hy, hy'⟩, hx⟩
    rw [hasLeaf_singleton] at hy'
    rw [hasLeaf_cons_neighbours_iff ha (Nat.le_of_eq hal) hl] at hx
    obtain ⟨n, hn, hx⟩ := hx
    have hcov := covers_of_hasLeaf hc ha (by rw [hal]; exact hcl) hy' hy
    exact ⟨n, (closeTo_iff_exists hc hcl hl).mpr ⟨a, ha, hal, hcov, hn⟩, hx⟩
  · rintro ⟨n, hn, hx⟩
    obtain ⟨a, ha, hal, hcov, hn⟩ := (closeTo_iff_exists hc hcl hl).mp hn
    have hfirst := hasLeaf_firstLeaf (ne_null_of_isValid ha)
    have hmeet := (covers_iff (ne_null_of_isValid hc) (ne_null_of_isValid ha)).mp hcov _ hfirst
    refine ⟨a, ha, hal, ⟨_, hfirst, (hasLeaf_singleton c _).mpr hmeet⟩, ?_⟩
    exact (hasLeaf_cons_neighbours_iff ha (Nat.le_of_eq hal) hl x).mpr ⟨n, hn, hx⟩

/-- **Near a fine cell are the same leaves as near its ancestor.** -/
theorem isNear_ancestor_iff (hc : c.isValid = true) (hl : l ≤ c.level) (x : UInt64) :
    IsNear l [c] x ↔ IsNear l [c.ancestor l] x := by
  obtain ⟨ha, hal, hcov⟩ := ancestor_spec hc hl
  have hc0 := ne_null_of_isValid hc
  have hsub := (covers_iff (ne_null_of_isValid ha) hc0).mp hcov
  constructor
  · intro h
    refine h.mono fun y hy => ?_
    rw [hasLeaf_singleton] at hy ⊢
    exact hsub y hy
  · rintro ⟨b, hb, hbl, ⟨y, hy, hy'⟩, hx⟩
    have hfirst := hasLeaf_firstLeaf hc0
    obtain rfl := eq_of_hasLeaf hb ha (hbl.trans hal.symm) hy ((hasLeaf_singleton _ y).mp hy')
    exact ⟨_, ha, hal, ⟨_, hsub _ hfirst, (hasLeaf_singleton c _).mpr hfirst⟩, hx⟩

/-! ## The scan -/

/-- The cells of `out` are not finer than the level, and have the leaves near the list. -/
structure Spreads (l : Nat) (cells out : List Cell) : Prop where
  valid : ∀ c ∈ out, c.isValid = true
  level_le : ∀ c ∈ out, c.level ≤ l
  leaves : ∀ x, HasLeaf out x ↔ IsNear l cells x

theorem Spreads.nil : Spreads l [] [] :=
  ⟨by simp, by simp, fun x => iff_of_false (hasLeaf_nil x) (not_isNear_nil l x)⟩

theorem Spreads.cons {out : List Cell} (h : Spreads l cells out) (hc : c.isValid = true)
    (hcl : c.level ≤ l) (hl : l ≤ leafLevel) :
    Spreads l ([c] ++ cells) (c :: c.neighbours l ++ out) := by
  have hn := neighbours_spec hc hcl hl
  refine ⟨?_, ?_, fun x => ?_⟩
  · intro d hd
    rcases List.mem_append.mp hd with hd | hd
    · rcases List.mem_cons.mp hd with rfl | hd
      · exact hc
      · exact (hn d hd).1
    · exact h.valid d hd
  · intro d hd
    rcases List.mem_append.mp hd with hd | hd
    · rcases List.mem_cons.mp hd with rfl | hd
      · exact hcl
      · exact Nat.le_of_eq (hn d hd).2
    · exact h.level_le d hd
  · rw [hasLeaf_append, isNear_append, isNear_singleton_iff hc hcl hl, h.leaves]

theorem isNear_dropWhile_iff (hc : c.isValid = true) (hl : l ≤ c.level)
    (hv : ∀ d ∈ cells, d.isValid = true) (x : UInt64) :
    IsNear l ([c.ancestor l] ++ cells.dropWhile (c.ancestor l).contains) x ↔
      IsNear l ([c] ++ cells) x := by
  obtain ⟨ha, hal, hcov⟩ := ancestor_spec hc hl
  have ha0 := ne_null_of_isValid ha
  have hbelow : ∀ d ∈ cells.takeWhile (c.ancestor l).contains, (c.ancestor l).Covers d := by
    intro d hd
    have hd0 := ne_null_of_isValid (hv d ((List.takeWhile_subset _) hd))
    exact (contains_iff ha0 hd0).mp (List.mem_takeWhile_imp hd)
  rw [isNear_append, isNear_append, isNear_ancestor_iff hc hl]
  constructor
  · rintro (h | h)
    · exact Or.inl h
    · refine Or.inr (h.mono ?_)
      rintro y ⟨d, hd, hy⟩
      exact ⟨d, (List.dropWhile_subset _) hd, hy⟩
  · rintro (h | h)
    · exact Or.inl h
    · rw [← List.takeWhile_append_dropWhile (p := (c.ancestor l).contains) (l := cells),
        isNear_append] at h
      rcases h with h | h
      · refine Or.inl (h.mono ?_)
        rintro y ⟨d, hd, hy⟩
        have hd0 := ne_null_of_isValid (hv d ((List.takeWhile_subset _) hd))
        exact (hasLeaf_singleton _ y).mpr ((covers_iff ha0 hd0).mp (hbelow d hd) y hy)
      · exact Or.inr h

namespace Cover

theorem spread?_spec (hl : l ≤ leafLevel) (hv : ∀ c ∈ cells, c.isValid = true) :
    ∃ out, spread? l cells = .ok out ∧ Spreads l cells out := by
  -- the recursion skips cells, so the induction is on the length
  induction hn : cells.length using Nat.strong_induction_on generalizing cells with
  | _ n ih =>
    subst hn
    cases cells with
    | nil => exact ⟨[], by rw [spread?], Spreads.nil⟩
    | cons c before =>
      obtain ⟨hc, hvb⟩ := List.forall_mem_cons.mp hv
      rw [spread?]
      by_cases hfine : l < c.level
      · obtain ⟨ha, hal, _⟩ := ancestor_spec hc (Nat.le_of_lt hfine)
        have hsub := List.dropWhile_sublist (l := before) (c.ancestor l).contains
        obtain ⟨out, hout, hspreads⟩ := ih (before.dropWhile (c.ancestor l).contains).length
          (Nat.lt_succ_of_le hsub.length_le) (fun d hd => hvb d (hsub.subset hd)) rfl
        have hcons := hspreads.cons ha (Nat.le_of_eq hal) hl
        refine ⟨_, ?_, hcons.valid, hcons.level_le, fun x => ?_⟩
        · rw [if_pos ((marker_lt_markerAt_iff hc).mpr hfine), ancestor?,
            if_pos (Nat.le_of_lt hfine)]
          simp only [ok_bind, neighbours?_eq_ok (Nat.le_of_eq hal) hl, hout, pure_eq_ok]
        · rw [hcons.leaves, isNear_dropWhile_iff hc (Nat.le_of_lt hfine) hvb, List.singleton_append]
      · have hcl : c.level ≤ l := Nat.le_of_not_lt hfine
        obtain ⟨out, hout, hspreads⟩ := ih before.length (Nat.lt_succ_self _) hvb rfl
        refine ⟨_, ?_, hspreads.cons hc hcl hl⟩
        rw [if_neg (mt (marker_lt_markerAt_iff hc).mp hfine)]
        simp only [ok_bind, neighbours?_eq_ok hcl hl, hout, pure_eq_ok]

theorem level_le_of_mem {out : List Cell} {B : Cover} (hB : IsCanonical B.cells)
    (hv : ∀ c ∈ out, c.isValid = true) (hlevel : ∀ c ∈ out, c.level ≤ l)
    (hleaf : ∀ x, HasLeaf B.cells x ↔ HasLeaf out x) : ∀ c ∈ B.cells, c.level ≤ l := by
  intro c hc
  have hcv := hB.valid c hc
  have hfirst := hasLeaf_firstLeaf (ne_null_of_isValid hcv)
  obtain ⟨d, hd, hx⟩ := (hleaf _).mp ⟨c, hc, hfirst⟩
  have hdv := hv d hd
  obtain ⟨e, he, hed⟩ := hB.exists_covers hdv fun x hx => (hleaf x).mpr ⟨d, hd, hx⟩
  by_contra hlt
  have hdl := hlevel d hd
  have hdc := covers_of_hasLeaf hdv hcv (by omega) hx hfirst
  obtain rfl := hB.eq_of_covers he hc (hed.trans hdc)
  have := level_le_of_covers hcv hdv hed
  omega

/-- **Growing a cover gives the leaves near it**, in cells that are not finer than the level. -/
theorem growAt_spec {A : Cover} (hl : l ≤ leafLevel) (hv : ∀ c ∈ A.cells, c.isValid = true) :
    ∃ B, A.growAt l = .ok B ∧ IsCanonical B.cells ∧ (∀ c ∈ B.cells, c.level ≤ l) ∧
      ∀ x, HasLeaf B.cells x ↔ IsNear l A.cells x := by
  have hrev : ∀ c ∈ A.cells.reverse, c.isValid = true := fun c hc =>
    hv c (List.mem_reverse.mp hc)
  obtain ⟨out, hout, hspreads⟩ := spread?_spec hl hrev
  obtain ⟨B, hB, hcan, hleaf⟩ := ofList_of_valid hspreads.valid
  refine ⟨B, ?_, hcan, level_le_of_mem hcan hspreads.valid hspreads.level_le hleaf, fun x => ?_⟩
  · rw [growAt, hout]
    exact hB
  · rw [hleaf, hspreads.leaves]
    exact isNear_congr (hasLeaf_of_perm A.cells.reverse_perm) l x

theorem isNear_of_hasLeaf (hl : l ≤ leafLevel) (hv : ∀ c ∈ cells, c.isValid = true)
    (hx : HasLeaf cells x) : IsNear l cells x := by
  obtain ⟨c, hc, hcx⟩ := hx
  obtain ⟨p, hp, rfl⟩ := exists_ofPlace (hv c hc) hcx
  have ha := hasLeaf_cell hp hl
  exact ⟨p.cell l, isValid_cell hp hl, level_cell hp hl, ⟨_, ha, c, hc, hcx⟩,
    (hasLeaf_cons _ _ _).mpr (Or.inl ha)⟩

/-- **Growth is that of the region.**  The grown cover has the leaves of all the cells of the level
that have a leaf in common with the cover, and of their neighbours, taken one by one, and no cell of
it is finer than the level.  Any other list of cells with the same leaves grows to the same cover.
Where there is no such level, the request is refused. -/
theorem growByLevel_of_valid (A : Cover) (level : Nat) (hA : ∀ c ∈ A.cells, c.isValid = true) :
    (level ≤ leafLevel → ∃ B, A.growByLevel level = .ok B ∧ B.isNormal? = .ok true ∧
      (∀ c ∈ B.cells, c.isValid = true ∧ c.level ≤ level) ∧
      (∀ x, HasLeaf B.cells x ↔ ∃ a : Cell, a.isValid = true ∧ a.level = level ∧
        (∃ y, a.HasLeaf y ∧ HasLeaf A.cells y) ∧
        ∃ around, a.neighbours? level = .ok around ∧ (a.HasLeaf x ∨ HasLeaf around x)) ∧
      (∀ x, HasLeaf A.cells x → HasLeaf B.cells x) ∧
      ∀ A' : Cover, (∀ c ∈ A'.cells, c.isValid = true) →
        (∀ x, HasLeaf A'.cells x ↔ HasLeaf A.cells x) → A'.growByLevel level = .ok B) ∧
    (leafLevel < level → A.growByLevel level = .error (.refused (.levelOutOfRange level))) := by
  constructor
  · intro hl
    have hgrow : ∀ A' B : Cover, A'.growAt level = .ok B → A'.growByLevel level = .ok B := by
      intro A' B hB
      rw [growByLevel, checkLevel, if_pos hl, hB]
      rfl
    obtain ⟨B, hB, hcan, hlevel, hleaf⟩ := growAt_spec hl hA
    refine ⟨B, hgrow A B hB, hcan.isNormal?_eq, fun c hc => ⟨hcan.valid c hc, hlevel c hc⟩,
      fun x => (hleaf x).trans ?_, fun x hx => (hleaf x).mpr (isNear_of_hasLeaf hl hA hx), ?_⟩
    · constructor
      · rintro ⟨a, ha, hal, hmeet, hx⟩
        exact ⟨a, ha, hal, hmeet, _, neighbours?_eq_ok (Nat.le_of_eq hal) hl,
          (hasLeaf_cons _ _ x).mp hx⟩
      · rintro ⟨a, ha, hal, hmeet, around, hn, hx⟩
        rw [neighbours?_eq_ok (Nat.le_of_eq hal) hl, Except.ok.injEq] at hn
        exact ⟨a, ha, hal, hmeet, (hasLeaf_cons _ _ x).mpr (hn ▸ hx)⟩
    · intro A' hA' hsame
      obtain ⟨B', hB', hcan', _, hleaf'⟩ := growAt_spec hl hA'
      have hcells : B'.cells = B.cells := by
        refine hcan'.eq_of_same_leaves hcan fun x => ?_
        rw [hleaf, hleaf']
        exact isNear_congr hsame level x
      apply hgrow
      rw [hB', show B' = B from congrArg Cover.mk hcells]
  · intro hl
    rw [growByLevel, checkLevel, if_neg (Nat.not_le_of_lt hl)]
    rfl

/-- A cell and a leaf on another face, grown on a level in between and on none. -/
theorem growByLevel_of_valid_two :
    let A : Cover := ⟨[⟨0x0400000000000000⟩, ⟨0x2000000000000001⟩]⟩
    (∀ c ∈ A.cells, c.isValid = true) ∧
      (∃ B, A.growByLevel 3 = .ok B ∧ B.isNormal? = .ok true ∧
        (∀ c ∈ B.cells, c.isValid = true ∧ c.level ≤ 3) ∧
        ∀ x, HasLeaf A.cells x → HasLeaf B.cells x) ∧
      A.growByLevel 31 = .error (.refused (.levelOutOfRange 31)) := by
  intro A
  have hA : ∀ c ∈ A.cells, c.isValid = true := by decide
  obtain ⟨B, hB, hnormal, hcells, _, hsub, _⟩ := (growByLevel_of_valid A 3 hA).1 (by decide)
  exact ⟨hA, ⟨B, hB, hnormal, hcells, hsub⟩, (growByLevel_of_valid A 31 hA).2 (by decide)⟩

end Cover

end QuadSphere
