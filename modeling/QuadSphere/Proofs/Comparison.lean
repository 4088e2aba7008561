import QuadSphere.Proofs.Algebra

/-!
# Covers compared

Whether a cover contains another one, or has a leaf in common with it, is found out by a scan that
never goes back in either list.  A cell that the scan leaves behind ends before the next cell of the
other list begins, so it ends before all further ones too, and neither covers nor meets any of them.

* `exists_passed`: the cells that are left behind.
* `coversAll_iff`, `overlap_iff`: what the two scans find out about cells.
* `containsCover?_spec`, `intersectsCover?_spec`: what they find out about leaves.
* `comparisons_agree`: union, intersection and difference lead to the same answers.
-/

namespace QuadSphere.Cover

open Cell

variable {A B : Cover} {xs ys front : List Cell} {x y : Cell}

/-! ## Cells that are left behind -/

theorem exists_covers_cons_iff (hs : Separated (x :: xs)) (hreach : ¬x.Before y) :
    (∃ e ∈ x :: xs, e.Covers y) ↔ x.Covers y := by
  constructor
  · rintro ⟨e, he, hcov⟩
    rcases List.mem_cons.mp he with rfl | he
    · exact hcov
    · exact absurd (Nat.le_trans (List.rel_of_pairwise_cons hs.pairwise he) hcov.1) hreach
  · intro hcov
    exact ⟨x, List.mem_cons_self, hcov⟩

theorem exists_covers_append_iff (hy : y ≠ null) (hfront : ∀ e ∈ front, e.Before y) :
    (∃ e ∈ front ++ xs, e.Covers y) ↔ ∃ e ∈ xs, e.Covers y := by
  constructor
  · rintro ⟨e, he, hcov⟩
    rcases List.mem_append.mp he with he | he
    · exact absurd (hfront e he) (hcov.meets hy).1
    · exact ⟨e, he, hcov⟩
  · rintro ⟨e, he, hcov⟩
    exact ⟨e, List.mem_append_right front he, hcov⟩

/-- The scan leaves the cells behind that end before `y`, and stops at one that reaches `y`. -/
theorem exists_passed (hx : Separated xs) (hy : y ≠ null) :
    ∃ front, xs = front ++ xs.dropWhile (·.lastLeaf < y.firstLeaf) ∧ (∀ e ∈ front, e.Before y) ∧
      ∀ e ∈ (xs.dropWhile (·.lastLeaf < y.firstLeaf)).head?, ¬e.Before y := by
  refine ⟨xs.takeWhile (·.lastLeaf < y.firstLeaf), List.takeWhile_append_dropWhile.symm, ?_, ?_⟩
  · intro e he
    have he0 := hx.ne_null e ((List.takeWhile_sublist _).subset he)
    have hlt := List.mem_takeWhile_imp he
    exact (lastLeaf_lt_firstLeaf_iff he0 hy).mp (by simpa using hlt)
  · intro e he
    have he0 := hx.ne_null e ((List.dropWhile_sublist _).subset (List.mem_of_mem_head? he))
    have hnot := List.head?_dropWhile_not (·.lastLeaf < y.firstLeaf) xs
    rw [Option.mem_def.mp he] at hnot
    rw [← lastLeaf_lt_firstLeaf_iff he0 hy]
    simpa using hnot

/-! ## The two scans -/

/-- **The first scan** finds out whether every cell of the second list lies in one of the first. -/
theorem coversAll_iff (hx : Separated xs) (hy : Separated ys) :
    coversAll xs ys = true ↔ ∀ y ∈ ys, ∃ x ∈ xs, x.Covers y := by
  induction ys generalizing xs with
  | nil => simp [coversAll]
  | cons y ys ih =>
    obtain ⟨front, hsplit, hfront, hhead⟩ := exists_passed hx hy.head
    rw [coversAll]
    generalize xs.dropWhile (·.lastLeaf < y.firstLeaf) = rest at hsplit hhead ⊢
    subst hsplit
    -- what is left behind is of no use for the cells of the second list
    have hdrop : (∀ z ∈ y :: ys, ∃ e ∈ front ++ rest, e.Covers z) ↔
        ∀ z ∈ y :: ys, ∃ e ∈ rest, e.Covers z := by
      refine forall₂_congr fun z hz => exists_covers_append_iff (hy.ne_null z hz) fun e he => ?_
      exact hy.before_of_mem (hfront e he) hz
    rw [hdrop, List.forall_mem_cons]
    cases rest with
    | nil => simp
    | cons x rest =>
      have hrest : Separated (x :: rest) := hx.of_append
      dsimp only
      rw [Bool.and_eq_true, contains_iff hrest.head hy.head, ih hrest hy.tail,
        exists_covers_cons_iff hrest (hhead x rfl)]

/-- **The second scan** finds out whether a cell of one list meets one of the other. -/
theorem overlap_iff (hx : Separated xs) (hy : Separated ys) :
    overlap xs ys = true ↔ ∃ x ∈ xs, ∃ y ∈ ys, x.Meets y := by
  fun_induction overlap xs ys with
  | case1 x xs y ys hlt ih =>
    have hbefore := (lastLeaf_lt_firstLeaf_iff hx.head hy.head).mp hlt
    have hno : ¬∃ z ∈ y :: ys, x.Meets z := by
      rintro ⟨z, hz, hmeet⟩
      exact hmeet.1 (hy.before_of_mem hbefore hz)
    rw [ih hx.tail hy, List.exists_mem_cons_iff, or_iff_right hno]
  | case2 x xs y ys _ hlt ih =>
    have hbefore := (lastLeaf_lt_firstLeaf_iff hy.head hx.head).mp hlt
    have hno : ∀ z ∈ x :: xs, ¬z.Meets y := by
      intro z hz hmeet
      exact hmeet.2 (hx.before_of_mem hbefore hz)
    rw [ih hx hy.tail]
    refine exists_congr fun z => and_congr_right fun hz => ?_
    rw [List.exists_mem_cons_iff, or_iff_right (hno z hz)]
  | case3 x xs y ys hxy hyx =>
    have hmeet : x.Meets y := by
      rw [lastLeaf_lt_firstLeaf_iff hx.head hy.head] at hxy
      rw [lastLeaf_lt_firstLeaf_iff hy.head hx.head] at hyx
      exact ⟨hxy, hyx⟩
    exact iff_of_true rfl ⟨x, List.mem_cons_self, y, List.mem_cons_self, hmeet⟩
  | case4 xs ys hempty =>
    refine iff_of_false Bool.false_ne_true ?_
    rintro ⟨x, hx, y, hy, _⟩
    obtain ⟨a, as, rfl⟩ := List.exists_cons_of_ne_nil (List.ne_nil_of_mem hx)
    obtain ⟨b, bs, rfl⟩ := List.exists_cons_of_ne_nil (List.ne_nil_of_mem hy)
    exact hempty a as b bs rfl rfl

/-! ## What the scans say about leaves -/

theorem eq_iff_leaves (hA : IsCanonical A.cells) (hB : IsCanonical B.cells) :
    A = B ↔ ∀ x, HasLeaf A.cells x ↔ HasLeaf B.cells x := by
  constructor
  · rintro rfl x
    exact Iff.rfl
  · intro h
    cases A; cases B
    exact congrArg Cover.mk (hA.eq_of_same_leaves hB h)

theorem isEmpty_iff_leaves (hA : IsCanonical A.cells) :
    A.isEmpty = true ↔ ∀ x, ¬HasLeaf A.cells x :=
  List.isEmpty_iff.trans hA.eq_nil_iff

section Questions

variable (hA : IsCanonical A.cells) (hB : IsCanonical B.cells)
include hA hB

theorem requireRanges_eq_ok : requireRanges A B = .ok () := by
  refine if_neg ?_
  rintro ⟨_, _, h | h⟩
  · exact hA.ne_null _ h rfl
  · exact hB.ne_null _ h rfl

theorem containsCover?_eq_ok : A.containsCover? B = .ok (coversAll A.cells B.cells) := by
  rw [containsCover?, requireNormal_of_isCanonical hA, requireNormal_of_isCanonical hB,
    requireRanges_eq_ok hA hB]
  rfl

theorem intersectsCover?_eq_ok : A.intersectsCover? B = .ok (overlap A.cells B.cells) := by
  rw [intersectsCover?, requireNormal_of_isCanonical hA, requireNormal_of_isCanonical hB,
    requireRanges_eq_ok hA hB]
  rfl

theorem containsCover?_spec :
    ∃ t, A.containsCover? B = .ok t ∧
      (t = true ↔ ∀ x, HasLeaf B.cells x → HasLeaf A.cells x) := by
  refine ⟨_, containsCover?_eq_ok hA hB, ?_⟩
  rw [coversAll_iff hA.separated hB.separated]
  constructor
  · rintro h x ⟨c, hc, hx⟩
    exact hA.separated.hasLeaf_of_covers (hB.ne_null c hc) (h c hc) hx
  · intro h c hc
    exact hA.exists_covers (hB.valid c hc) fun x hx => h x ⟨c, hc, hx⟩

theorem intersectsCover?_spec :
    ∃ t, A.intersectsCover? B = .ok t ∧
      (t = true ↔ ∃ x, HasLeaf A.cells x ∧ HasLeaf B.cells x) := by
  refine ⟨_, intersectsCover?_eq_ok hA hB, ?_⟩
  rw [overlap_iff hA.separated hB.separated]
  constructor
  · rintro ⟨c, hc, d, hd, hmeet⟩
    obtain ⟨x, hcx, hdx⟩ := (meets_iff (hA.ne_null c hc) (hB.ne_null d hd)).mp hmeet
    exact ⟨x, ⟨c, hc, hcx⟩, d, hd, hdx⟩
  · rintro ⟨x, ⟨c, hc, hcx⟩, d, hd, hdx⟩
    exact ⟨c, hc, d, hd, (meets_iff (hA.ne_null c hc) (hB.ne_null d hd)).mpr ⟨x, hcx, hdx⟩⟩

end Questions

/-- **The comparisons agree with the algebra.**  One cover contains another one if nothing of that
one is left without it, if that one is their intersection, or if it is itself their union; and two
covers intersect each other if their intersection is not empty.  All five computations end without a
fault. -/
theorem comparisons_agree (A B : Cover) (hA : ∀ c ∈ A.cells, c.isValid = true)
    (hB : ∀ c ∈ B.cells, c.isValid = true) (hnA : A.isNormal? = .ok true)
    (hnB : B.isNormal? = .ok true) :
    ∃ contains intersects D I U,
      A.containsCover? B = .ok contains ∧ A.intersectsCover? B = .ok intersects ∧
        B.difference A = .ok D ∧ A.intersection B = .ok I ∧ A.union B = .ok U ∧
      (contains = true ↔ D.isEmpty = true) ∧ (contains = true ↔ I = B) ∧
      (contains = true ↔ U = A) ∧
      (contains = true ↔ ∀ x, HasLeaf B.cells x → HasLeaf A.cells x) ∧
      (intersects = true ↔ I.isEmpty = false) ∧
      (intersects = true ↔ ∃ x, HasLeaf A.cells x ∧ HasLeaf B.cells x) := by
  have hcanA : IsCanonical A.cells := isCanonical_iff.mpr ⟨hA, hnA⟩
  have hcanB : IsCanonical B.cells := isCanonical_iff.mpr ⟨hB, hnB⟩
  obtain ⟨t, ht, hcontains⟩ := containsCover?_spec hcanA hcanB
  obtain ⟨u, hu, hintersects⟩ := intersectsCover?_spec hcanA hcanB
  obtain ⟨D, hD, hcanD, hleafD⟩ := yields_difference hcanB hcanA
  obtain ⟨I, hI, hcanI, hleafI⟩ := yields_intersection hcanA hcanB
  obtain ⟨U, hU, hcanU, hleafU⟩ := yields_union hcanA hcanB
  refine ⟨t, u, D, I, U, ht, hu, hD, hI, hU, ?_, ?_, ?_, hcontains, ?_, hintersects⟩
  · simp only [hcontains, isEmpty_iff_leaves hcanD, hleafD, not_and, not_not]
  · simp only [hcontains, eq_iff_leaves hcanI hcanB, hleafI, and_iff_right_iff_imp]
  · simp only [hcontains, eq_iff_leaves hcanU hcanA, hleafU, or_iff_left_iff_imp]
  · rw [hintersects, ← Bool.not_eq_true, isEmpty_iff_leaves hcanI]
    simp only [hleafI, not_forall, not_not]

/-- Three children of one cell, and one of them with a part of another. -/
theorem comparisons_agree_children :
    let A : Cover := ⟨[⟨0x4900000000000000⟩, ⟨0x4b00000000000000⟩, ⟨0x4d00000000000000⟩]⟩
    let B : Cover := ⟨[⟨0x4900000000000000⟩, ⟨0x4b40000000000000⟩]⟩
    ((∀ c ∈ A.cells, c.isValid = true) ∧ (∀ c ∈ B.cells, c.isValid = true) ∧
      A.isNormal? = .ok true ∧ B.isNormal? = .ok true) ∧
      A.containsCover? B = .ok true ∧ A.intersection B = .ok B ∧ A.union B = .ok A ∧
      ∃ D, B.difference A = .ok D ∧ D.isEmpty = true := by
  intro A B
  have hA : ∀ c ∈ A.cells, c.isValid = true := by decide
  have hB : ∀ c ∈ B.cells, c.isValid = true := by decide
  have hcontains : A.containsCover? B = .ok true := by decide +kernel
  obtain ⟨t, u, D, I, U, ht, hu, hD, hI, hU, hempty, hinter, hunion, _⟩ :=
    comparisons_agree A B hA hB rfl rfl
  have ht' : t = true := Except.ok.inj (ht.symm.trans hcontains)
  refine ⟨⟨hA, hB, rfl, rfl⟩, hcontains, ?_, ?_, D, hD, hempty.mp ht'⟩
  · rw [hI, hinter.mp ht']
  · rw [hU, hunion.mp ht']

end QuadSphere.Cover
