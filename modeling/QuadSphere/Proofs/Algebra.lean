import QuadSphere.Proofs.Difference
import QuadSphere.Proofs.Intersection

/-!
# The algebra of covers

`Yields r P` says that the computation `r` ends, and that its result is the canonical cover of the
leaves with `P`.  Union, intersection and difference carry such statements over to their results
(`Yields.union`, `Yields.intersection`, `Yields.difference`), and two computations that yield the
same leaves have the same result (`Yields.eq`).  So an equation between covers is an equation
between sets of leaves, whichever algorithms compute the two sides.

The part of a cover within a cell is a slice of its list.  No cell of the slice has to be cut, since
one that sticks out of the cell would cover it (`hasLeaf_filter_contains_iff`).

* `yields_within`, `within_eq_intersection`: the part of a cover within a cell.
* `boolean_laws`: covers are a Boolean algebra, as lists of cells.
-/

namespace QuadSphere.Cover

open Cell

/-- The computation ends with a canonical cover, whose leaves are those with `P`. -/
def Yields (r : Except Fault Cover) (P : UInt64 → Prop) : Prop :=
  ∃ C, r = .ok C ∧ IsCanonical C.cells ∧ ∀ x, HasLeaf C.cells x ↔ P x

variable {r s : Except Fault Cover} {P Q : UInt64 → Prop} {A B C : Cover} {cells : List Cell}

/-! ## The operations -/

theorem yields_self (hA : IsCanonical A.cells) : Yields (.ok A) (HasLeaf A.cells) :=
  ⟨A, rfl, hA, fun _ => Iff.rfl⟩

theorem yields_ofList (hv : ∀ c ∈ cells, c.isValid = true) :
    Yields (ofList cells) (HasLeaf cells) :=
  ofList_of_valid hv

theorem requireNormal_of_isCanonical (hA : IsCanonical A.cells) : A.requireNormal = .ok () :=
  requireNormal_eq_ok (IsCanonical.isNormal?_eq A hA)

theorem Yields.congr (h : Yields r P) (hPQ : ∀ x, P x ↔ Q x) : Yields r Q := by
  obtain ⟨C, hC, hcan, hleaf⟩ := h
  exact ⟨C, hC, hcan, fun x => (hleaf x).trans (hPQ x)⟩

section Operations

variable (hA : IsCanonical A.cells) (hB : IsCanonical B.cells)
include hA hB

theorem yields_union : Yields (A.union B) fun x => HasLeaf A.cells x ∨ HasLeaf B.cells x := by
  have hv : ∀ c ∈ A.cells ++ B.cells, c.isValid = true :=
    List.forall_mem_append.mpr ⟨hA.valid, hB.valid⟩
  exact (yields_ofList hv).congr (hasLeaf_append A.cells B.cells)

theorem yields_intersection :
    Yields (A.intersection B) fun x => HasLeaf A.cells x ∧ HasLeaf B.cells x := by
  obtain ⟨zs, hzs, hcommon⟩ := meet?_spec hA.separated hB.separated
  have hcan : IsCanonical (⟨zs⟩ : Cover).cells := hcommon.isCanonical hA hB
  refine ⟨⟨zs⟩, ?_, hcan, hcommon.leaves⟩
  rw [intersection, requireNormal_of_isCanonical hA, requireNormal_of_isCanonical hB]
  simp only [ok_bind, hzs, requireNormal_of_isCanonical hcan, pure_eq_ok]

theorem yields_difference :
    Yields (A.difference B) fun x => HasLeaf A.cells x ∧ ¬HasLeaf B.cells x := by
  obtain ⟨out, hout, hclears⟩ := clear?_spec hB.separated hA.valid
  have hyields := (yields_ofList hclears.valid).congr hclears.leaves
  rw [difference, requireNormal_of_isCanonical hA, requireNormal_of_isCanonical hB]
  simp only [ok_bind, hout]
  exact hyields

end Operations

/-! ## The part within a cell -/

/-- A cell that has a leaf in common with `c` lies in it, unless it covers it. -/
theorem hasLeaf_filter_contains_iff {c : Cell} (hne : ∀ d ∈ cells, d ≠ null) (hc : c ≠ null)
    (hno : ¬∃ d ∈ cells, d.Covers c) (x : UInt64) :
    HasLeaf (cells.filter c.contains) x ↔ HasLeaf cells x ∧ c.HasLeaf x := by
  constructor
  · rintro ⟨d, hd, hx⟩
    obtain ⟨hd, hcd⟩ := List.mem_filter.mp hd
    have hcov := (contains_iff hc (hne d hd)).mp hcd
    exact ⟨⟨d, hd, hx⟩, (covers_iff hc (hne d hd)).mp hcov x hx⟩
  · rintro ⟨⟨d, hd, hx⟩, hcx⟩
    have hcd := (covers_or_covers (hne d hd) hc hx hcx).resolve_left fun h => hno ⟨d, hd, h⟩
    exact ⟨d, List.mem_filter.mpr ⟨hd, (contains_iff hc (hne d hd)).mpr hcd⟩, hx⟩

theorem yields_within {c : Cell} (hA : IsCanonical A.cells) (hc : c.isValid = true) :
    Yields (A.within c) fun x => HasLeaf A.cells x ∧ c.HasLeaf x := by
  have hc0 := ne_null_of_isValid hc
  obtain ⟨t, ht, hcov⟩ := contains?_spec hA.separated hc0
  rw [within, requireNormal_of_isCanonical hA, ok_bind, ht, ok_bind]
  cases t with
  | true =>
    have hsub := (hA.exists_covers_iff hc).mp (hcov.mp rfl)
    refine ⟨⟨[c]⟩, rfl, isCanonical_singleton hc, fun x => ?_⟩
    exact (hasLeaf_singleton c x).trans (and_iff_right_of_imp (hsub x)).symm
  | false =>
    have hno : ¬∃ d ∈ A.cells, d.Covers c := fun h => Bool.false_ne_true (hcov.mpr h)
    refine ⟨⟨A.cells.filter c.contains⟩, ?_, hA.sublist List.filter_sublist,
      hasLeaf_filter_contains_iff hA.ne_null hc0 hno⟩
    rw [if_neg Bool.false_ne_true, requireRange_eq_ok hc0, ok_bind,
      takeWhile_drop_seek hA.normal.increasing, pure_eq_ok]

/-! ## Computations in several steps -/

/-- An operation on covers that acts on leaves as `R` does so on the results of computations. -/
theorem Yields.bind₂ {op : Cover → Cover → Except Fault Cover} {R : Prop → Prop → Prop}
    (hop : ∀ A B : Cover, IsCanonical A.cells → IsCanonical B.cells →
      Yields (op A B) fun x => R (HasLeaf A.cells x) (HasLeaf B.cells x))
    (hr : Yields r P) (hs : Yields s Q) :
    Yields (do op (← r) (← s)) fun x => R (P x) (Q x) := by
  obtain ⟨A, rfl, hA, hleafA⟩ := hr
  obtain ⟨B, rfl, hB, hleafB⟩ := hs
  refine (hop A B hA hB).congr fun x => ?_
  rw [hleafA, hleafB]

theorem Yields.union (hr : Yields r P) (hs : Yields s Q) :
    Yields (do (← r).union (← s)) fun x => P x ∨ Q x :=
  Yields.bind₂ (fun _ _ => yields_union) hr hs

theorem Yields.intersection (hr : Yields r P) (hs : Yields s Q) :
    Yields (do (← r).intersection (← s)) fun x => P x ∧ Q x :=
  Yields.bind₂ (fun _ _ => yields_intersection) hr hs

theorem Yields.difference (hr : Yields r P) (hs : Yields s Q) :
    Yields (do (← r).difference (← s)) fun x => P x ∧ ¬Q x :=
  Yields.bind₂ (R := fun p q => p ∧ ¬q) (fun _ _ => yields_difference) hr hs

/-- **Computations that yield the same leaves have the same result.** -/
theorem Yields.eq (hr : Yields r P) (hs : Yields s Q) (hPQ : ∀ x, P x ↔ Q x) :
    ∃ D, r = .ok D ∧ s = .ok D := by
  obtain ⟨⟨xs⟩, rfl, hxs, hleafx⟩ := hr
  obtain ⟨⟨ys⟩, rfl, hys, hleafy⟩ := hs
  have hcells : xs = ys := hxs.eq_of_same_leaves hys fun x => by rw [hleafx, hleafy, hPQ]
  exact ⟨⟨xs⟩, rfl, by rw [hcells]⟩

theorem Yields.eq_ok (hr : Yields r P) (hA : IsCanonical A.cells)
    (hP : ∀ x, P x ↔ HasLeaf A.cells x) : r = .ok A := by
  obtain ⟨D, hD, hA'⟩ := hr.eq (yields_self hA) hP
  rw [hD, ← hA']

/-- **The part of a cover within a cell is its intersection with that cell.**  No cell is cut and no
family of siblings is joined on the way, and still the two lists of cells are the same. -/
theorem within_eq_intersection (A : Cover) (c : Cell) (hA : ∀ d ∈ A.cells, d.isValid = true)
    (hnA : A.isNormal? = .ok true) (hc : c.isValid = true) :
    ∃ B, A.within c = .ok B ∧ (do A.intersection (← ofList [c])) = .ok B ∧
      B.isNormal? = .ok true := by
  have hcan : IsCanonical A.cells := isCanonical_iff.mpr ⟨hA, hnA⟩
  have hcell : Yields (ofList [c]) (HasLeaf [c]) := yields_ofList (by simpa using hc)
  have hwithin := yields_within hcan hc
  obtain ⟨B, hB, hinter⟩ := hwithin.eq ((yields_self hcan).intersection hcell) fun x => by
    rw [hasLeaf_singleton]
  obtain ⟨B', hB', hcanB, _⟩ := hwithin
  obtain rfl : B = B' := Except.ok.inj (hB.symm.trans hB')
  exact ⟨B, hB, hinter, hcanB.isNormal?_eq⟩

/-- A cell without one of its children, cut to that cell; a cell apart falls away. -/
theorem within_eq_intersection_of_four :
    let A : Cover := ⟨[⟨0x3700000000000000⟩, ⟨0x4900000000000000⟩, ⟨0x4b00000000000000⟩,
      ⟨0x4d00000000000000⟩]⟩
    let c : Cell := ⟨0x4c00000000000000⟩
    ((∀ d ∈ A.cells, d.isValid = true) ∧ A.isNormal? = .ok true ∧ c.isValid = true) ∧
      (do A.intersection (← ofList [c])) = .ok ⟨A.cells.drop 1⟩ := by
  intro A c
  have hA : ∀ d ∈ A.cells, d.isValid = true := by decide
  have hnA : A.isNormal? = .ok true := rfl
  have hc : c.isValid = true := by decide
  obtain ⟨B, hB, hinter, _⟩ := within_eq_intersection A c hA hnA hc
  have hpart : A.within c = .ok ⟨A.cells.drop 1⟩ := by decide +kernel
  exact ⟨⟨hA, hnA, hc⟩, hinter.trans (hB.symm.trans hpart)⟩

/-- **Covers are a Boolean algebra.**  Each side of a law is computed without a fault, and the two
sides are the same list of cells. -/
theorem boolean_laws (A B C : Cover) (hA : ∀ c ∈ A.cells, c.isValid = true)
    (hB : ∀ c ∈ B.cells, c.isValid = true) (hC : ∀ c ∈ C.cells, c.isValid = true)
    (hnA : A.isNormal? = .ok true) (hnB : B.isNormal? = .ok true)
    (hnC : C.isNormal? = .ok true) :
    ((∃ D, A.union B = .ok D ∧ B.union A = .ok D) ∧
      (∃ D, (do (← A.union B).union C) = .ok D ∧ (do A.union (← B.union C)) = .ok D) ∧
      A.union A = .ok A) ∧
    ((∃ D, A.intersection B = .ok D ∧ B.intersection A = .ok D) ∧
      (∃ D, (do (← A.intersection B).intersection C) = .ok D ∧
        (do A.intersection (← B.intersection C)) = .ok D) ∧
      A.intersection A = .ok A) ∧
    ((∃ D, (do A.intersection (← B.union C)) = .ok D ∧
        (do (← A.intersection B).union (← A.intersection C)) = .ok D) ∧
      (∃ D, (do A.union (← B.intersection C)) = .ok D ∧
        (do (← A.union B).intersection (← A.union C)) = .ok D)) ∧
    (do (← A.difference B).union (← A.intersection B)) = .ok A ∧
    (do (← A.difference B).intersection B) = .ok empty ∧
    (∃ D, (do A.difference (← B.union C)) = .ok D ∧
      (do (← A.difference B).difference C) = .ok D) ∧
    (∃ D, (do A.difference (← B.intersection C)) = .ok D ∧
      (do (← A.difference B).union (← A.difference C)) = .ok D) := by
  have hcanA : IsCanonical A.cells := isCanonical_iff.mpr ⟨hA, hnA⟩
  have hcanB : IsCanonical B.cells := isCanonical_iff.mpr ⟨hB, hnB⟩
  have hcanC : IsCanonical C.cells := isCanonical_iff.mpr ⟨hC, hnC⟩
  have hcan0 : IsCanonical empty.cells := ⟨by simp [empty], IsNormal.nil⟩
  have ha := yields_self hcanA
  have hb := yields_self hcanB
  have hc := yields_self hcanC
  have hunion : (∃ D, A.union B = .ok D ∧ B.union A = .ok D) ∧
      (∃ D, (do (← A.union B).union C) = .ok D ∧ (do A.union (← B.union C)) = .ok D) ∧
      A.union A = .ok A :=
    ⟨(ha.union hb).eq (hb.union ha) fun x => or_comm,
      ((ha.union hb).union hc).eq (ha.union (hb.union hc)) fun x => or_assoc,
      (ha.union ha).eq_ok hcanA fun x => or_self_iff⟩
  have hinter : (∃ D, A.intersection B = .ok D ∧ B.intersection A = .ok D) ∧
      (∃ D, (do (← A.intersection B).intersection C) = .ok D ∧
        (do A.intersection (← B.intersection C)) = .ok D) ∧
      A.intersection A = .ok A :=
    ⟨(ha.intersection hb).eq (hb.intersection ha) fun x => and_comm,
      ((ha.intersection hb).intersection hc).eq (ha.intersection (hb.intersection hc))
        fun x => and_assoc,
      (ha.intersection ha).eq_ok hcanA fun x => and_self_iff⟩
  refine ⟨hunion, hinter, ⟨?_, ?_⟩, ?_, ?_, ?_, ?_⟩
  · exact (ha.intersection (hb.union hc)).eq ((ha.intersection hb).union (ha.intersection hc))
      fun x => and_or_left
  · exact (ha.union (hb.intersection hc)).eq ((ha.union hb).intersection (ha.union hc))
      fun x => or_and_left
  · exact ((ha.difference hb).union (ha.intersection hb)).eq_ok hcanA fun x => by tauto
  · refine ((ha.difference hb).intersection hb).eq_ok hcan0 fun x => ?_
    have hnone : ¬HasLeaf empty.cells x := hasLeaf_nil x
    tauto
  · exact (ha.difference (hb.union hc)).eq ((ha.difference hb).difference hc) fun x => by tauto
  · exact (ha.difference (hb.intersection hc)).eq
      ((ha.difference hb).union (ha.difference hc)) fun x => by tauto

/-- A cell without one of its children, that child, and a grandchild in another child. -/
theorem boolean_laws_of_three :
    let A : Cover := ⟨[⟨0x4900000000000000⟩, ⟨0x4b00000000000000⟩, ⟨0x4d00000000000000⟩]⟩
    let B : Cover := ⟨[⟨0x4f00000000000000⟩]⟩
    let C : Cover := ⟨[⟨0x4b40000000000000⟩]⟩
    (∀ D ∈ [A, B, C], (∀ c ∈ D.cells, c.isValid = true) ∧ D.isNormal? = .ok true) ∧
      (do (← A.difference C).union (← A.intersection C)) = .ok A ∧
      ∃ D, (do A.difference (← B.union C)) = .ok D ∧
        (do (← A.difference B).difference C) = .ok D := by
  intro A B C
  have hv : ∀ D ∈ [A, B, C], (∀ c ∈ D.cells, c.isValid = true) ∧ D.isNormal? = .ok true := by
    intro D hD
    simp only [List.mem_cons, List.not_mem_nil, or_false] at hD
    rcases hD with rfl | rfl | rfl <;> exact ⟨by decide, rfl⟩
  obtain ⟨⟨hA, hnA⟩, ⟨hB, hnB⟩, hC, hnC⟩ :
      ((∀ c ∈ A.cells, c.isValid = true) ∧ A.isNormal? = .ok true) ∧
      ((∀ c ∈ B.cells, c.isValid = true) ∧ B.isNormal? = .ok true) ∧
      (∀ c ∈ C.cells, c.isValid = true) ∧ C.isNormal? = .ok true :=
    ⟨hv A (by simp), hv B (by simp), hv C (by simp)⟩
  obtain ⟨_, _, _, hsplit, _, _, _⟩ := boolean_laws A C B hA hC hB hnA hnC hnB
  obtain ⟨_, _, _, _, _, hdiff, _⟩ := boolean_laws A B C hA hB hC hnA hnB hnC
  exact ⟨hv, hsplit, hdiff⟩

end QuadSphere.Cover
