import QuadSphere.Proofs.Algebra
import QuadSphere.Proofs.Neighbours

/-!
# Points in covers

A point of space lies over a face and, on that face, over a column and a row.  The face is found by
comparing coordinates and the column and row are cut off at the border, so this holds for any three
floating-point numbers, whether or not they make sense as a direction.  Hence every point belongs to
one leaf, and a cover contains the point if it has this leaf.

* `ofPoint_spec`: the leaf of a point.
* `containsPoint?_spec`: a cover contains a point if it has the leaf of the point.
* `membership_homomorphism`: union, intersection and difference of covers are `or`, `and` and
  `and not` of the answers.
-/

namespace QuadSphere

open Cell

/-! ## The leaf of a point -/

/-- The place that a point lies over. -/
def Place.under (p : Vec3) : Place :=
  let f := Chart.ofSpace p
  ⟨f.face, Chart.leafIndex (Chart.even f.u), Chart.leafIndex (Chart.even f.v)⟩

theorem Place.onCube_under (p : Vec3) : (Place.under p).OnCube :=
  ⟨face_ofSpace_lt p, leafIndex_lt _, leafIndex_lt _⟩

namespace Cell

variable {c : Cell}

theorem ofPoint_eq (p : Vec3) : ofPoint p = ofPlace (.under p) := rfl

/-- **Every point has a leaf**, the one at the place under it. -/
theorem ofPoint_spec (p : Vec3) :
    (ofPoint p).isValid = true ∧ (ofPoint p).isLeaf = true ∧ (ofPoint p).place = .under p := by
  have hp := Place.onCube_under p
  rw [ofPoint_eq]
  exact ⟨isValid_ofPlace hp, (ofPlace_at hp).isLeaf_iff.mpr rfl, place_ofPlace hp⟩

theorem hasLeaf_iff_of_isLeaf (hc : c ≠ null) (hl : c.isLeaf = true) {x : UInt64} :
    c.HasLeaf x ↔ x = c.word := by
  obtain ⟨k, q, hat⟩ := exists_at hc
  obtain rfl : k = 0 := hat.isLeaf_iff.mp hl
  rw [hasLeaf_iff hc, hat.start_eq, hat.stop_eq, ← UInt64.toNat_inj, hat.word_eq]
  omega

end Cell

/-! ## Covers -/

namespace Cover

variable {A B : Cover} {r : Except Fault Cover} {P : UInt64 → Prop}

theorem containsPoint?_spec (hA : IsCanonical A.cells) (p : Vec3) :
    ∃ t, A.containsPoint? p = .ok t ∧ (t = true ↔ HasLeaf A.cells (ofPoint p).word) := by
  obtain ⟨hv, hl, _⟩ := ofPoint_spec p
  have hne := ne_null_of_isValid hv
  obtain ⟨t, ht, hcovers⟩ := contains?_spec hA.separated hne
  refine ⟨t, ht, ?_⟩
  rw [hcovers, hA.exists_covers_iff hv]
  simp only [hasLeaf_iff_of_isLeaf hne hl, forall_eq]

theorem Yields.containsPoint?_eq {p : Vec3} {t : Bool} (h : Yields r P)
    (ht : t = true ↔ P (ofPoint p).word) : (do (← r).containsPoint? p) = .ok t := by
  obtain ⟨C, rfl, hC, hleaf⟩ := h
  obtain ⟨u, hu, hiff⟩ := containsPoint?_spec hC p
  have hut : u = t := by rw [Bool.eq_iff_iff, hiff, hleaf, ht]
  rw [ok_bind, hu, hut]

/-- **Membership of points is a homomorphism.**  Every point has a leaf, also the origin and one
whose coordinates are infinite or no numbers.  Whether a union, an intersection or a difference
contains the point follows from whether each of the two covers does. -/
theorem membership_homomorphism (p : Vec3) (A B : Cover) (hA : ∀ c ∈ A.cells, c.isValid = true)
    (hB : ∀ c ∈ B.cells, c.isValid = true) (hnA : A.isNormal? = .ok true)
    (hnB : B.isNormal? = .ok true) :
    ((ofPoint p).isValid = true ∧ (ofPoint p).isLeaf = true ∧ (ofPoint p).place = .under p) ∧
      ∃ a b, A.containsPoint? p = .ok a ∧ B.containsPoint? p = .ok b ∧
        (a = true ↔ HasLeaf A.cells (ofPoint p).word) ∧
        (b = true ↔ HasLeaf B.cells (ofPoint p).word) ∧
        (do (← A.union B).containsPoint? p) = .ok (a || b) ∧
        (do (← A.intersection B).containsPoint? p) = .ok (a && b) ∧
        (do (← A.difference B).containsPoint? p) = .ok (a && !b) := by
  have hcanA : IsCanonical A.cells := isCanonical_iff.mpr ⟨hA, hnA⟩
  have hcanB : IsCanonical B.cells := isCanonical_iff.mpr ⟨hB, hnB⟩
  obtain ⟨a, ha, hleafA⟩ := containsPoint?_spec hcanA p
  obtain ⟨b, hb, hleafB⟩ := containsPoint?_spec hcanB p
  refine ⟨ofPoint_spec p, a, b, ha, hb, hleafA, hleafB, ?_, ?_, ?_⟩
  · apply (yields_union hcanA hcanB).containsPoint?_eq
    rw [Bool.or_eq_true, hleafA, hleafB]
  · apply (yields_intersection hcanA hcanB).containsPoint?_eq
    rw [Bool.and_eq_true, hleafA, hleafB]
  · apply (yields_difference hcanA hcanB).containsPoint?_eq
    rw [Bool.and_eq_true, Bool.not_eq_true', ← Bool.not_eq_true, hleafA, hleafB]

/-- A face, the leaf in its corner, and a point that is no direction. -/
theorem membership_homomorphism_corner :
    let p : Vec3 := ⟨0 / 0, 0, 0⟩
    let A : Cover := ⟨[⟨0x5000000000000000⟩]⟩
    let B : Cover := ⟨[⟨0x4000000000000001⟩]⟩
    ((∀ c ∈ A.cells, c.isValid = true) ∧ (∀ c ∈ B.cells, c.isValid = true) ∧
      A.isNormal? = .ok true ∧ B.isNormal? = .ok true) ∧
      (A.containsPoint? p = .ok true ∧ B.containsPoint? p = .ok true) ∧
      (do (← A.union B).containsPoint? p) = .ok true ∧
      (do (← A.intersection B).containsPoint? p) = .ok true ∧
      (do (← A.difference B).containsPoint? p) = .ok false := by
  intro p A B
  have hA : ∀ c ∈ A.cells, c.isValid = true := by decide
  have hB : ∀ c ∈ B.cells, c.isValid = true := by decide
  have hpA : A.containsPoint? p = .ok true := by decide +kernel
  have hpB : B.containsPoint? p = .ok true := by decide +kernel
  obtain ⟨_, a, b, ha, hb, _, _, hunion, hinter, hdiff⟩ :=
    membership_homomorphism p A B hA hB rfl rfl
  obtain rfl : a = true := Except.ok.inj (ha.symm.trans hpA)
  obtain rfl : b = true := Except.ok.inj (hb.symm.trans hpB)
  exact ⟨⟨hA, hB, rfl, rfl⟩, ⟨hpA, hpB⟩, hunion, hinter, hdiff⟩

end Cover

end QuadSphere
