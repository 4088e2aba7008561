import QuadSphere.Region
import QuadSphere.Proofs.Arcs
import QuadSphere.Sphere.LatLngRect

/-!
# What rectangles contain

A rectangle contains a latitude and a longitude if its interval has the one and its arc has the
other.  Latitudes are only compared; longitudes go around, and what comes out for them is taken from
the lemmas on arcs.

* `accepts_arc`: a rectangle made from bounds accepts the longitudes from the one east to the other,
  but none if both bounds are `-pi`.
* `unions_lose_nothing`: the union of regular rectangles is regular and contains all of them, for
  two rectangles, for a list, and for the cells of a cover.
-/

namespace QuadSphere

open Binary64

/-! ## Smaller and larger numbers -/

section Numbers

variable {a b : Float} (ha : a.isNaN = false) (hb : b.isNaN = false)
include ha hb

theorem lesser_le :
    (lesser a b).isNaN = false ∧ lesser a b ≤ a ∧ lesser a b ≤ b := by
  rw [lesser, ha, if_neg Bool.false_ne_true]
  split
  · next h =>
    rw [lt_iff_rank hb ha] at h
    rw [le_iff_rank hb ha, le_iff_rank hb hb]
    exact ⟨hb, h.le, le_rfl⟩
  · next h =>
    rw [lt_iff_rank hb ha, not_lt] at h
    rw [le_iff_rank ha ha, le_iff_rank ha hb]
    exact ⟨ha, le_rfl, h⟩

theorem le_greater :
    (greater a b).isNaN = false ∧ a ≤ greater a b ∧ b ≤ greater a b := by
  rw [greater, ha, if_neg Bool.false_ne_true]
  split
  · next h =>
    rw [lt_iff_rank ha hb] at h
    rw [le_iff_rank ha hb, le_iff_rank hb hb]
    exact ⟨hb, h.le, le_rfl⟩
  · next h =>
    rw [lt_iff_rank ha hb, not_lt] at h
    rw [le_iff_rank ha ha, le_iff_rank hb ha]
    exact ⟨ha, le_rfl, h⟩

end Numbers

namespace LatLngRect

variable {lat : Latitudes} {lo hi : Float} {r s t u : LatLngRect} {rs : List LatLngRect}

theorem containsAt_iff (r : LatLngRect) (y x : Float) :
    r.containsAt y x = true ↔
      (r.lat.lo ≤ y ∧ y ≤ r.lat.hi) ∧ r.lng.contains (meridian x) = true := by
  rw [containsAt, meridian]
  simp only [Bool.and_eq_true, decide_eq_true_eq]

/-! ## Rectangles from their bounds -/

/-- **A rectangle accepts the arc from its western to its eastern bound, both ends included**, and
the whole circle from `-pi` to `pi`.  Only if both bounds are `-pi` it accepts nothing, not even the
meridian that both are. -/
theorem accepts_arc (hlo : IsLongitude lo) (hhi : IsLongitude hi)
    (hempty : ¬((lo == pi) = true ∧ (hi == -pi) = true)) :
    (¬((lo == -pi) = true ∧ (hi == -pi) = true) →
      (∀ y x, IsLongitude x → ((ofBounds lat lo hi).containsAt y x = true ↔
        (lat.lo ≤ y ∧ y ≤ lat.hi) ∧ OnArc lo hi x)) ∧
      ∀ y, lat.lo ≤ y → y ≤ lat.hi →
        (ofBounds lat lo hi).containsAt y lo = true ∧
          (ofBounds lat lo hi).containsAt y hi = true) ∧
    ((lo == -pi) = true → (hi == -pi) = true →
      ∀ y x, IsLongitude x → (ofBounds lat lo hi).containsAt y x = false) := by
  rw [beq_pi_iff hlo.isNaN, beq_neg_pi_iff hhi.isNaN] at hempty
  rw [beq_neg_pi_iff hlo.isNaN, beq_neg_pi_iff hhi.isNaN]
  refine ⟨fun hpoint => ?_, fun h1 h2 y x hx => ?_⟩
  · have haccept : ∀ y x, IsLongitude x → ((ofBounds lat lo hi).containsAt y x = true ↔
        (lat.lo ≤ y ∧ y ≤ lat.hi) ∧ OnArc lo hi x) := by
      intro y x hx
      rw [containsAt_iff, ← Arc.contains_ofBounds_iff hlo hhi hx hempty hpoint]
      rfl
    have hends := onArc_ends lo hi
    exact ⟨haccept, fun y h1 h2 => ⟨(haccept y lo hlo).mpr ⟨⟨h1, h2⟩, hends.1⟩,
      (haccept y hi hhi).mpr ⟨⟨h1, h2⟩, hends.2⟩⟩⟩
  · have hno := Arc.not_contains_ofBounds hlo hhi (isLongitude_meridian hx) ⟨h1, h2⟩
    rw [← Bool.not_eq_true, containsAt_iff, ofBounds, hno]
    rintro ⟨-, h⟩
    cases h

/-- An arc from `-pi` east to three; and the bounds of which nothing is accepted. -/
theorem accepts_arc_from_antimeridian :
    (IsLongitude (-pi) ∧ IsLongitude 3) ∧
    ((∀ y x, IsLongitude x → ((ofBounds ⟨-1, 1⟩ (-pi) 3).containsAt y x = true ↔
        (-1 ≤ y ∧ y ≤ 1) ∧ OnArc (-pi) 3 x)) ∧
      ∀ y, -1 ≤ y → y ≤ 1 → (ofBounds ⟨-1, 1⟩ (-pi) 3).containsAt y (-pi) = true ∧
        (ofBounds ⟨-1, 1⟩ (-pi) 3).containsAt y 3 = true) ∧
    ∀ y x, IsLongitude x → (ofBounds ⟨-1, 1⟩ (-pi) (-pi)).containsAt y x = false := by
  have h3 : IsLongitude 3 := by
    rw [IsLongitude]
    decide +kernel
  exact ⟨⟨isLongitude_neg_pi, h3⟩,
    (accepts_arc isLongitude_neg_pi h3 (by decide +kernel)).1 (by decide +kernel),
    (accepts_arc isLongitude_neg_pi isLongitude_neg_pi (by decide +kernel)).2 (by decide +kernel)
      (by decide +kernel)⟩

/-- The arc from `-pi` to `-pi` is one meridian, which the rectangle does not accept. -/
theorem arc_lost_at_antimeridian :
    ¬∀ (lat : Latitudes) (lo hi : Float), IsLongitude lo → IsLongitude hi →
      ¬((lo == pi) = true ∧ (hi == -pi) = true) → ∀ y x, IsLongitude x →
        ((ofBounds lat lo hi).containsAt y x = true ↔
          (lat.lo ≤ y ∧ y ≤ lat.hi) ∧ OnArc lo hi x) := by
  intro h
  have hiff := h ⟨-1, 1⟩ (-pi) (-pi) isLongitude_neg_pi isLongitude_neg_pi (by decide +kernel) 0
    (-pi) isLongitude_neg_pi
  have hno : (ofBounds ⟨-1, 1⟩ (-pi) (-pi)).containsAt 0 (-pi) = false := by decide +kernel
  rw [hno] at hiff
  exact Bool.false_ne_true (hiff.mpr ⟨by decide +kernel, (onArc_ends _ _).1⟩)

/-! ## Unions -/

/-- The bounds are numbers, and `-pi` is a bound only of the full and of the empty arc. -/
structure IsRegular (r : LatLngRect) : Prop where
  south : r.lat.lo.isNaN = false
  north : r.lat.hi.isNaN = false
  lng : r.lng.IsRegular

/-- The other rectangle contains what the first one contains. -/
def LiesIn (r u : LatLngRect) : Prop :=
  ∀ y x, IsLongitude x → r.containsAt y x = true → u.containsAt y x = true

theorem LiesIn.refl (r : LatLngRect) : r.LiesIn r :=
  fun _ _ _ h => h

theorem LiesIn.trans (hrs : r.LiesIn s) (hsu : s.LiesIn u) : r.LiesIn u :=
  fun y x hx h => hsu y x hx (hrs y x hx h)

theorem isRegular_empty : empty.IsRegular where
  south := by decide +kernel
  north := by decide +kernel
  lng := ⟨isLongitude_pi, isLongitude_neg_pi, by decide +kernel, by decide +kernel⟩

/-- The first of three rectangles is regular and contains the other two. -/
structure Encloses (u r s : LatLngRect) : Prop where
  regular : u.IsRegular
  left : r.LiesIn u
  right : s.LiesIn u

theorem isRegular_ofBounds (hsouth : lat.lo.isNaN = false) (hnorth : lat.hi.isNaN = false)
    (hlo : IsLongitude lo) (hhi : IsLongitude hi) : (ofBounds lat lo hi).IsRegular :=
  ⟨hsouth, hnorth, Arc.isRegular_ofBounds hlo hhi⟩

theorem liesIn_of_isEmpty (h : r.isEmpty = true) (u : LatLngRect) : r.LiesIn u := by
  intro y x _ hxy
  rw [containsAt_iff] at hxy
  rw [isEmpty, decide_eq_true_eq] at h
  exact absurd h (not_lt_of_le (le_of_le_of_le hxy.1.1 hxy.1.2))

theorem union_spec (hr : r.IsRegular) (hs : s.IsRegular) : Encloses (r.union s) r s := by
  rw [union]
  split
  · next h => exact ⟨hs, liesIn_of_isEmpty h s, .refl s⟩
  split
  · next h => exact ⟨hr, .refl r, liesIn_of_isEmpty h r⟩
  have hlo := lesser_le hr.south hs.south
  have hhi := le_greater hr.north hs.north
  have hlng := Arc.union_spec hr.lng hs.lng
  refine ⟨⟨hlo.1, hhi.1, hlng.regular⟩, fun y x hx h => ?_, fun y x hx h => ?_⟩
  · rw [containsAt_iff] at h ⊢
    exact ⟨⟨le_of_le_of_le hlo.2.1 h.1.1, le_of_le_of_le h.1.2 hhi.2.1⟩, hlng.left x hx h.2⟩
  · rw [containsAt_iff] at h ⊢
    exact ⟨⟨le_of_le_of_le hlo.2.2 h.1.1, le_of_le_of_le h.1.2 hhi.2.2⟩, hlng.right x hx h.2⟩

theorem foldl_union_spec (hrs : ∀ s ∈ rs, s.IsRegular) (hr : r.IsRegular) :
    (rs.foldl union r).IsRegular ∧ r.LiesIn (rs.foldl union r) ∧
      ∀ s ∈ rs, s.LiesIn (rs.foldl union r) := by
  induction rs generalizing r with
  | nil => exact ⟨hr, .refl r, by simp⟩
  | cons s rs ih =>
    obtain ⟨hu, hru, hsu⟩ := union_spec hr (hrs s List.mem_cons_self)
    obtain ⟨hfold, hseed, hmem⟩ := ih (fun t ht => hrs t (List.mem_cons_of_mem _ ht)) hu
    refine ⟨hfold, hru.trans hseed, fun t ht => ?_⟩
    rcases List.mem_cons.mp ht with rfl | ht'
    · exact hsu.trans hseed
    · exact hmem t ht'

/-- **The union of regular rectangles loses nothing**: the union of two, that of a list begun with a
regular rectangle, and the one around the cells of a cover. -/
theorem unions_lose_nothing :
    (∀ r s : LatLngRect, r.IsRegular → s.IsRegular →
      (r.union s).IsRegular ∧ ∀ y x, IsLongitude x →
        r.containsAt y x = true ∨ s.containsAt y x = true → (r.union s).containsAt y x = true) ∧
    (∀ (r : LatLngRect) (rs : List LatLngRect), r.IsRegular → (∀ s ∈ rs, s.IsRegular) →
      (rs.foldl union r).IsRegular ∧ ∀ s ∈ r :: rs, ∀ y x, IsLongitude x →
        s.containsAt y x = true → (rs.foldl union r).containsAt y x = true) ∧
    ∀ A : Cover, (∀ c ∈ A.cells, (Patch.ofCell c).boundingRect.IsRegular) →
      A.boundingRect.IsRegular ∧ ∀ c ∈ A.cells, ∀ y x, IsLongitude x →
        (Patch.ofCell c).boundingRect.containsAt y x = true →
          A.boundingRect.containsAt y x = true := by
  refine ⟨fun r s hr hs => ?_, fun r rs hr hrs => ?_, fun A hA => ?_⟩
  · obtain ⟨hu, hru, hsu⟩ := union_spec hr hs
    exact ⟨hu, fun y x hx h => h.elim (hru y x hx) (hsu y x hx)⟩
  · obtain ⟨hfold, hseed, hmem⟩ := foldl_union_spec hrs hr
    refine ⟨hfold, fun s hs => ?_⟩
    rcases List.mem_cons.mp hs with rfl | hs'
    · exact hseed
    · exact hmem s hs'
  · have hrect : A.boundingRect =
        (A.cells.map fun c => (Patch.ofCell c).boundingRect).foldl union empty := by
      rw [List.foldl_map]
      rfl
    have hall : ∀ s ∈ A.cells.map fun c => (Patch.ofCell c).boundingRect, s.IsRegular := by
      rintro _ hs
      obtain ⟨c, hc, rfl⟩ := List.mem_map.mp hs
      exact hA c hc
    obtain ⟨hfold, _, hmem⟩ := foldl_union_spec hall isRegular_empty
    rw [hrect]
    exact ⟨hfold, fun c hc => hmem _ (List.mem_map_of_mem hc)⟩

/-- An arc across the meridian opposite to zero, one away from it and one up to it. -/
theorem unions_lose_nothing_across :
    (((ofBounds ⟨-1, 0⟩ 3 (-3)).union (ofBounds ⟨0, 1⟩ (-1) 1)).IsRegular ∧
      ((ofBounds ⟨-1, 0⟩ 3 (-3)).union (ofBounds ⟨0, 1⟩ (-1) 1)).containsAt (-0.5) (-pi) = true ∧
      ((ofBounds ⟨-1, 0⟩ 3 (-3)).union (ofBounds ⟨0, 1⟩ (-1) 1)).containsAt 0.5 (-1) = true) ∧
    ([ofBounds ⟨-1, 0⟩ 3 (-3), ofBounds ⟨0, 1⟩ (-1) 1].foldl union
      (ofBounds ⟨-1, -1⟩ 2 (-pi))).containsAt (-1) 2 = true ∧
    (⟨[]⟩ : Cover).boundingRect.IsRegular := by
  have hlongitudes : IsLongitude 3 ∧ IsLongitude (-3) ∧ IsLongitude (-1) ∧ IsLongitude 1 ∧
      IsLongitude 2 := by
    simp only [IsLongitude]
    decide +kernel
  obtain ⟨h3, h3', h1', h1, h2⟩ := hlongitudes
  have hr : (ofBounds ⟨-1, 0⟩ 3 (-3)).IsRegular :=
    isRegular_ofBounds (by decide +kernel) (by decide +kernel) h3 h3'
  have hs : (ofBounds ⟨0, 1⟩ (-1) 1).IsRegular :=
    isRegular_ofBounds (by decide +kernel) (by decide +kernel) h1' h1
  have ht : (ofBounds ⟨-1, -1⟩ 2 (-pi)).IsRegular :=
    isRegular_ofBounds (by decide +kernel) (by decide +kernel) h2 isLongitude_neg_pi
  obtain ⟨hu, hmem⟩ := unions_lose_nothing.1 _ _ hr hs
  obtain ⟨_, hall⟩ := unions_lose_nothing.2.1 _ [ofBounds ⟨-1, 0⟩ 3 (-3), ofBounds ⟨0, 1⟩ (-1) 1] ht
    (List.forall_mem_cons.mpr ⟨hr, List.forall_mem_singleton.mpr hs⟩)
  exact ⟨⟨hu, hmem (-0.5) (-pi) isLongitude_neg_pi (Or.inl (by decide +kernel)),
      hmem 0.5 (-1) h1' (Or.inr (by decide +kernel))⟩,
    hall _ List.mem_cons_self (-1) 2 h2 (by decide +kernel),
    (unions_lose_nothing.2.2 ⟨[]⟩ (by simp)).1⟩

end LatLngRect

end QuadSphere
