import QuadSphere.Proofs.Longitudes
import QuadSphere.Sphere.Arc

/-!
# Arcs of longitudes and their unions

What an arc contains is decided by the order of floats, that is by the ranks of its bounds and of
the longitude (`HasRank`), and two arcs are joined by comparing ranks as well.  The bounds are
regular if `-pi` is one of them only in the full and in the empty arc.

* `contains_ofBounds_iff`: an arc has the meridians from its one bound east to the other.
* `union_spec`: the union of regular arcs is regular and contains both.
-/

namespace QuadSphere.Arc

open Binary64

variable {p : Float} {x y u : Arc}

/-! ## Ranks on an arc -/

/-- The rank `p` is on the arc whose bounds have the ranks `a` and `b`; `c` is the rank of `pi`. -/
def HasRank (c a b p : ℤ) : Prop :=
  a ≤ b ∧ a ≤ p ∧ p ≤ b ∨ b < a ∧ (a ≤ p ∨ p ≤ b) ∧ ¬(a = c ∧ b = -c)

theorem isInverted_iff (hlo : IsLongitude x.lo) (hhi : IsLongitude x.hi) :
    x.isInverted = true ↔ rank x.hi < rank x.lo := by
  rw [isInverted, decide_eq_true_eq]
  exact lt_iff_rank hhi.isNaN hlo.isNaN

theorem isEmpty_iff (hlo : IsLongitude x.lo) (hhi : IsLongitude x.hi) :
    x.isEmpty = true ↔ rank x.lo = rank pi ∧ rank x.hi = -rank pi := by
  rw [isEmpty, Bool.and_eq_true, beq_pi_iff hlo.isNaN, beq_neg_pi_iff hhi.isNaN]

theorem contains_iff (hlo : IsLongitude x.lo) (hhi : IsLongitude x.hi) (hp : IsLongitude p) :
    x.contains p = true ↔ HasRank (rank pi) (rank x.lo) (rank x.hi) (rank p) := by
  have hlow : decide (p ≥ x.lo) = true ↔ rank x.lo ≤ rank p :=
    decide_eq_true_iff.trans (le_iff_rank hlo.isNaN hp.isNaN)
  have hhigh : decide (p ≤ x.hi) = true ↔ rank p ≤ rank x.hi :=
    decide_eq_true_iff.trans (le_iff_rank hp.isNaN hhi.isNaN)
  rw [contains, HasRank]
  by_cases hinv : x.isInverted = true
  · rw [if_pos hinv, Bool.and_eq_true, Bool.or_eq_true, hlow, hhigh, Bool.not_eq_true',
      ← Bool.not_eq_true, isEmpty_iff hlo hhi]
    rw [isInverted_iff hlo hhi] at hinv
    constructor
    · exact fun h => Or.inr ⟨hinv, h⟩
    · rintro (⟨hle, -⟩ | ⟨-, h⟩)
      · omega
      · exact h
  · rw [if_neg hinv, Bool.and_eq_true, hlow, hhigh]
    rw [isInverted_iff hlo hhi, not_lt] at hinv
    constructor
    · exact fun h => Or.inl ⟨hinv, h⟩
    · rintro (⟨-, h⟩ | ⟨hlt, -⟩)
      · exact h
      · omega

theorem HasRank.not_empty {c a b d : ℤ} (hc : 0 < c) (h : HasRank c a b d) :
    ¬(a = c ∧ b = -c) := by
  rw [HasRank] at h
  omega

/-! ## Arcs from their bounds -/

section OfBounds

variable {lo hi : Float} (hlo : IsLongitude lo) (hhi : IsLongitude hi)
include hlo hhi

theorem isLongitude_ofBounds :
    IsLongitude (ofBounds lo hi).lo ∧ IsLongitude (ofBounds lo hi).hi := by
  constructor
  · rw [ofBounds]
    dsimp only
    split
    · exact isLongitude_pi
    · exact hlo
  · rw [ofBounds]
    dsimp only
    generalize (if (lo == -pi && hi != pi) = true then pi else lo) = l
    split
    · exact isLongitude_pi
    · exact hhi

theorem rank_ofBounds_lo :
    rank (ofBounds lo hi).lo =
      if rank lo = -rank pi ∧ rank hi ≠ rank pi then rank pi else rank lo := by
  rw [ofBounds, apply_ite rank]
  simp only [Bool.and_eq_true, beq_neg_pi_iff hlo.isNaN, bne_pi_iff hhi.isNaN]

/-- The second bound is looked at when the first one has been written anew. -/
theorem rank_ofBounds_hi :
    rank (ofBounds lo hi).hi =
      if rank hi = -rank pi ∧ rank (ofBounds lo hi).lo ≠ rank pi then rank pi else rank hi := by
  have hlo' := (isLongitude_ofBounds hlo hhi).1
  have hhi' : (ofBounds lo hi).hi = if hi == -pi && (ofBounds lo hi).lo != pi then pi else hi := rfl
  rw [hhi', apply_ite rank]
  simp only [Bool.and_eq_true, beq_neg_pi_iff hhi.isNaN, bne_pi_iff hlo'.isNaN]

/-- **An arc has the meridians that its bounds stand for**, unless both bounds are `-pi`. -/
theorem contains_ofBounds_iff (hp : IsLongitude p)
    (hempty : ¬(rank lo = rank pi ∧ rank hi = -rank pi))
    (hpoint : ¬(rank lo = -rank pi ∧ rank hi = -rank pi)) :
    (ofBounds lo hi).contains (meridian p) = true ↔ OnArc lo hi p := by
  obtain ⟨hlo', hhi'⟩ := isLongitude_ofBounds hlo hhi
  rw [contains_iff hlo' hhi' (isLongitude_meridian hp), HasRank, onArc_iff hlo hhi hp,
    rank_ofBounds_hi hlo hhi, rank_ofBounds_lo hlo hhi, rank_meridian hlo, rank_meridian hhi,
    rank_meridian hp]
  have hpi := rank_pi_pos
  have h1 := hlo.rank_bounds
  have h2 := hhi.rank_bounds
  have h3 := hp.rank_bounds
  generalize rank pi = c at *
  split_ifs <;> omega

/-- **If both bounds are `-pi`, the first one is written anew and the second one is not**: then they
are those of the empty arc. -/
theorem not_contains_ofBounds (hp : IsLongitude p) (h : rank lo = -rank pi ∧ rank hi = -rank pi) :
    (ofBounds lo hi).contains p = false := by
  obtain ⟨hlo', hhi'⟩ := isLongitude_ofBounds hlo hhi
  rw [← Bool.not_eq_true, contains_iff hlo' hhi' hp, HasRank, rank_ofBounds_hi hlo hhi,
    rank_ofBounds_lo hlo hhi]
  have hpi := rank_pi_pos
  split_ifs <;> omega

end OfBounds

/-! ## Joined ranks -/

/-- What is regular about the ranks of the bounds. -/
structure RegularRanks (c a b : ℤ) : Prop where
  west : -c ≤ a ∧ a ≤ c
  east : -c ≤ b ∧ b ≤ c
  full : a = -c → b = c
  empty : b = -c → a = c

/-- How the bounds show that one arc contains another one that is not empty. -/
def ContainsRanks (c a b d e : ℤ) : Prop :=
  b < a ∧ e < d ∧ a ≤ d ∧ e ≤ b ∨ b < a ∧ d ≤ e ∧ (a ≤ d ∨ e ≤ b) ∨
    a ≤ b ∧ e < d ∧ (a = -c ∨ a = -c + 1 ∧ b = c) ∨ a ≤ b ∧ d ≤ e ∧ a ≤ d ∧ e ≤ b

/-- The arc from `l` to `h` is regular and has the ranks of meridians that the arcs from `a` to `b`
and from `d` to `e` have. -/
structure JoinsRanks (c a b d e l h : ℤ) : Prop where
  regular : RegularRanks c l h
  covers : ∀ p, -c < p → p ≤ c → HasRank c a b p ∨ HasRank c d e p → HasRank c l h p

namespace JoinsRanks

variable {c a b d e : ℤ}

theorem left_of_empty (hx : RegularRanks c a b) (hy : d = c ∧ e = -c) :
    JoinsRanks c a b d e a b := by
  refine ⟨hx, fun p hp hp' => ?_⟩
  simp only [HasRank]
  omega

theorem right_of_empty (hx : a = c ∧ b = -c) (hy : RegularRanks c d e) :
    JoinsRanks c a b d e d e := by
  refine ⟨hy, fun p hp hp' => ?_⟩
  simp only [HasRank]
  omega

theorem full (hc : 0 < c) : JoinsRanks c a b d e (-c) c := by
  refine ⟨⟨by omega, by omega, fun _ => rfl, by omega⟩, fun p hp hp' _ => ?_⟩
  simp only [HasRank]
  omega

theorem left_of_contains (hx : RegularRanks c a b) (he : HasRank c a b e)
    (h : ContainsRanks c a b d e) : JoinsRanks c a b d e a b := by
  refine ⟨hx, fun p hp hp' => ?_⟩
  obtain ⟨h1, h2, h3, h4⟩ := hx
  simp only [HasRank, ContainsRanks] at *
  omega

variable (hc : 0 < c) (hx : RegularRanks c a b) (hy : RegularRanks c d e)
include hc hx hy

/-- An arc that has one end of another arc, which has none of its own ends, contains that arc. -/
theorem right_of_end (he : ¬HasRank c a b e) (h : HasRank c d e a) :
    JoinsRanks c a b d e d e := by
  refine ⟨hy, fun p hp hp' => ?_⟩
  obtain ⟨h1, h2, h3, h4⟩ := hx
  simp only [HasRank] at *
  omega

/-- From the west end of the first arc to the east end of the second one.  Going east from `a`, one
leaves the first arc before `e` is reached, and one is on the second arc not before `d`. -/
theorem east (hy0 : ¬(d = c ∧ e = -c)) (hno : ¬HasRank c a b e)
    (h : HasRank c a b d ∨ ¬HasRank c d e a) : JoinsRanks c a b d e a e := by
  obtain ⟨ha, hb, h1, h2⟩ := hx
  obtain ⟨hd, he, h3, h4⟩ := hy
  simp only [HasRank] at hno h
  refine ⟨⟨ha, he, by omega, by omega⟩, fun p hp hp' hor => ?_⟩
  -- what the regular bounds say about `-pi` matters for the second arc only
  have hleft : HasRank c a b p → HasRank c a e p := by
    clear h h1 h2
    simp only [HasRank]
    omega
  have hright : HasRank c d e p → HasRank c a e p := by
    clear h1 h2
    simp only [HasRank]
    omega
  exact hor.elim hleft hright

/-- From the west end of the second arc to the east end of the first one, in the same way. -/
theorem west (hx0 : ¬(a = c ∧ b = -c)) (hno : ¬HasRank c a b d)
    (h : HasRank c a b e ∨ ¬HasRank c d e a) : JoinsRanks c a b d e d b := by
  obtain ⟨ha, hb, h1, h2⟩ := hx
  obtain ⟨hd, he, h3, h4⟩ := hy
  simp only [HasRank] at hno h
  refine ⟨⟨hd, hb, by omega, by omega⟩, fun p hp hp' hor => ?_⟩
  have hleft : HasRank c a b p → HasRank c d b p := by
    clear h h3 h4
    simp only [HasRank]
    omega
  have hright : HasRank c d e p → HasRank c d b p := by
    clear h1
    simp only [HasRank]
    omega
  exact hor.elim hleft hright

end JoinsRanks

/-! ## Regular arcs -/

/-- The bounds are longitudes, and `-pi` is a bound only of the full and of the empty arc. -/
structure IsRegular (x : Arc) : Prop where
  lo : IsLongitude x.lo
  hi : IsLongitude x.hi
  full : (x.lo == -pi) = true → (x.hi == pi) = true
  empty : (x.hi == -pi) = true → (x.lo == pi) = true

/-- The other arc has all meridians of the first one. -/
def LiesIn (x u : Arc) : Prop :=
  ∀ p, IsLongitude p → x.contains (meridian p) = true → u.contains (meridian p) = true

/-- The first of three arcs is regular and has all meridians of the other two. -/
structure Encloses (u x y : Arc) : Prop where
  regular : u.IsRegular
  left : x.LiesIn u
  right : y.LiesIn u

theorem IsRegular.ranks (h : x.IsRegular) : RegularRanks (rank pi) (rank x.lo) (rank x.hi) where
  west := h.lo.rank_bounds
  east := h.hi.rank_bounds
  full hlo := (beq_pi_iff h.hi.isNaN).mp (h.full ((beq_neg_pi_iff h.lo.isNaN).mpr hlo))
  empty hhi := (beq_pi_iff h.lo.isNaN).mp (h.empty ((beq_neg_pi_iff h.hi.isNaN).mpr hhi))

theorem isRegular_of_ranks (hlo : IsLongitude x.lo) (hhi : IsLongitude x.hi)
    (h : RegularRanks (rank pi) (rank x.lo) (rank x.hi)) : x.IsRegular where
  lo := hlo
  hi := hhi
  full hpi := (beq_pi_iff hhi.isNaN).mpr (h.full ((beq_neg_pi_iff hlo.isNaN).mp hpi))
  empty hpi := (beq_pi_iff hlo.isNaN).mpr (h.empty ((beq_neg_pi_iff hhi.isNaN).mp hpi))

theorem IsRegular.contains_iff (h : x.IsRegular) (hp : IsLongitude p) :
    x.contains p = true ↔ HasRank (rank pi) (rank x.lo) (rank x.hi) (rank p) :=
  Arc.contains_iff h.lo h.hi hp

theorem isRegular_ofBounds {lo hi : Float} (hlo : IsLongitude lo) (hhi : IsLongitude hi) :
    (ofBounds lo hi).IsRegular := by
  obtain ⟨hlo', hhi'⟩ := isLongitude_ofBounds hlo hhi
  have h1 := hlo'.rank_bounds
  have h2 := hhi'.rank_bounds
  have hpi := rank_pi_pos
  have hwest := rank_ofBounds_lo hlo hhi
  have heast := rank_ofBounds_hi hlo hhi
  refine isRegular_of_ranks hlo' hhi' ⟨h1, h2, ?_, ?_⟩
  · intro hpi'
    rw [hwest] at hpi' heast
    rw [heast]
    split_ifs at * <;> omega
  · intro hpi'
    rw [heast] at hpi'
    split_ifs at * <;> omega

theorem encloses_of_ranks (hx : x.IsRegular) (hy : y.IsRegular) (hlo : IsLongitude u.lo)
    (hhi : IsLongitude u.hi)
    (h : JoinsRanks (rank pi) (rank x.lo) (rank x.hi) (rank y.lo) (rank y.hi) (rank u.lo)
      (rank u.hi)) : Encloses u x y := by
  have hcovers : ∀ p, IsLongitude p →
      HasRank (rank pi) (rank x.lo) (rank x.hi) (rank (meridian p)) ∨
        HasRank (rank pi) (rank y.lo) (rank y.hi) (rank (meridian p)) →
      u.contains (meridian p) = true := by
    intro p hp hor
    have hm := isLongitude_meridian hp
    rw [contains_iff hlo hhi hm]
    exact h.covers _ (neg_rank_pi_lt hp) hm.rank_bounds.2 hor
  refine ⟨isRegular_of_ranks hlo hhi h.regular, fun p hp hxp => ?_, fun p hp hyp => ?_⟩
  · exact hcovers p hp (Or.inl ((hx.contains_iff (isLongitude_meridian hp)).mp hxp))
  · exact hcovers p hp (Or.inr ((hy.contains_iff (isLongitude_meridian hp)).mp hyp))

theorem containsRanks_of_containsArc (hx : x.IsRegular) (hy : y.IsRegular)
    (hy0 : ¬y.isEmpty = true) (h : x.containsArc y = true) :
    ContainsRanks (rank pi) (rank x.lo) (rank x.hi) (rank y.lo) (rank y.hi) := by
  have hlow : decide (y.lo ≥ x.lo) = true ↔ rank x.lo ≤ rank y.lo :=
    decide_eq_true_iff.trans (le_iff_rank hx.lo.isNaN hy.lo.isNaN)
  have hhigh : decide (y.hi ≤ x.hi) = true ↔ rank y.hi ≤ rank x.hi :=
    decide_eq_true_iff.trans (le_iff_rank hy.hi.isNaN hx.hi.isNaN)
  rw [containsArc] at h
  rw [ContainsRanks]
  by_cases hinv : x.isInverted = true
  · have hinv' := (isInverted_iff hx.lo hx.hi).mp hinv
    rw [if_pos hinv] at h
    by_cases hyinv : y.isInverted = true
    · rw [if_pos hyinv, Bool.and_eq_true, hlow, hhigh] at h
      exact Or.inl ⟨hinv', (isInverted_iff hy.lo hy.hi).mp hyinv, h⟩
    · rw [if_neg hyinv, Bool.and_eq_true, Bool.or_eq_true, hlow, hhigh] at h
      rw [isInverted_iff hy.lo hy.hi, not_lt] at hyinv
      exact Or.inr (Or.inl ⟨hinv', hyinv, h.1⟩)
  · rw [if_neg hinv] at h
    rw [isInverted_iff hx.lo hx.hi, not_lt] at hinv
    by_cases hyinv : y.isInverted = true
    · rw [if_pos hyinv, Bool.or_eq_true] at h
      exact Or.inr (Or.inr (Or.inl ⟨hinv, (isInverted_iff hy.lo hy.hi).mp hyinv,
        ranks_of_sub_eq hx.lo hx.hi (h.resolve_right hy0)⟩))
    · rw [if_neg hyinv, Bool.and_eq_true, hlow, hhigh] at h
      rw [isInverted_iff hy.lo hy.hi, not_lt] at hyinv
      exact Or.inr (Or.inr (Or.inr ⟨hinv, hyinv, h⟩))

/-! ## Unions -/

/-- **The union of regular arcs is regular and loses no meridian**, whichever gap is closed. -/
theorem union_spec (hx : x.IsRegular) (hy : y.IsRegular) : Encloses (x.union y) x y := by
  have hpi := rank_pi_pos
  have hxe := isEmpty_iff hx.lo hx.hi
  have hye := isEmpty_iff hy.lo hy.hi
  have hlo := hx.contains_iff hy.lo
  have hhi := hx.contains_iff hy.hi
  have heast := hy.contains_iff hx.lo
  rw [union]
  by_cases hy0 : y.isEmpty = true
  · rw [if_pos hy0]
    exact encloses_of_ranks hx hy hx.lo hx.hi (.left_of_empty hx.ranks (hye.mp hy0))
  rw [if_neg hy0]
  have hy0' := mt hye.mpr hy0
  -- the first arc has the west end of the second one, or its east end, or both
  by_cases hd : x.contains y.lo = true
  · rw [if_pos hd]
    by_cases he : x.contains y.hi = true
    · rw [if_pos he]
      split
      · next hc =>
        exact encloses_of_ranks hx hy hx.lo hx.hi (.left_of_contains hx.ranks (hhi.mp he)
          (containsRanks_of_containsArc hx hy hy0 hc))
      · refine encloses_of_ranks hx hy isLongitude_neg_pi isLongitude_pi ?_
        rw [Arc.full, rank_neg_pi]
        exact .full hpi
    · rw [if_neg he]
      exact encloses_of_ranks hx hy hx.lo hy.hi
        (.east hpi hx.ranks hy.ranks hy0' (mt hhi.mpr he) (Or.inl (hlo.mp hd)))
  rw [if_neg hd]
  by_cases he : x.contains y.hi = true
  · rw [if_pos he]
    exact encloses_of_ranks hx hy hy.lo hx.hi
      (.west hpi hx.ranks hy.ranks ((hhi.mp he).not_empty hpi) (mt hlo.mpr hd)
        (Or.inl (hhi.mp he)))
  rw [if_neg he]
  -- the first arc has neither end of the second one
  by_cases hx0 : x.isEmpty = true
  · rw [hx0, Bool.true_or, if_pos rfl]
    exact encloses_of_ranks hx hy hy.lo hy.hi (.right_of_empty (hxe.mp hx0) hy.ranks)
  have hx0' := mt hxe.mpr hx0
  rw [Bool.eq_false_iff.mpr hx0, Bool.false_or]
  split
  · next hw =>
    exact encloses_of_ranks hx hy hy.lo hy.hi
      (.right_of_end hpi hx.ranks hy.ranks (mt hhi.mpr he) (heast.mp hw))
  · next hw =>
    have hapart := mt heast.mpr hw
    split
    · exact encloses_of_ranks hx hy hy.lo hx.hi
        (.west hpi hx.ranks hy.ranks hx0' (mt hlo.mpr hd) (Or.inr hapart))
    · exact encloses_of_ranks hx hy hx.lo hy.hi
        (.east hpi hx.ranks hy.ranks hy0' (mt hhi.mpr he) (Or.inr hapart))

end QuadSphere.Arc
