import QuadSphere.Proofs.Paths
import QuadSphere.Proofs.Places

/-!
# The curve is continuous

The curve enters a square in one corner and leaves it in another one: in its first quadrant it
begins where the square does, and in its last one it ends there.  From one quadrant to the next it
leaves and enters on both sides of their common edge (`quadrants_meet`), so the points at
consecutive places are neighbours.  The induction is on the order of the curve, for all
orientations: a step from one place to the next either stays in a quadrant or leads from the last
point of one to the first point of the next.

A cell has the place of its square on a coarser curve, and the next cell has the next place, as long
as it lies on the same face.

* `quadrants_meet`: how the curve passes from one quadrant to the next.
* `shareEdge_decode`: consecutive points of the curve.
* `next_shares_edge`: consecutive cells of a face.
-/

namespace QuadSphere

variable {p p' : Nat × Nat} {m n d s : Nat}

/-- Of two squares with the side `s`, given by their lower left corners, one lies beside the other
or above it. -/
def ShareEdge (s : Nat) (p p' : Nat × Nat) : Prop :=
  p.1 = p'.1 ∧ (p.2 + s = p'.2 ∨ p'.2 + s = p.2) ∨
    p.2 = p'.2 ∧ (p.1 + s = p'.1 ∨ p'.1 + s = p.1)

theorem ShareEdge.add (h : ShareEdge s p p') (x y : Nat) :
    ShareEdge s (x + p.1, y + p.2) (x + p'.1, y + p'.2) := by
  simp only [ShareEdge] at h ⊢
  omega

theorem ShareEdge.mul (h : ShareEdge s p p') (t : Nat) :
    ShareEdge (s * t) (p.1 * t, p.2 * t) (p'.1 * t, p'.2 * t) := by
  simp only [ShareEdge, ← Nat.add_mul]
  rcases h with ⟨h1, h2 | h2⟩ | ⟨h1, h2 | h2⟩ <;> simp only [h1, h2, true_and, true_or, or_true]

namespace Curve

/-! ## From one quadrant to the next -/

/-- **Consecutive quadrants lie side by side, and the curve leaves one of them and enters the next
one at their common edge.** -/
theorem quadrants_meet (o : Orientation) (p : Fin 4) (hp : p ≠ 3) :
    let q := o.quadrant p
    let q' := o.quadrant (p + 1)
    let last := (o.inside p).quadrant 3
    let first := (o.inside (p + 1)).quadrant 0
    q.i = q'.i ∧ last.i = first.i ∧ q'.j = !q.j ∧ last.j = !q.j ∧ first.j = q.j ∨
      q.j = q'.j ∧ last.j = first.j ∧ q'.i = !q.i ∧ last.i = !q.i ∧ first.i = q.i := by
  obtain ⟨s, v⟩ := o
  revert s v p
  decide

theorem halves_meet (b : Bool) (n : Nat) :
    b.toNat * 2 ^ n + (!b).toNat * (2 ^ n - 1) + 1 = (!b).toNat * 2 ^ n + b.toNat * (2 ^ n - 1) ∨
    (!b).toNat * 2 ^ n + b.toNat * (2 ^ n - 1) + 1 = b.toNat * 2 ^ n + (!b).toNat * (2 ^ n - 1) := by
  have hpos := Nat.two_pow_pos n
  cases b with
  | false =>
    left
    simp only [Bool.toNat_false, Bool.not_false, Bool.toNat_true]
    omega
  | true =>
    right
    simp only [Bool.toNat_false, Bool.not_true, Bool.toNat_true]
    omega

theorem shareEdge_quadrants (o : Orientation) (p : Fin 4) (hp : p ≠ 3) (n : Nat) :
    let q := o.quadrant p
    let q' := o.quadrant (p + 1)
    let last := corner ((o.inside p).quadrant 3) n
    let first := corner ((o.inside (p + 1)).quadrant 0) n
    ShareEdge 1 (q.i.toNat * 2 ^ n + last.1, q.j.toNat * 2 ^ n + last.2)
      (q'.i.toNat * 2 ^ n + first.1, q'.j.toNat * 2 ^ n + first.2) := by
  intro q q' last first
  have hmeet := quadrants_meet o p hp
  dsimp only [ShareEdge, corner, q, q', last, first]
  rcases hmeet with ⟨hi, hlasti, hj, hlastj, hfirst⟩ | ⟨hj, hlastj, hi, hlasti, hfirst⟩
  · rw [hi, hlasti, hj, hlastj, hfirst]
    exact Or.inl ⟨rfl, halves_meet _ n⟩
  · rw [hj, hlastj, hi, hlasti, hfirst]
    exact Or.inr ⟨rfl, halves_meet _ n⟩

theorem dvd_succ_iff {s : Nat} (hs : 0 < s) : s ∣ d + 1 ↔ d % s + 1 = s := by
  have hlt := Nat.mod_lt d hs
  have hsum : d + 1 = s * (d / s) + (d % s + 1) := by
    rw [← Nat.add_assoc, Nat.div_add_mod]
  rw [hsum, Nat.dvd_add_right (Nat.dvd_mul_right s _)]
  constructor
  · intro h
    exact Nat.le_antisymm hlt (Nat.le_of_dvd (Nat.succ_pos _) h)
  · intro h
    rw [h]

theorem not_dvd_succ_iff {s : Nat} (hs : 0 < s) : ¬s ∣ d + 1 ↔ d % s + 1 < s := by
  have hlt := Nat.mod_lt d hs
  rw [dvd_succ_iff hs]
  omega

theorem shareEdge_decode (o : Orientation) (h : d % 4 ^ n + 1 < 4 ^ n) :
    ShareEdge 1 (decode o n d) (decode o n (d + 1)) := by
  induction n generalizing o with
  | zero =>
    rw [Nat.pow_zero] at h
    omega
  | succ n ih =>
    have hpos := Nat.pow_pos (by omega : 0 < 4) (n := n)
    by_cases hdvd : 4 ^ n ∣ d + 1
    · -- the step leads into the next quadrant, which is not beyond the last one
      have hlast := (dvd_succ_iff hpos).mp hdvd
      have hrank : Fin.ofNat 4 ((d + 1) / 4 ^ n) = Fin.ofNat 4 (d / 4 ^ n) + 1 := by
        rw [Nat.succ_div_of_dvd hdvd]
        exact Fin.ext (by simp [Fin.val_add])
      have hne : Fin.ofNat 4 (d / 4 ^ n) ≠ 3 := by
        intro heq
        have hthree : d / 4 ^ n % 4 = 3 := congrArg Fin.val heq
        rw [Nat.pow_succ, Nat.mod_mul, hthree] at h
        omega
      rw [decode_succ, decode_succ, hrank, decode_last _ hlast,
        decode_first _ (Nat.mod_eq_zero_of_dvd hdvd)]
      exact shareEdge_quadrants o _ hne n
    · -- the step stays in the quadrant
      rw [decode_succ, decode_succ, Nat.succ_div_of_not_dvd hdvd]
      exact (ih _ ((not_dvd_succ_iff hpos).mp hdvd)).add _ _

end Curve

namespace Cell

variable {c : Cell} {q : Nat}

/-- The corner of a cell is the point of its place on the curve of its level, in larger steps. -/
theorem At.corner_eq (hat : c.At (2 * m) q) (hm : m ≤ leafLevel) :
    (c.corner.i, c.corner.j) =
      ((Curve.decode (faceOrientation c.face) (leafLevel - m) q).1 * 2 ^ m,
        (Curve.decode (faceOrientation c.face) (leafLevel - m) q).2 * 2 ^ m) := by
  have hq : c.word.toNat / 2 / 4 ^ m = q := number_place c ▸ hat.number_place_div
  have hdiv := Curve.decode_div (faceOrientation c.face) (leafLevel - m) m (c.word.toNat / 2)
  rw [Nat.sub_add_cancel hm, hq] at hdiv
  rw [Cell.corner_eq, hat.side_eq hm, ← hdiv, place_eq]

/-- **The curve runs from each cell of a face over an edge to the next one.**  The squares of a cell
and the next cell, with their corners found by rounding down to multiples of their side, agree along
one axis, and along the other one they are one side apart. -/
theorem next_shares_edge (c : Cell) (hc : c.isValid = true) (hface : c.next.face = c.face) :
    c.next.isValid = true ∧ c.next.level = c.level ∧ sideAt? c.level = .ok c.side ∧
      c.next.side = c.side ∧
      (c.corner.i = c.next.corner.i ∧
          (c.corner.j + c.side = c.next.corner.j ∨ c.next.corner.j + c.side = c.corner.j) ∨
        c.corner.j = c.next.corner.j ∧
          (c.corner.i + c.side = c.next.corner.i ∨ c.next.corner.i + c.side = c.corner.i)) := by
  obtain ⟨m, q, hm, hat, _⟩ := isValid_iff.mp hc
  have hnext := hat.next hc
  have hpos : 0 < 4 ^ (leafLevel - m) := Nat.pow_pos (by omega)
  have hq := (hat.isValid_iff_lt hm).mp hc
  have hsame : (q + 1) / 4 ^ (leafLevel - m) = q / 4 ^ (leafLevel - m) := by
    rw [← hnext.face_eq hm, ← hat.face_eq hm, hface]
  have hinside : q % 4 ^ (leafLevel - m) + 1 < 4 ^ (leafLevel - m) := by
    refine (Curve.not_dvd_succ_iff hpos).mp fun hdvd => ?_
    rw [Nat.succ_div_of_dvd hdvd] at hsame
    omega
  have hvalid : c.next.isValid = true := by
    rw [← Nat.div_lt_iff_lt_mul hpos, ← hsame, Nat.div_lt_iff_lt_mul hpos] at hq
    exact (hnext.isValid_iff_lt hm).mpr hq
  have hcorner := hnext.corner_eq hm
  have hshare := (Curve.shareEdge_decode (faceOrientation c.face) hinside).mul (2 ^ m)
  rw [hface] at hcorner
  rw [← hat.corner_eq hm, ← hcorner, Nat.one_mul, ← hat.side_eq hm] at hshare
  refine ⟨hvalid, hnext.level_eq.trans hat.level_eq.symm, ?_,
    (hnext.side_eq hm).trans (hat.side_eq hm).symm, hshare⟩
  rw [sideAt?, requireLevel, if_pos (level_le c)]
  rfl

/-- The step from the lower half of a face into the upper one, for cells of four leaves. -/
theorem next_shares_edge_halves :
    let c : Cell := ⟨0x2ffffffffffffffc⟩
    (c.isValid = true ∧ c.next.face = c.face) ∧ c.next = ⟨0x3000000000000004⟩ ∧
      c.next.isValid = true ∧ c.next.level = c.level ∧ c.side = 2 ∧
      c.corner = ⟨1, 0x20000000, 0x1ffffffe⟩ ∧ c.next.corner.i = c.corner.i ∧
      c.next.corner.j = c.corner.j + c.side := by
  intro c
  have hc : c.isValid = true := by decide
  have hface : c.next.face = c.face := by decide
  have hcorner : c.corner = ⟨1, 0x20000000, 0x1ffffffe⟩ := by decide
  have hup : c.next.corner.j = 0x20000000 := by decide
  obtain ⟨hvalid, hlevel, hside, _, hshare⟩ := next_shares_edge c hc hface
  have htwo : c.side = 2 := by decide
  rw [htwo, hcorner, hup] at hshare
  -- the rows differ, so the columns agree
  obtain ⟨hi, _⟩ | ⟨hj, _⟩ := hshare
  · exact ⟨⟨hc, hface⟩, by decide, hvalid, hlevel, htwo, hcorner, by rw [hcorner, hi],
      by rw [hcorner, hup, htwo]⟩
  · exact absurd hj (by decide)

end Cell

end QuadSphere
