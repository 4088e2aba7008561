import Mathlib.Data.Nat.Bitwise
import Mathlib.Tactic.Ring
import QuadSphere.Curve

/-!
# The curve through a square, both ways

Encoder and decoder go down through the same quadrants, and in each of them both carry the
orientation on in the same way.  So the induction is on the order of the curve, for all orientations
at once.  Only the lowest bits of a point and of a place are read, which is why the two laws of the
round trip are stated for whatever agrees with the other side in these bits.

* `decode_of_mod_eq`, `encode_of_mod_eq`: decoding and encoding undo each other.
* `encode_div`, `decode_div`: a place on a coarser curve is that of the quadrant which the point lies
  in.
* `encode_inj`: different points have different places.
* `decode_first`, `decode_last`: the curve begins in one corner of the square and ends in another.
* `decode_middle`: the point that stands for a whole square lies next to its centre.
-/

namespace QuadSphere.Curve

/-! ## One level -/

/-- The quadrant of a point, on the level above the last `n`. -/
def quadrantAt (n i j : Nat) : Quadrant :=
  ⟨i.testBit n, j.testBit n⟩

theorem encode_of_zero (o : Orientation) (i j : Nat) : encode o 0 i j = 0 := rfl

theorem decode_of_zero (o : Orientation) (d : Nat) : decode o 0 d = (0, 0) := rfl

theorem encode_succ (o : Orientation) (n i j : Nat) :
    encode o (n + 1) i j =
      (o.rank (quadrantAt n i j) : Nat) * 4 ^ n +
        encode (o.inside (o.rank (quadrantAt n i j))) n i j :=
  rfl

theorem decode_succ (o : Orientation) (n d : Nat) :
    decode o (n + 1) d =
      ((o.quadrant (Fin.ofNat 4 (d / 4 ^ n))).i.toNat * 2 ^ n +
          (decode (o.inside (Fin.ofNat 4 (d / 4 ^ n))) n d).1,
        (o.quadrant (Fin.ofNat 4 (d / 4 ^ n))).j.toNat * 2 ^ n +
          (decode (o.inside (Fin.ofNat 4 (d / 4 ^ n))) n d).2) :=
  rfl

/-- The ranks of the lower left, the upper left, the lower right and the upper right quadrant, in
the standard orientation, in the swapped one, in the inverted one, and in that which is both. -/
example :
    [⟨false, false⟩, ⟨true, false⟩, ⟨false, true⟩, ⟨true, true⟩].map (fun o : Orientation =>
      [⟨false, false⟩, ⟨false, true⟩, ⟨true, false⟩, ⟨true, true⟩].map o.rank) =
    [[0, 1, 3, 2], [0, 3, 1, 2], [2, 3, 1, 0], [2, 1, 3, 0]] := by
  decide

theorem encode_lt (o : Orientation) (n i j : Nat) : encode o n i j < 4 ^ n := by
  induction n generalizing o with
  | zero => rw [encode_of_zero]; exact Nat.pow_pos (by omega)
  | succ n ih =>
    have hrank := (o.rank (quadrantAt n i j)).isLt
    have hrest := ih (o.inside (o.rank (quadrantAt n i j)))
    rw [encode_succ, Nat.pow_succ']
    calc _ < (o.rank (quadrantAt n i j) : Nat) * 4 ^ n + 4 ^ n := Nat.add_lt_add_left hrest _
      _ = ((o.rank (quadrantAt n i j) : Nat) + 1) * 4 ^ n := by ring
      _ ≤ 4 * 4 ^ n := Nat.mul_le_mul_right _ hrank

theorem decode_lt (o : Orientation) (n d : Nat) :
    (decode o n d).1 < 2 ^ n ∧ (decode o n d).2 < 2 ^ n := by
  induction n generalizing o with
  | zero => rw [decode_of_zero]; exact ⟨Nat.two_pow_pos 0, Nat.two_pow_pos 0⟩
  | succ n ih =>
    have hbit : ∀ (b : Bool) (r : Nat), r < 2 ^ n → b.toNat * 2 ^ n + r < 2 * 2 ^ n := by
      intro b r hr
      cases b
      · simp only [Bool.toNat_false, Nat.zero_mul]; omega
      · simp only [Bool.toNat_true, Nat.one_mul]; omega
    obtain ⟨h1, h2⟩ := ih (o.inside (Fin.ofNat 4 (d / 4 ^ n)))
    rw [decode_succ, Nat.pow_succ']
    exact ⟨hbit _ _ h1, hbit _ _ h2⟩

/-! ## The round trip -/

theorem toNat_testBit (x n : Nat) :
    (x.testBit n).toNat * 2 ^ n + x % 2 ^ n = x % 2 ^ (n + 1) := by
  have hbit : (x.testBit n).toNat = x / 2 ^ n % 2 := by
    rw [Nat.testBit_eq_decide_div_mod_eq]
    rcases Nat.mod_two_eq_zero_or_one (x / 2 ^ n) with h | h <;> simp [h]
  rw [hbit, Nat.pow_succ, Nat.mod_mul, Nat.mul_comm, Nat.add_comm]

theorem testBit_of_mod_eq {x n r : Nat} {b : Bool} (hr : r < 2 ^ n)
    (h : x % 2 ^ (n + 1) = b.toNat * 2 ^ n + r) : x.testBit n = b ∧ x % 2 ^ n = r := by
  have hlow : x % 2 ^ n = r := by
    rw [← Nat.mod_mul_right_mod x (2 ^ n) 2, ← Nat.pow_succ, h, Nat.mul_add_mod_self_right,
      Nat.mod_eq_of_lt hr]
  refine ⟨?_, hlow⟩
  have hsum := toNat_testBit x n
  rw [h, hlow, Nat.add_right_cancel_iff] at hsum
  have hbit := Nat.eq_of_mul_eq_mul_right (Nat.two_pow_pos n) hsum
  cases hx : x.testBit n <;> cases b <;> simp [hx] at hbit ⊢

/-- The first two bits of a place are the rank of a quadrant, and the others the place in it. -/
theorem div_mod_of_mod_eq {d n e : Nat} {p : Fin 4} (he : e < 4 ^ n)
    (h : d % 4 ^ (n + 1) = p * 4 ^ n + e) : Fin.ofNat 4 (d / 4 ^ n) = p ∧ d % 4 ^ n = e := by
  constructor
  · apply Fin.ext
    rw [Fin.val_ofNat, ← Nat.mod_mul_right_div_self, ← Nat.pow_succ, h, Nat.mul_comm,
      Nat.mul_add_div (Nat.pow_pos (by omega)), Nat.div_eq_of_lt he, Nat.add_zero]
  · rw [← Nat.mod_mul_right_mod d (4 ^ n) 4, ← Nat.pow_succ, h, Nat.mul_add_mod_self_right,
      Nat.mod_eq_of_lt he]

/-- **Decoding undoes encoding.** -/
theorem decode_of_mod_eq (o : Orientation) {n i j d : Nat} (h : d % 4 ^ n = encode o n i j) :
    decode o n d = (i % 2 ^ n, j % 2 ^ n) := by
  induction n generalizing o with
  | zero => simp [decode_of_zero, Nat.mod_one]
  | succ n ih =>
    rw [encode_succ] at h
    obtain ⟨hrank, hrest⟩ := div_mod_of_mod_eq (encode_lt _ n i j) h
    rw [decode_succ, hrank, ih _ hrest, Orientation.quadrant_rank]
    exact Prod.ext (toNat_testBit i n) (toNat_testBit j n)

/-- **Encoding undoes decoding.** -/
theorem encode_of_mod_eq (o : Orientation) {n i j d : Nat} (hi : i % 2 ^ n = (decode o n d).1)
    (hj : j % 2 ^ n = (decode o n d).2) : encode o n i j = d % 4 ^ n := by
  induction n generalizing o with
  | zero => simp [encode_of_zero, Nat.mod_one]
  | succ n ih =>
    rw [decode_succ] at hi hj
    obtain ⟨hlt₁, hlt₂⟩ := decode_lt (o.inside (Fin.ofNat 4 (d / 4 ^ n))) n d
    obtain ⟨hbi, hri⟩ := testBit_of_mod_eq hlt₁ hi
    obtain ⟨hbj, hrj⟩ := testBit_of_mod_eq hlt₂ hj
    have hquad : quadrantAt n i j = o.quadrant (Fin.ofNat 4 (d / 4 ^ n)) := by
      rw [quadrantAt, hbi, hbj]
    rw [encode_succ, hquad, Orientation.rank_quadrant, ih _ hri hrj, Fin.val_ofNat, Nat.pow_succ,
      Nat.mod_mul, Nat.mul_comm, Nat.add_comm]

theorem encode_inj (o : Orientation) {n i j i' j' : Nat} (hi : i < 2 ^ n) (hj : j < 2 ^ n)
    (hi' : i' < 2 ^ n) (hj' : j' < 2 ^ n) (h : encode o n i j = encode o n i' j') :
    i = i' ∧ j = j' := by
  have hmod := Nat.mod_eq_of_lt (encode_lt o n i j)
  have hdec := (decode_of_mod_eq o hmod).symm.trans (decode_of_mod_eq o (hmod.trans h))
  rw [Nat.mod_eq_of_lt hi, Nat.mod_eq_of_lt hj, Nat.mod_eq_of_lt hi', Nat.mod_eq_of_lt hj'] at hdec
  exact Prod.ext_iff.mp hdec

/-! ## Coarser curves -/

/-- The first bits of a place are the place of the quadrant on the coarser curve. -/
theorem encode_div (o : Orientation) (n m i j : Nat) :
    encode o (n + m) i j / 4 ^ m = encode o n (i / 2 ^ m) (j / 2 ^ m) := by
  induction n generalizing o with
  | zero =>
    rw [Nat.zero_add, Nat.div_eq_of_lt (encode_lt o m i j)]
    rfl
  | succ n ih =>
    have hquad : quadrantAt (n + m) i j = quadrantAt n (i / 2 ^ m) (j / 2 ^ m) := by
      rw [quadrantAt, quadrantAt, Nat.testBit_div_two_pow, Nat.testBit_div_two_pow]
    rw [show n + 1 + m = n + m + 1 by omega, encode_succ, encode_succ, hquad, ← ih, Nat.pow_add,
      ← Nat.mul_assoc, Nat.mul_comm _ (4 ^ m), Nat.mul_add_div (Nat.pow_pos (by omega))]

theorem exists_decode_mod (o : Orientation) (n m d : Nat) :
    ∃ o', ((decode o (n + m) d).1 % 2 ^ m, (decode o (n + m) d).2 % 2 ^ m) = decode o' m d := by
  induction n generalizing o with
  | zero =>
    obtain ⟨h1, h2⟩ := decode_lt o m d
    refine ⟨o, ?_⟩
    rw [Nat.zero_add, Nat.mod_eq_of_lt h1, Nat.mod_eq_of_lt h2]
  | succ n ih =>
    obtain ⟨o', ho'⟩ := ih (o.inside (Fin.ofNat 4 (d / 4 ^ (n + m))))
    have hlow : ∀ b x : Nat, (b * 2 ^ (n + m) + x) % 2 ^ m = x % 2 ^ m := fun b x => by
      rw [Nat.pow_add, ← Nat.mul_assoc, Nat.mul_add_mod_self_right]
    refine ⟨o', ?_⟩
    rw [show n + 1 + m = n + m + 1 by omega, decode_succ, ← ho']
    exact Prod.ext (hlow _ _) (hlow _ _)

theorem decode_div (o : Orientation) (n m d : Nat) :
    ((decode o (n + m) d).1 / 2 ^ m, (decode o (n + m) d).2 / 2 ^ m) = decode o n (d / 4 ^ m) := by
  induction n generalizing o with
  | zero =>
    obtain ⟨h1, h2⟩ := decode_lt o m d
    rw [Nat.zero_add, Nat.div_eq_of_lt h1, Nat.div_eq_of_lt h2]
    rfl
  | succ n ih =>
    have hrank : d / 4 ^ (n + m) = d / 4 ^ m / 4 ^ n := by
      rw [Nat.div_div_eq_div_mul, ← Nat.pow_add, Nat.add_comm m]
    have hhigh : ∀ b x : Nat, (b * 2 ^ (n + m) + x) / 2 ^ m = b * 2 ^ n + x / 2 ^ m := fun b x => by
      rw [Nat.pow_add, ← Nat.mul_assoc, Nat.mul_comm _ (2 ^ m), Nat.mul_add_div (Nat.two_pow_pos m)]
    rw [show n + 1 + m = n + m + 1 by omega, decode_succ, decode_succ, ← hrank, ← ih]
    exact Prod.ext (hhigh _ _) (hhigh _ _)

/-! ## Where the curve begins and ends -/

/-- The point of a square with the side `2 ^ n` that lies in the corner of a quadrant. -/
def corner (q : Quadrant) (n : Nat) : Nat × Nat :=
  (q.i.toNat * (2 ^ n - 1), q.j.toNat * (2 ^ n - 1))

theorem toNat_mul_two_pow_add (b : Bool) (n : Nat) :
    b.toNat * 2 ^ n + b.toNat * (2 ^ n - 1) = b.toNat * (2 ^ (n + 1) - 1) := by
  have hpos := Nat.two_pow_pos n
  cases b with
  | false => simp
  | true =>
    rw [Bool.toNat_true, Nat.pow_succ]
    omega

theorem quadrant_inside_zero (o : Orientation) : (o.inside 0).quadrant 0 = o.quadrant 0 := by
  obtain ⟨s, v⟩ := o
  cases s <;> cases v <;> rfl

theorem quadrant_inside_three (o : Orientation) : (o.inside 3).quadrant 3 = o.quadrant 3 := by
  obtain ⟨s, v⟩ := o
  cases s <;> cases v <;> rfl

/-- The curve begins in the corner of its first quadrant, which begins there too. -/
theorem decode_first (o : Orientation) {n d : Nat} (h : d % 4 ^ n = 0) :
    decode o n d = corner (o.quadrant 0) n := by
  induction n generalizing o with
  | zero => simp [decode_of_zero, corner]
  | succ n ih =>
    obtain ⟨hrank, hrest⟩ := div_mod_of_mod_eq (p := 0) (Nat.pow_pos (by omega : 0 < 4))
      (h.trans (by simp))
    rw [decode_succ, hrank, ih _ hrest, quadrant_inside_zero]
    exact Prod.ext (toNat_mul_two_pow_add _ n) (toNat_mul_two_pow_add _ n)

/-- The curve ends in the corner of its last quadrant, which ends there too. -/
theorem decode_last (o : Orientation) {n d : Nat} (h : d % 4 ^ n + 1 = 4 ^ n) :
    decode o n d = corner (o.quadrant 3) n := by
  induction n generalizing o with
  | zero => simp [decode_of_zero, corner]
  | succ n ih =>
    have hpos := Nat.pow_pos (by omega : 0 < 4) (n := n)
    have hlast : d % 4 ^ (n + 1) = (3 : Fin 4) * 4 ^ n + (4 ^ n - 1) := by
      rw [Nat.pow_succ] at h ⊢
      change _ = 3 * 4 ^ n + _
      omega
    obtain ⟨hrank, hrest⟩ := div_mod_of_mod_eq (Nat.sub_lt hpos Nat.one_pos) hlast
    rw [decode_succ, hrank, ih _ (by omega), quadrant_inside_three]
    exact Prod.ext (toNat_mul_two_pow_add _ n) (toNat_mul_two_pow_add _ n)

/-! ## The middle of a square -/

theorem quadrant_zero (o : Orientation) : o.quadrant 0 = ⟨o.inverted, o.inverted⟩ := by
  obtain ⟨s, v⟩ := o
  cases s <;> cases v <;> rfl

theorem quadrant_two (o : Orientation) : o.quadrant 2 = ⟨!o.inverted, !o.inverted⟩ := by
  obtain ⟨s, v⟩ := o
  cases s <;> cases v <;> rfl

/-- The place half way along the curve is next to the centre of the square, on the diagonal. -/
theorem decode_middle (o : Orientation) {n d : Nat} (h : d % 4 ^ (n + 1) = 2 * 4 ^ n) :
    decode o (n + 1) d = if o.inverted then (2 ^ n - 1, 2 ^ n - 1) else (2 ^ n, 2 ^ n) := by
  obtain ⟨hrank, hrest⟩ := div_mod_of_mod_eq (p := 2) (Nat.pow_pos (by omega : 0 < 4))
    (h.trans (by simp))
  rw [decode_succ, hrank, decode_first _ hrest, quadrant_two, show o.inside 2 = o from rfl, corner,
    quadrant_zero]
  cases o.inverted <;> simp

end QuadSphere.Curve
