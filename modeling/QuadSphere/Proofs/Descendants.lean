import Mathlib.Data.List.Iterate
import QuadSphere.Cover.Refine
import QuadSphere.Proofs.Paths
import QuadSphere.Proofs.Relation

/-!
# The cells of a level

Below the cell with the number `q` lie the cells of a finer level whose number divided by `4 ^ t` is
`q`.  They are a run of numbers, which begins with `firstAt` and ends before `endAt`, and one step
along the curve adds one to the number.  So a walk from the beginning meets the end after exactly
`4 ^ t` steps.  The cells of a whole level are such a run too, from the first face to the end of the
last one, since the numbers go on from face to face.

* `isValid_and_level_iff`: the numbers of the cells of a level.
* `At.covers_iff`: which cells of a finer level a cell covers.
* `At.iterate_next`, `At.walk_eq_ok`: the cells passed on the way from one cell to another.
* `At.firstAt`, `At.endAt`: where the cells below a cell begin and end.
* `mem_below_iff`, `pairwise_below`, `hasLeaf_below_iff`: the walk passes every cell below a cell
  once, in order, and they have its leaves.
* `levels_passed`: the steps through the cells of a level, below a cell and along the whole curve.
-/

namespace QuadSphere.Cell

variable {c d stop : Cell} {k m n l a q r i : Nat}

/-! ## Cells and their numbers -/

/-- The cells of a level are the words with the numbers below that of the squares of the level. -/
theorem isValid_and_level_iff (hl : l ≤ leafLevel) :
    c.isValid = true ∧ c.level = l ↔ ∃ q < 6 * 4 ^ l, c.At (2 * (leafLevel - l)) q := by
  constructor
  · rintro ⟨hv, rfl⟩
    obtain ⟨m, q, hm, hat, _⟩ := isValid_iff.mp hv
    have hq := (hat.isValid_iff_lt hm).mp hv
    rw [hat.level_eq, Nat.sub_sub_self (show m ≤ leafLevel from hm)]
    exact ⟨q, hq, hat⟩
  · rintro ⟨q, hq, hat⟩
    rw [hat.isValid_iff_lt (Nat.sub_le _ _), hat.level_eq, Nat.sub_sub_self hl]
    exact ⟨hq, rfl⟩

theorem At.covers_iff (hc : c.At (2 * (m + n)) q) (hd : d.At (2 * n) r) :
    c.Covers d ↔ r / 4 ^ m = q := by
  have hpos := Nat.two_pow_pos (2 * n)
  have hpow : 2 ^ (2 * (m + n)) = 4 ^ m * 2 ^ (2 * n) := by
    rw [Nat.mul_add, Nat.pow_add, Nat.pow_mul]
  have hstart : c.start ≤ d.start ↔ q * 4 ^ m ≤ r := by
    rw [hc.start_eq, hd.start_eq, hpow, ← Nat.mul_assoc q, Nat.mul_le_mul_left_iff (by omega),
      Nat.mul_le_mul_right_iff hpos]
  have hstop : d.stop ≤ c.stop ↔ r + 1 ≤ (q + 1) * 4 ^ m := by
    rw [hc.stop_eq, hd.stop_eq, hpow, ← Nat.mul_add, ← Nat.mul_add, ← Nat.succ_mul, ← Nat.succ_mul,
      ← Nat.mul_assoc q.succ, Nat.mul_le_mul_left_iff (by omega), Nat.mul_le_mul_right_iff hpos]
  rw [Covers, hstart, hstop, Nat.div_eq_iff (Nat.pow_pos (by omega)), Nat.succ_mul]
  have := Nat.pow_pos (by omega : 0 < 4) (n := m)
  omega

/-! ## Steps along the curve -/

/-- The steps along the curve from `first` reach `stop` after `n` of them and not before, and the
cells on the way are those with `P`. -/
structure Passes (first stop : Cell) (n : Nat) (P : Cell → Prop) : Prop where
  reaches : next^[n] first = stop
  not_before : ∀ i < n, next^[i] first ≠ stop
  increasing : ∀ i j, i < j → j < n → next^[i] first < next^[j] first
  /-- No two of the cells on the way have a leaf in common. -/
  apart : ∀ i j, i < j → j < n → ∀ x, (next^[i] first).HasLeaf x → ¬(next^[j] first).HasLeaf x
  passes_iff : ∀ d, P d ↔ ∃ i < n, next^[i] first = d

section Run

variable (hc : c.At k a) (hstop : stop.At k (a + n))
include hc hstop

/-- The words of a run grow towards its end, so no step passes the last word. -/
theorem At.iterate_next (hi : i ≤ n) : (Cell.next^[i] c).At k (a + i) := by
  induction i with
  | zero => exact hc
  | succ i ih =>
    have hat := ih (by omega)
    have hle := Nat.mul_le_mul_right (2 ^ k) (show a + i + 1 ≤ a + n by omega)
    have hlast := stop.word.toNat_lt
    rw [Nat.succ_mul] at hle
    rw [hstop.word_eq] at hlast
    rw [Function.iterate_succ_apply']
    refine hat.next_of_lt ?_
    rw [hat.word_eq]
    omega

theorem At.mem_iterate_next_iff :
    d ∈ List.iterate Cell.next c n ↔ ∃ r, (a ≤ r ∧ r < a + n) ∧ d.At k r := by
  rw [List.mem_iterate]
  constructor
  · rintro ⟨i, hi, rfl⟩
    exact ⟨a + i, by omega, hc.iterate_next hstop (Nat.le_of_lt hi)⟩
  · rintro ⟨r, ⟨har, hrn⟩, hd⟩
    have hat := hc.iterate_next hstop (i := r - a) (by omega)
    rw [Nat.add_sub_cancel' har] at hat
    exact ⟨r - a, by omega, hd.eq hat⟩

theorem At.pairwise_iterate_next : (List.iterate Cell.next c n).Pairwise Before := by
  induction n generalizing c a with
  | zero => exact .nil
  | succ n ih =>
    have hnext : c.next.At k (a + 1) := hc.iterate_next hstop (i := 1) (by omega)
    rw [show a + (n + 1) = a + 1 + n by omega] at hstop
    refine List.pairwise_cons.mpr ⟨fun d hd => ?_, ih hnext hstop⟩
    obtain ⟨r, ⟨har, _⟩, hat⟩ := (hnext.mem_iterate_next_iff hstop).mp hd
    exact hc.stop_le_start hat har

/-- **The walk stops at the end of the run, and not before.** -/
theorem At.walk_eq_ok (passed : List Cell) :
    walk stop c passed = .ok (passed.reverse ++ List.iterate Cell.next c n) := by
  induction n generalizing c a passed with
  | zero =>
    rw [walk, if_pos (hc.eq hstop), List.iterate, List.append_nil]
  | succ n ih =>
    have hne : c ≠ stop := by
      rintro rfl
      have := (hc.unique hstop).2
      omega
    have hnext : c.next.At k (a + 1) := hc.iterate_next hstop (i := 1) (by omega)
    have hlt : c.word < c.next.word :=
      Before.lt hc.ne_null hnext.ne_null (hc.stop_le_start hnext (Nat.lt_succ_self a))
    rw [show a + (n + 1) = a + 1 + n by omega] at hstop
    rw [walk, if_neg hne, if_pos hlt, ih hnext hstop, List.reverse_cons, List.append_assoc]
    rfl

/-- **Steps from the beginning of a run pass its cells.** -/
theorem At.passes {P : Cell → Prop} (hP : ∀ d, d ∈ List.iterate Cell.next c n ↔ P d) :
    Passes c stop n P := by
  have hat : ∀ i ≤ n, (Cell.next^[i] c).At k (a + i) := fun i => hc.iterate_next hstop
  have hbefore : ∀ i j, i < j → j < n → (Cell.next^[i] c).Before (Cell.next^[j] c) := by
    intro i j hij hj
    exact (hat i (by omega)).stop_le_start (hat j (by omega)) (by omega)
  refine ⟨(hat n (Nat.le_refl n)).eq hstop, fun i hi heq => ?_, fun i j hij hj => ?_,
    fun i j hij hj => ?_, fun d => ?_⟩
  · have hsame := ((hat i (Nat.le_of_lt hi)).unique (heq ▸ hstop)).2
    omega
  · exact (hbefore i j hij hj).lt (hat i (by omega)).ne_null (hat j (by omega)).ne_null
  · exact (hbefore i j hij hj).apart (hat i (by omega)).ne_null (hat j (by omega)).ne_null
  · rw [← hP, List.mem_iterate]
    simp only [eq_comm]

end Run

/-! ## From the first cell below to the end -/

theorem At.firstAt (hc : c.At (2 * (m + n)) q) (hn : leafLevel - l = n) :
    (c.firstAt l).At (2 * n) (q * 4 ^ m) := by
  have hmarker := toNat_markerAt l
  have hsum := start_add_marker hc.ne_null
  have hlt := c.word.toNat_lt
  have hle : (markerAt l).toNat ≤ c.marker.toNat := by
    rw [hmarker, hc.marker_eq]
    exact Nat.pow_le_pow_right (by omega) (by omega)
  have hsub : (c.word - c.marker).toNat = c.start :=
    UInt64.toNat_sub_of_le _ _ (UInt64.le_iff_toNat_le.mpr (by omega))
  rw [At, Cell.firstAt, UInt64.toNat_add, hsub, Nat.mod_eq_of_lt (by omega), hmarker, hc.start_eq,
    hn, Nat.mul_add 2 m, Nat.pow_add, Nat.pow_mul]
  ring

theorem stop_add_markerAt_lt (hv : c.isValid = true) (l : Nat) :
    c.stop + (markerAt l).toNat < 2 ^ 64 := by
  obtain ⟨m, q, hm, hat, hend⟩ := isValid_iff.mp hv
  have hmarker : (markerAt l).toNat ≤ 2 ^ 60 := by
    rw [toNat_markerAt]
    exact Nat.pow_le_pow_right (by omega) (by rw [leafLevel]; omega)
  omega

theorem toNat_add_marker (hv : c.isValid = true) : (c.word + c.marker).toNat = c.stop := by
  have := stop_add_markerAt_lt hv 0
  rw [UInt64.toNat_add, word_add_marker, Nat.mod_eq_of_lt (by omega)]

theorem At.endAt (hc : c.At (2 * (m + n)) q) (hv : c.isValid = true) (hn : leafLevel - l = n) :
    (c.endAt l).At (2 * n) (q * 4 ^ m + 4 ^ m) := by
  rw [At, Cell.endAt, UInt64.toNat_add, toNat_add_marker hv,
    Nat.mod_eq_of_lt (stop_add_markerAt_lt hv l), toNat_markerAt, hc.stop_eq, hn, Nat.mul_add 2 m,
    Nat.pow_add, Nat.pow_mul]
  ring

/-- The cells of a level below a cell, in order. -/
def below (c : Cell) (l : Nat) : List Cell :=
  List.iterate next (c.firstAt l) (4 ^ (l - c.level))

section Below

variable (hv : c.isValid = true) (hcl : c.level ≤ l) (hl : l ≤ leafLevel)
include hv hcl hl

theorem endAt?_eq_ok : c.endAt? l = .ok (c.endAt l) := by
  have hlt := stop_add_markerAt_lt hv l
  have hstop := sum?_eq_ok (Nat.lt_of_le_of_lt (Nat.le_add_right c.stop _) hlt)
  have hend := sum?_eq_ok ((toNat_add_marker hv).symm ▸ hlt)
  rw [endAt?, requireDescent, if_pos ⟨hcl, hl⟩, hstop, ok_bind, ok_bind, hend]
  rfl

theorem exists_run : ∃ q < 6 * 4 ^ c.level, c.At (2 * (l - c.level + (leafLevel - l))) q ∧
    (c.firstAt l).At (2 * (leafLevel - l)) (q * 4 ^ (l - c.level)) ∧
    (c.endAt l).At (2 * (leafLevel - l)) (q * 4 ^ (l - c.level) + 4 ^ (l - c.level)) := by
  obtain ⟨q, hq, hat⟩ := (isValid_and_level_iff (level_le c)).mp ⟨hv, rfl⟩
  rw [show leafLevel - c.level = l - c.level + (leafLevel - l) by omega] at hat
  exact ⟨q, hq, hat, hat.firstAt rfl, hat.endAt hv rfl⟩

theorem walk_eq_below : walk (c.endAt l) (c.firstAt l) [] = .ok (c.below l) := by
  obtain ⟨q, _, _, hfirst, hend⟩ := exists_run hv hcl hl
  exact hfirst.walk_eq_ok hend []

theorem mem_below_iff : d ∈ c.below l ↔ d.isValid = true ∧ d.level = l ∧ c.Covers d := by
  obtain ⟨q, hq, hat, hfirst, hend⟩ := exists_run hv hcl hl
  have hpos : 0 < 4 ^ (l - c.level) := Nat.pow_pos (by omega)
  rw [below, hfirst.mem_iterate_next_iff hend, ← and_assoc, isValid_and_level_iff hl]
  constructor
  · rintro ⟨r, ⟨hlo, hhi⟩, hd⟩
    have hlast : (q + 1) * 4 ^ (l - c.level) ≤ 6 * 4 ^ l := by
      calc (q + 1) * 4 ^ (l - c.level) ≤ 6 * 4 ^ c.level * 4 ^ (l - c.level) :=
            Nat.mul_le_mul_right _ hq
        _ = 6 * 4 ^ l := by rw [Nat.mul_assoc, ← Nat.pow_add, Nat.add_sub_cancel' hcl]
    rw [Nat.succ_mul] at hlast
    have hdiv : r / 4 ^ (l - c.level) = q := (Nat.div_eq_iff hpos).mpr (by omega)
    exact ⟨⟨r, by omega, hd⟩, (hat.covers_iff hd).mpr hdiv⟩
  · rintro ⟨⟨r, _, hd⟩, hcov⟩
    have hdiv := (Nat.div_eq_iff hpos).mp ((hat.covers_iff hd).mp hcov)
    exact ⟨r, by omega, hd⟩

theorem mem_below_iff_ancestor? :
    d ∈ c.below l ↔ d.isValid = true ∧ d.level = l ∧ d.ancestor? c.level = .ok c := by
  rw [mem_below_iff hv hcl hl]
  refine and_congr_right fun hd => and_congr_right fun _ => ?_
  rw [ancestor?_eq_ok_iff, ← contains_iff_ancestor hv hd,
    contains_iff (ne_null_of_isValid hv) (ne_null_of_isValid hd)]

theorem pairwise_below : (c.below l).Pairwise Before := by
  obtain ⟨q, _, _, hfirst, hend⟩ := exists_run hv hcl hl
  exact hfirst.pairwise_iterate_next hend

theorem hasLeaf_below_iff (x : UInt64) : QuadSphere.HasLeaf (c.below l) x ↔ c.HasLeaf x := by
  rw [hasLeaf_iff_exists_covers hv hcl hl]
  exact exists_congr fun d => and_congr_left' (mem_below_iff hv hcl hl)

end Below

theorem below_level (hv : c.isValid = true) : c.below c.level = [c] := by
  obtain ⟨q, _, hat, hfirst, _⟩ := exists_run hv (Nat.le_refl _) (level_le c)
  rw [Nat.sub_self, Nat.zero_add] at hat
  rw [Nat.sub_self, Nat.pow_zero, Nat.mul_one] at hfirst
  rw [below, Nat.sub_self, hfirst.eq hat]
  rfl

/-! ## Whole levels -/

theorem exists_whole_run (hl : l ≤ leafLevel) :
    ∃ first stop, first? l = .ok first ∧ end? l = .ok stop ∧
      first.At (2 * (leafLevel - l)) 0 ∧ stop.At (2 * (leafLevel - l)) (6 * 4 ^ l) := by
  have hface : 5 < faceCount := by decide
  have hzero : 0 < faceCount := by decide
  have hlevel : (root 0).level ≤ l := (level_root hzero).trans_le (Nat.zero_le l)
  have hlevel' : (root 5).level ≤ l := (level_root hface).trans_le (Nat.zero_le l)
  have hroot := root_at hzero
  have hroot' := root_at hface
  rw [show leafLevel = l + (leafLevel - l) by omega] at hroot hroot'
  have hfirst := hroot.firstAt rfl
  have hstop := hroot'.endAt (isValid_root hface) rfl
  rw [Nat.zero_mul] at hfirst
  rw [← Nat.succ_mul] at hstop
  exact ⟨_, _, firstAt?_eq_ok hlevel hl, endAt?_eq_ok (isValid_root hface) hlevel' hl, hfirst,
    hstop⟩

/-- **The steps along the curve pass the cells of a level, each once and in order.**  Below a cell
they lead from the first cell of the level to its end, and the leaves of the cell are shared out
among the cells on the way.  Along the whole curve they lead from face to face. -/
theorem levels_passed (l : Nat) (hl : l ≤ leafLevel) :
    (∀ c : Cell, c.isValid = true → c.level ≤ l → ∃ first stop,
      c.firstAt? l = .ok first ∧ c.endAt? l = .ok stop ∧
      Passes first stop (4 ^ (l - c.level)) (fun d =>
        d.isValid = true ∧ d.level = l ∧ d.ancestor? c.level = .ok c) ∧
      ∀ x, c.HasLeaf x ↔ ∃ i < 4 ^ (l - c.level), (next^[i] first).HasLeaf x) ∧
    ∃ first stop, first? l = .ok first ∧ end? l = .ok stop ∧
      Passes first stop (6 * 4 ^ l) fun d => d.isValid = true ∧ d.level = l := by
  constructor
  · intro c hv hcl
    obtain ⟨q, _, _, hfirst, hend⟩ := exists_run hv hcl hl
    refine ⟨_, _, firstAt?_eq_ok hcl hl, endAt?_eq_ok hv hcl hl,
      hfirst.passes hend fun d => mem_below_iff_ancestor? hv hcl hl, fun x => ?_⟩
    rw [← hasLeaf_below_iff hv hcl hl, QuadSphere.HasLeaf]
    simp only [below, List.mem_iterate]
    constructor
    · rintro ⟨_, ⟨i, hi, rfl⟩, hx⟩
      exact ⟨i, hi, hx⟩
    · rintro ⟨i, hi, hx⟩
      exact ⟨_, ⟨i, hi, rfl⟩, hx⟩
  · obtain ⟨first, stop, hfirst, hstop, hat, hend⟩ := exists_whole_run hl
    rw [← Nat.zero_add (6 * 4 ^ l)] at hend
    refine ⟨first, stop, hfirst, hstop, hat.passes hend fun d => ?_⟩
    rw [hat.mem_iterate_next_iff hend, isValid_and_level_iff hl]
    simp only [Nat.zero_le, true_and, Nat.zero_add]

/-- The third level below a cell of the first one, and on all six faces. -/
theorem levels_passed_three :
    let c : Cell := ⟨0x4c00000000000000⟩
    (3 ≤ leafLevel ∧ c.isValid = true ∧ c.level ≤ 3) ∧
      Passes ⟨0x4840000000000000⟩ ⟨0x5040000000000000⟩ 16 (fun d =>
        d.isValid = true ∧ d.level = 3 ∧ d.ancestor? 1 = .ok c) ∧
      Passes ⟨0x0040000000000000⟩ ⟨0xc040000000000000⟩ 384 fun d =>
        d.isValid = true ∧ d.level = 3 := by
  intro c
  have hc : 3 ≤ leafLevel ∧ c.isValid = true ∧ c.level ≤ 3 := by decide
  have hone : c.level = 1 := by decide
  have hends : c.firstAt? 3 = .ok ⟨0x4840000000000000⟩ ∧ c.endAt? 3 = .ok ⟨0x5040000000000000⟩ ∧
      first? 3 = .ok ⟨0x0040000000000000⟩ ∧ end? 3 = .ok ⟨0xc040000000000000⟩ := by decide
  obtain ⟨hbelow, first, stop, hfirst, hstop, hwhole⟩ := levels_passed 3 hc.1
  obtain ⟨first', stop', hfirst', hstop', hpart, _⟩ := hbelow c hc.2.1 hc.2.2
  obtain rfl := Except.ok.inj (hends.1.symm.trans hfirst')
  obtain rfl := Except.ok.inj (hends.2.1.symm.trans hstop')
  obtain rfl := Except.ok.inj (hends.2.2.1.symm.trans hfirst)
  obtain rfl := Except.ok.inj (hends.2.2.2.symm.trans hstop)
  rw [hone] at hpart
  exact ⟨hc, hpart, hwhole⟩

end QuadSphere.Cell
