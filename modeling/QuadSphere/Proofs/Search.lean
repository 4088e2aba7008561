import Mathlib.Data.List.TakeWhile
import QuadSphere.Cover.Membership
import QuadSphere.Proofs.Canonical

/-!
# Search in a separated list

Bisection finds the place where an increasing list passes a cell.  If a cell of a separated list
covers the cell or meets it, one of the two beside this place does.

* `bisect_append`: bisection finds the place where a list turns.
* `around_seek`: the two cells beside a cell are those that `seek` leads to.
* `takeWhile_drop_seek`: the cells within the range of a cell are found from its first leaf on.
* `contains?_spec`, `intersects?_spec`: the two questions are answered rightly.
* `queries_decide_leaves`: in a canonical cover they are questions about leaves.
-/

namespace QuadSphere

/-! ## Bisection -/

section Bisect

variable {α : Type} {p : α → Bool}

/-- The halving keeps the turn of the list between its two ends. -/
theorem bisectFrom_eq {xs : Array α} {base n m : Nat}
    (hlow : ∀ i (h : i < xs.size), i < m → p xs[i] = true)
    (hhigh : ∀ i (h : i < xs.size), m ≤ i → p xs[i] = false) (hbase : base ≤ m)
    (hm : m ≤ base + n) (hn : base + n ≤ xs.size) (hpos : 1 ≤ n) : bisectFrom p xs base n = m := by
  have hany : ∀ i (h : i < xs.size), (xs[i]?).any p = p xs[i] := fun i h => by
    rw [Array.getElem?_eq_getElem h]
    rfl
  induction n using Nat.strong_induction_on generalizing base with
  | _ n ih =>
    rw [bisectFrom]
    by_cases h1 : n ≤ 1
    · rw [if_pos h1, hany base (by omega)]
      rcases Nat.lt_or_ge base m with h | h
      · rw [hlow base (by omega) h, if_pos rfl]
        omega
      · rw [hhigh base (by omega) h, if_neg Bool.false_ne_true]
        omega
    · rw [if_neg h1]
      dsimp only
      rw [hany (base + n / 2) (by omega)]
      rcases Nat.lt_or_ge (base + n / 2) m with h | h
      · rw [hlow (base + n / 2) (by omega) h, if_pos rfl]
        exact ih (n - n / 2) (by omega) (by omega) (by omega) (by omega) (by omega)
      · rw [hhigh (base + n / 2) (by omega) h, if_neg Bool.false_ne_true]
        exact ih (n - n / 2) (by omega) hbase (by omega) (by omega) (by omega)

/-- Bisection finds the place where a list turns, if it turns once. -/
theorem bisect_append {front back : List α} (hf : ∀ x ∈ front, p x = true)
    (hb : ∀ x ∈ back, p x = false) : bisect p (front ++ back) = front.length := by
  rw [bisect]
  rcases Nat.eq_zero_or_pos (front ++ back).length with h0 | hpos
  · rw [List.length_append] at h0
    obtain rfl : front = [] := List.eq_nil_of_length_eq_zero (by omega)
    obtain rfl : back = [] := List.eq_nil_of_length_eq_zero (by simpa using h0)
    simp [bisectFrom]
  · apply bisectFrom_eq
    · intro i hi hlt
      rw [List.getElem_toArray, List.getElem_append_left hlt]
      exact hf _ (List.getElem_mem hlt)
    · intro i hi hge
      rw [List.getElem_toArray, List.getElem_append_right hge]
      exact hb _ (List.getElem_mem _)
    · exact Nat.zero_le _
    · simp
    · simp
    · exact hpos

end Bisect

/-! ## Lists that turn once -/

section Turn

variable {α : Type} {p : α → Bool} {xs : List α}

theorem takeWhile_eq_filter (h : xs.Pairwise fun x y => p y = true → p x = true) :
    xs.takeWhile p = xs.filter p := by
  induction xs with
  | nil => rfl
  | cons x xs ih =>
    obtain ⟨hx, hxs⟩ := List.pairwise_cons.mp h
    by_cases hp : p x = true
    · rw [List.takeWhile_cons_of_pos hp, List.filter_cons_of_pos hp, ih hxs]
    · have hnone : xs.filter p = [] := by
        rw [List.filter_eq_nil_iff]
        exact fun y hy hpy => hp (hx y hy hpy)
      rw [List.takeWhile_cons_of_neg hp, List.filter_cons_of_neg hp, hnone]

theorem not_of_mem_dropWhile (h : xs.Pairwise fun x y => p y = true → p x = true) {y : α}
    (hy : y ∈ xs.dropWhile p) : ¬p y = true := by
  induction xs with
  | nil => exact absurd hy List.not_mem_nil
  | cons x xs ih =>
    obtain ⟨hx, hxs⟩ := List.pairwise_cons.mp h
    by_cases hp : p x = true
    · rw [List.dropWhile_cons_of_pos hp] at hy
      exact ih hxs hy
    · rw [List.dropWhile_cons_of_neg hp] at hy
      rcases List.mem_cons.mp hy with rfl | hy
      · exact hp
      · exact fun hpy => hp (hx y hy hpy)

end Turn

open Cell

variable {cells : List Cell} {c d : Cell}

theorem exists_split_lt (hs : cells.Pairwise (· < ·)) (c : Cell) :
    ∃ front back, cells = front ++ back ∧ (∀ e ∈ front, e < c) ∧ (∀ e ∈ back, c ≤ e) := by
  have hturn : cells.Pairwise fun a b => decide (b < c) = true → decide (a < c) = true := by
    refine hs.imp fun {a b} hab hbc => ?_
    simp only [decide_eq_true_eq, Cell.lt_iff] at hab hbc ⊢
    omega
  refine ⟨cells.takeWhile (· < c), cells.dropWhile (· < c),
    List.takeWhile_append_dropWhile.symm, ?_, ?_⟩
  · intro e he
    simpa using List.mem_takeWhile_imp he
  · intro e he
    have hnot := not_of_mem_dropWhile hturn he
    simp only [decide_eq_true_eq, Cell.lt_iff] at hnot
    rw [Cell.le_iff]
    omega

theorem bisect_lt_append {front back : List Cell} (hf : ∀ e ∈ front, e < c)
    (hb : ∀ e ∈ back, c ≤ e) : bisect (· < c) (front ++ back) = front.length := by
  apply bisect_append
  · intro e he
    simpa using hf e he
  · intro e he
    have := hb e he
    rw [Cell.le_iff] at this
    simp only [decide_eq_false_iff_not, Cell.lt_iff]
    omega

namespace Cover

theorem startsBy?_eq {x : Option Cell} (h : ∀ e ∈ x, e ≠ null) (b : Cell) :
    startsBy? x b = .ok (x.any (·.firstLeaf ≤ b)) := by
  cases x with
  | none => rfl
  | some e =>
    rw [startsBy?, firstLeaf?_eq_ok (h e rfl)]
    rfl

theorem endsFrom?_eq {x : Option Cell} (h : ∀ e ∈ x, e ≠ null) (b : Cell) :
    endsFrom? x b = .ok (x.any (b ≤ ·.lastLeaf)) := by
  cases x with
  | none => rfl
  | some e =>
    rw [endsFrom?, lastLeaf?_eq_ok (h e rfl)]
    rfl

theorem ok_orElse_ok (u v : Bool) :
    ((.ok u : Except Fault Bool) <||> .ok v) = .ok (u || v) := by
  cases u <;> rfl

/-! ## The two cells beside a place -/

/-- The cells of a list beside a cell `c`: `x` is the first one whose word is not smaller, and `y`
is the one before that. -/
structure Around (cells : List Cell) (c : Cell) (x y : Option Cell) : Prop where
  behind : ∀ e ∈ x, e ∈ cells ∧ c ≤ e
  before : ∀ e ∈ y, e ∈ cells ∧ e < c
  /-- Every other cell of the list is farther away. -/
  farther : ∀ d ∈ cells, (∃ e ∈ x, e = d ∨ e.Before d) ∨ ∃ e ∈ y, e = d ∨ d.Before e

/-- What holds of a cell of the list holds of one of the two beside `c`, if it passes on from a cell
to those between it and `c`. -/
theorem Around.exists_iff {x y : Option Cell} (har : Around cells c x y) {P : Cell → Prop}
    (hbehind : ∀ e d, c ≤ e → e.Before d → P d → P e)
    (hbefore : ∀ e d, e < c → d.Before e → P d → P e) :
    (∃ d ∈ cells, P d) ↔ (∃ e ∈ x, P e) ∨ ∃ e ∈ y, P e := by
  constructor
  · rintro ⟨d, hd, hP⟩
    rcases har.farther d hd with ⟨e, he, rfl | hed⟩ | ⟨e, he, rfl | hde⟩
    · exact Or.inl ⟨e, he, hP⟩
    · exact Or.inl ⟨e, he, hbehind e d (har.behind e he).2 hed hP⟩
    · exact Or.inr ⟨e, he, hP⟩
    · exact Or.inr ⟨e, he, hbefore e d (har.before e he).2 hde hP⟩
  · rintro (⟨e, he, hP⟩ | ⟨e, he, hP⟩)
    · exact ⟨e, (har.behind e he).1, hP⟩
    · exact ⟨e, (har.before e he).1, hP⟩

theorem around_append {front back : List Cell} (hs : (front ++ back).Pairwise Cell.Before)
    (hf : ∀ e ∈ front, e < c) (hb : ∀ e ∈ back, c ≤ e) :
    Around (front ++ back) c back.head? front.getLast? := by
  obtain ⟨hsf, hsb, _⟩ := List.pairwise_append.mp hs
  refine ⟨?_, ?_, ?_⟩
  · intro e he
    have hmem := List.mem_of_mem_head? he
    exact ⟨List.mem_append_right _ hmem, hb e hmem⟩
  · intro e he
    have hmem := List.mem_of_mem_getLast? he
    exact ⟨List.mem_append_left _ hmem, hf e hmem⟩
  · intro d hd
    rcases List.mem_append.mp hd with hd | hd
    · right
      obtain ⟨init, l, rfl⟩ := List.eq_nil_or_concat' front |>.resolve_left (List.ne_nil_of_mem hd)
      refine ⟨l, by simp, ?_⟩
      rcases List.mem_append.mp hd with hd | hd
      · exact Or.inr ((List.pairwise_append.mp hsf).2.2 d hd l (by simp))
      · exact Or.inl (List.mem_singleton.mp hd).symm
    · left
      obtain ⟨e, es, rfl⟩ := List.exists_cons_of_ne_nil (List.ne_nil_of_mem hd)
      refine ⟨e, rfl, ?_⟩
      rcases List.mem_cons.mp hd with rfl | hd
      · exact Or.inl rfl
      · exact Or.inr (List.rel_of_pairwise_cons hsb hd)

theorem exists_split_seek {A : Cover} (h : A.cells.Pairwise (· < ·)) (c : Cell) :
    ∃ front back, A.cells = front ++ back ∧ A.seek c = front.length ∧
      (∀ e ∈ front, e < c) ∧ (∀ e ∈ back, c ≤ e) := by
  obtain ⟨front, back, hA, hf, hb⟩ := exists_split_lt h c
  exact ⟨front, back, hA, by rw [seek, hA, bisect_lt_append hf hb], hf, hb⟩

theorem around_seek {A : Cover} (h : Separated A.cells) (c : Cell) :
    Around A.cells c (A.cell? (A.seek c)) (A.before? (A.seek c)) := by
  obtain ⟨front, back, hA, hseek, hf, hb⟩ := exists_split_seek h.increasing c
  have hbehind : A.cell? (A.seek c) = back.head? := by
    rw [hseek, cell?, hA, List.getElem?_append_right (Nat.le_refl _), Nat.sub_self,
      List.head?_eq_getElem?]
  have hbefore : A.before? (A.seek c) = front.getLast? := by
    rw [hseek, before?, cell?, hA]
    rcases Nat.eq_zero_or_pos front.length with h0 | hpos
    · rw [List.eq_nil_of_length_eq_zero h0]
      rfl
    · rw [if_neg (by omega), List.getElem?_append_left (by omega), List.getLast?_eq_getElem?]
  rw [hbehind, hbefore, hA]
  exact around_append (hA ▸ h.pairwise) hf hb

/-! ## The cells of a range -/

/-- The cells from the first leaf of `c` to its last one are those that `c` contains. -/
theorem takeWhile_drop_seek {A : Cover} (h : A.cells.Pairwise (· < ·)) (c : Cell) :
    (A.cells.drop (A.seek c.firstLeaf)).takeWhile (· ≤ c.lastLeaf) =
      A.cells.filter c.contains := by
  obtain ⟨front, back, hA, hseek, hf, hb⟩ := exists_split_seek h c.firstLeaf
  rw [hA] at h ⊢
  have hnone : front.filter c.contains = [] := by
    rw [List.filter_eq_nil_iff]
    intro e he hc
    have hlt := hf e he
    simp only [contains, Bool.and_eq_true, decide_eq_true_eq, le_iff, Cell.lt_iff] at hc hlt
    omega
  rw [hseek, List.drop_left, List.filter_append, hnone, List.nil_append, takeWhile_eq_filter]
  · exact List.filter_congr fun e he => by simp [contains, hb e he]
  · refine (List.pairwise_append.mp h).2.1.imp fun {a b} hab hle => ?_
    simp only [decide_eq_true_eq, le_iff, Cell.lt_iff] at hab hle ⊢
    omega

/-! ## The two questions -/

section Beside

variable (hd : d ≠ null) (hc : c ≠ null)
include hd hc

theorem firstLeaf_le_iff (hcd : c ≤ d) : d.firstLeaf ≤ c ↔ d.Covers c := by
  have hbd := range_bounds hd
  rw [covers_iff_word hd hc, le_iff, toNat_firstLeaf hd]
  rw [le_iff] at hcd
  omega

theorem firstLeaf_le_lastLeaf_iff (hcd : c ≤ d) : d.firstLeaf ≤ c.lastLeaf ↔ d.Meets c := by
  have hbc := range_bounds hc
  have hbd := range_bounds hd
  have hlast := toNat_lastLeaf hc
  simp only [Meets, Before, le_iff, toNat_firstLeaf hd] at hcd ⊢
  omega

theorem firstLeaf_le_lastLeaf_iff' (hdc : d < c) : c.firstLeaf ≤ d.lastLeaf ↔ d.Meets c := by
  have hbc := range_bounds hc
  have hbd := range_bounds hd
  have hlast := toNat_lastLeaf hd
  simp only [Meets, Before, le_iff, Cell.lt_iff, toNat_firstLeaf hc] at hdc ⊢
  omega

end Beside

theorem any_eq_true_iff {x : Option Cell} {t : Cell → Bool} {P : Cell → Prop}
    (h : ∀ e ∈ x, t e = true ↔ P e) : x.any t = true ↔ ∃ e ∈ x, P e := by
  rw [Option.any_eq_true]
  constructor
  · rintro ⟨e, he, ht⟩
    exact ⟨e, he, (h e he).mp ht⟩
  · rintro ⟨e, he, hP⟩
    exact ⟨e, he, (h e he).mpr hP⟩

section Farther

variable {e : Cell} (hc : c ≠ null)
include hc

theorem covers_behind (hce : c ≤ e) (hed : e.Before d) (h : d.Covers c) : e.Covers c := by
  have hbc := range_bounds hc
  have he := word_add_marker e
  simp only [Covers, Before, le_iff] at *
  omega

theorem covers_before (hec : e < c) (hde : d.Before e) (h : d.Covers c) : e.Covers c := by
  have hbc := range_bounds hc
  have he := start_le_word e
  simp only [Covers, Before, Cell.lt_iff] at *
  omega

theorem meets_behind (hce : c ≤ e) (hed : e.Before d) (h : d.Meets c) : e.Meets c := by
  have hbc := range_bounds hc
  have he := word_add_marker e
  have hse := start_le_stop e
  simp only [Meets, Before, le_iff] at *
  omega

theorem meets_before (hec : e < c) (hde : d.Before e) (h : d.Meets c) : e.Meets c := by
  have hbc := range_bounds hc
  have he := start_le_word e
  have hse := start_le_stop e
  simp only [Meets, Before, Cell.lt_iff] at *
  omega

end Farther

section Query

variable {A : Cover} (h : Separated A.cells) (hc : c ≠ null)
include h hc

theorem contains?_spec :
    ∃ t, A.contains? c = .ok t ∧ (t = true ↔ ∃ d ∈ A.cells, d.Covers c) := by
  have har := around_seek h c
  have hx : ∀ e ∈ A.cell? (A.seek c), e ≠ null := fun e he => h.ne_null e (har.behind e he).1
  have hy : ∀ e ∈ A.before? (A.seek c), e ≠ null := fun e he => h.ne_null e (har.before e he).1
  refine ⟨_, by rw [contains?, startsBy?_eq hx, endsFrom?_eq hy, ok_orElse_ok], ?_⟩
  rw [Bool.or_eq_true, har.exists_iff (fun _ _ => covers_behind hc) fun _ _ => covers_before hc]
  apply or_congr
  · apply any_eq_true_iff
    intro e he
    rw [decide_eq_true_iff]
    exact firstLeaf_le_iff (hx e he) hc (har.behind e he).2
  · apply any_eq_true_iff
    intro e he
    rw [decide_eq_true_iff]
    have hlt := Cell.lt_iff.mp (har.before e he).2
    exact le_lastLeaf_iff (hy e he) hc (Nat.lt_of_le_of_lt (start_le_word e) hlt)

theorem intersects?_spec :
    ∃ t, A.intersects? c = .ok t ∧ (t = true ↔ ∃ d ∈ A.cells, d.Meets c) := by
  have har := around_seek h c
  have hx : ∀ e ∈ A.cell? (A.seek c), e ≠ null := fun e he => h.ne_null e (har.behind e he).1
  have hy : ∀ e ∈ A.before? (A.seek c), e ≠ null := fun e he => h.ne_null e (har.before e he).1
  refine ⟨(A.cell? (A.seek c)).any (·.firstLeaf ≤ c.lastLeaf) ||
    (A.before? (A.seek c)).any (c.firstLeaf ≤ ·.lastLeaf), ?_, ?_⟩
  · unfold intersects?
    dsimp only
    split
    · next hnil => simp [cell?, before?, hnil]
    · rw [requireRange_eq_ok hc, ok_bind, startsBy?_eq hx, endsFrom?_eq hy, ok_orElse_ok]
  rw [Bool.or_eq_true, har.exists_iff (fun _ _ => meets_behind hc) fun _ _ => meets_before hc]
  apply or_congr
  · apply any_eq_true_iff
    intro e he
    rw [decide_eq_true_iff]
    exact firstLeaf_le_lastLeaf_iff (hx e he) hc (har.behind e he).2
  · apply any_eq_true_iff
    intro e he
    rw [decide_eq_true_iff]
    exact firstLeaf_le_lastLeaf_iff' (hy e he) hc (har.before e he).2

end Query

/-- **The questions about a cell are questions about its leaves.**  A normal cover contains a cell
if it has all its leaves, although only a single cell that covers it is looked for: smaller cells
cannot make up the cell together.  It intersects the cell if it has one of its leaves. -/
theorem queries_decide_leaves (A : Cover) (c : Cell) (hA : ∀ d ∈ A.cells, d.isValid = true)
    (hnA : A.isNormal? = .ok true) (hc : c.isValid = true) :
    (∃ t, A.contains? c = .ok t ∧ (t = true ↔ ∀ x, c.HasLeaf x → HasLeaf A.cells x)) ∧
      ∃ t, A.intersects? c = .ok t ∧ (t = true ↔ ∃ x, c.HasLeaf x ∧ HasLeaf A.cells x) := by
  have hcan : IsCanonical A.cells := isCanonical_iff.mpr ⟨hA, hnA⟩
  have hne := ne_null_of_isValid hc
  obtain ⟨t, ht, hcovers⟩ := contains?_spec hcan.separated hne
  obtain ⟨u, hu, hmeets⟩ := intersects?_spec hcan.separated hne
  exact ⟨⟨t, ht, hcovers.trans (hcan.exists_covers_iff hc)⟩,
    u, hu, hmeets.trans (hcan.separated.exists_meets_iff hne)⟩

/-- A cell without one of its children: it is intersected and not contained. -/
theorem queries_decide_leaves_three :
    let A : Cover := ⟨[⟨0x4900000000000000⟩, ⟨0x4b00000000000000⟩, ⟨0x4d00000000000000⟩]⟩
    let c : Cell := ⟨0x4c00000000000000⟩
    ((∀ d ∈ A.cells, d.isValid = true) ∧ A.isNormal? = .ok true ∧ c.isValid = true) ∧
      (¬∀ x, c.HasLeaf x → HasLeaf A.cells x) ∧ ∃ x, c.HasLeaf x ∧ HasLeaf A.cells x := by
  intro A c
  have hA : ∀ d ∈ A.cells, d.isValid = true := by decide
  have hnA : A.isNormal? = .ok true := rfl
  have hc : c.isValid = true := by decide
  obtain ⟨⟨t, ht, hall⟩, u, hu, hsome⟩ := queries_decide_leaves A c hA hnA hc
  have hno : A.contains? c = .ok false := by decide +kernel
  have hyes : A.intersects? c = .ok true := by decide +kernel
  refine ⟨⟨hA, hnA, hc⟩, fun h => ?_, hsome.mp (Except.ok.inj (hu.symm.trans hyes))⟩
  exact absurd ((hall.mpr h).symm.trans (Except.ok.inj (ht.symm.trans hno))) (by decide)

end Cover

end QuadSphere
