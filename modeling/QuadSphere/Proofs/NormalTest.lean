import QuadSphere.Cell.Leaves
import QuadSphere.Proofs.Siblings

/-!
# The test for the normal form

The test looks at neighbours in the list only.  It compares the ranges of two of them, and it asks
of four whether they are siblings.

* `isNormalList?_spec`: the test never fails on words other than zero, and decides `IsTidy`.
* `isNormalList?_iff_isNormal`: on a list of cells it decides the normal form.
* `Cover.neighbours_decide_normal_form`: that is, the three conditions on the list as a whole.
-/

namespace QuadSphere

open Cell

/-- Words other than zero whose ranges lie apart and in order. -/
structure Separated (cells : List Cell) : Prop where
  ne_null : ∀ c ∈ cells, c ≠ null
  pairwise : cells.Pairwise Cell.Before

/-- What the test for the normal form decides: the ranges lie apart and in order, and no family
stands in a row. -/
structure IsTidy (cells : List Cell) : Prop extends Separated cells where
  noFamily : ∀ a b c d, [a, b, c, d] <:+: cells → ¬Family a b c d

variable {cells pre post : List Cell} {c d : Cell}

namespace Separated

theorem head (h : Separated (c :: cells)) : c ≠ null :=
  h.ne_null c List.mem_cons_self

theorem tail (h : Separated (c :: cells)) : Separated cells :=
  ⟨fun d hd => h.ne_null d (List.mem_cons_of_mem c hd), h.pairwise.of_cons⟩

theorem of_append (h : Separated (pre ++ cells)) : Separated cells :=
  ⟨fun c hc => h.ne_null c (List.mem_append_right pre hc),
    (List.pairwise_append.mp h.pairwise).2.1⟩

theorem increasing (h : Separated cells) : cells.Pairwise (· < ·) :=
  h.pairwise.imp_of_mem fun hc hd => Before.lt (h.ne_null _ hc) (h.ne_null _ hd)

theorem before_of_mem (h : Separated (c :: cells)) {e : Cell} (he : e.Before c)
    (hd : d ∈ c :: cells) : e.Before d := by
  rcases List.mem_cons.mp hd with rfl | hd
  · exact he
  · exact he.trans (List.rel_of_pairwise_cons h.pairwise hd)

theorem hasLeaf_of_covers (h : Separated cells) (hc : c ≠ null) (hcov : ∃ d ∈ cells, d.Covers c)
    {x : UInt64} (hx : c.HasLeaf x) : HasLeaf cells x := by
  obtain ⟨d, hd, hdc⟩ := hcov
  exact ⟨d, hd, (covers_iff (h.ne_null d hd) hc).mp hdc x hx⟩

theorem exists_meets_iff (h : Separated cells) (hc : c ≠ null) :
    (∃ d ∈ cells, d.Meets c) ↔ ∃ x, c.HasLeaf x ∧ HasLeaf cells x := by
  constructor
  · rintro ⟨d, hd, hdc⟩
    obtain ⟨x, hdx, hcx⟩ := (meets_iff (h.ne_null d hd) hc).mp hdc
    exact ⟨x, hcx, d, hd, hdx⟩
  · rintro ⟨x, hcx, d, hd, hdx⟩
    exact ⟨d, hd, (meets_iff (h.ne_null d hd) hc).mpr ⟨x, hdx, hcx⟩⟩

theorem isNormal (h : Separated cells)
    (hno : ∀ p : Cell, p.isValid → ¬p.isLeaf → ∃ k < 4, p.child k ∉ cells) : IsNormal cells where
  increasing := h.increasing
  apart := h.pairwise.imp_of_mem fun hc hd hb => hb.apart (h.ne_null _ hc) (h.ne_null _ hd)
  noFamily := hno

end Separated

/-! ## The test -/

namespace Cover

theorem isSeparated?_spec (h : ∀ c ∈ cells, c ≠ null) :
    ∃ t, isSeparated? cells = .ok t ∧ (t = true ↔ cells.Pairwise Cell.Before) := by
  induction cells with
  | nil => exact ⟨true, rfl, by simp⟩
  | cons a rest ih =>
    cases rest with
    | nil => exact ⟨true, rfl, by simp⟩
    | cons b rest =>
      have ha : a ≠ null := h a (by simp)
      have hb : b ≠ null := h b (by simp)
      obtain ⟨t, ht, hiff⟩ := ih (fun c hc => h c (List.mem_cons_of_mem a hc))
      rw [isSeparated?, requireRange_eq_ok ha, requireRange_eq_ok hb, ok_bind, ok_bind,
        List.pairwise_cons]
      by_cases hab : a.Before b
      · refine ⟨t, by rw [if_pos ((lastLeaf_lt_firstLeaf_iff ha hb).mpr hab), ht], ?_⟩
        rw [hiff]
        constructor
        · intro hp
          refine ⟨?_, hp⟩
          rintro c (_ | ⟨_, hc⟩)
          · exact hab
          · exact hab.trans (List.rel_of_pairwise_cons hp hc)
        · exact And.right
      · refine ⟨false, by rw [if_neg (mt (lastLeaf_lt_firstLeaf_iff ha hb).mp hab)]; rfl, ?_⟩
        simp [hab]

theorem hasSiblings?_spec (h : Separated cells) :
    ∃ t, hasSiblings? cells = .ok t ∧
      (t = true ↔ ∃ a b c d, [a, b, c, d] <:+: cells ∧ Family a b c d) := by
  induction cells with
  | nil => exact ⟨false, rfl, by simp⟩
  | cons a rest ih =>
    obtain ⟨t, ht, hiff⟩ := ih h.tail
    match rest with
    | [] | [_] | [_, _] =>
      refine ⟨false, rfl, by simp, ?_⟩
      rintro ⟨a, b, c, d, hi, _⟩
      have := hi.length_le
      simp at this
    | b :: c :: d :: rest =>
      obtain ⟨hab, hbc, hcd⟩ : a < b ∧ b < c ∧ c < d := by
        have hs := h.increasing
        simp only [List.pairwise_cons, List.mem_cons] at hs
        exact ⟨hs.1 b (by simp), hs.2.1 c (by simp), hs.2.2.1 d (by simp)⟩
      obtain ⟨u, hu, hfam⟩ := areSiblings?_spec (h.ne_null d (by simp)) hab hbc hcd
      rw [hasSiblings?, hu, ok_bind]
      cases u with
      | true =>
        exact ⟨true, rfl, fun _ => ⟨a, b, c, d, ⟨[], rest, rfl⟩, hfam.mp rfl⟩, fun _ => rfl⟩
      | false =>
        refine ⟨t, by simp [ht], hiff.trans ⟨?_, ?_⟩⟩
        · rintro ⟨a', b', c', d', hi, hf⟩
          exact ⟨a', b', c', d', List.infix_cons_iff.mpr (Or.inr hi), hf⟩
        · rintro ⟨a', b', c', d', hi, hf⟩
          rcases List.infix_cons_iff.mp hi with hp | hi
          · obtain ⟨rest', hrest⟩ := hp
            simp only [List.cons_append, List.nil_append, List.cons.injEq] at hrest
            obtain ⟨rfl, rfl, rfl, rfl, _⟩ := hrest
            exact absurd (hfam.mpr hf) (by simp)
          · exact ⟨a', b', c', d', hi, hf⟩

/-- **The test for the normal form** gives a value and decides `IsTidy`. -/
theorem isNormalList?_spec (h : ∀ c ∈ cells, c ≠ null) :
    ∃ t, isNormalList? cells = .ok t ∧ (t = true ↔ IsTidy cells) := by
  obtain ⟨t, ht, hsep⟩ := isSeparated?_spec h
  rw [isNormalList?, ht, ok_bind]
  cases t with
  | false => exact ⟨false, rfl, by simp, fun ht => hsep.mpr ht.pairwise⟩
  | true =>
    have hs : Separated cells := ⟨h, hsep.mp rfl⟩
    obtain ⟨u, hu, hfam⟩ := hasSiblings?_spec hs
    refine ⟨!u, by simp [hu], ?_⟩
    rw [Bool.not_eq_true', ← Bool.not_eq_true, hfam]
    constructor
    · intro hno
      exact ⟨hs, fun a b c d hi hf => hno ⟨a, b, c, d, hi, hf⟩⟩
    · rintro ht ⟨a, b, c, d, hi, hf⟩
      exact ht.noFamily a b c d hi hf

theorem isNormalList?_eq_true_iff (h : ∀ c ∈ cells, c ≠ null) :
    isNormalList? cells = .ok true ↔ IsTidy cells := by
  obtain ⟨t, ht, hiff⟩ := isNormalList?_spec h
  rw [ht, ← hiff, Except.ok.injEq]

theorem requireNormal_eq_ok {A : Cover} (h : A.isNormal? = .ok true) :
    A.requireNormal = .ok () := by
  rw [requireNormal, h]
  rfl

end Cover

/-! ## Neighbours in the list and the whole list -/

theorem Separated.next (h : Separated (pre ++ c :: post)) (hd : d ∈ pre ++ c :: post)
    (hcd : c.stop = d.start) : ∃ post', post = d :: post' := by
  have hbc := range_bounds (h.ne_null c (by simp))
  have hbd := range_bounds (h.ne_null d hd)
  have hs := h.pairwise
  rw [List.pairwise_append, List.pairwise_cons] at hs
  obtain ⟨_, ⟨hpost, htail⟩, hpre⟩ := hs
  rw [List.mem_append, List.mem_cons] at hd
  rcases hd with hd | rfl | hd
  · have : d.stop ≤ c.start := hpre d hd c (by simp)
    omega
  · omega
  · match post with
    | e :: post =>
      rcases List.mem_cons.mp hd with rfl | hd
      · exact ⟨post, rfl⟩
      · have h1 : c.stop ≤ e.start := hpost e (by simp)
        have h2 : e.stop ≤ d.start := List.rel_of_pairwise_cons htail hd
        have h3 := range_bounds (h.ne_null e (by simp))
        omega

/-- The cells of a family stand in a row in a separated list. -/
theorem Family.consecutive {a b c d : Cell} (hf : Family a b c d) (h : Separated cells)
    (ha : a ∈ cells) (hb : b ∈ cells) (hc : c ∈ cells) (hd : d ∈ cells) :
    [a, b, c, d] <:+: cells := by
  obtain ⟨hab, hbc, hcd, _⟩ := hf.bounds
  obtain ⟨pre, post, rfl⟩ := List.append_of_mem ha
  obtain ⟨post, rfl⟩ := h.next hb hab
  have hsplit : pre ++ a :: b :: post = (pre ++ [a]) ++ b :: post := by simp
  rw [hsplit] at h hc hd ⊢
  obtain ⟨post, rfl⟩ := h.next hc hbc
  have hsplit : pre ++ [a] ++ b :: c :: post = (pre ++ [a, b]) ++ c :: post := by simp
  rw [hsplit] at h hd ⊢
  obtain ⟨post, rfl⟩ := h.next hd hcd
  exact ⟨pre, post, by simp⟩

section Valid

variable (hv : ∀ c ∈ cells, c.isValid = true)
include hv

theorem ne_null_of_valid : ∀ c ∈ cells, c ≠ null :=
  fun c hc => ne_null_of_isValid (hv c hc)

theorem IsNormal.isTidy (h : IsNormal cells) : IsTidy cells := by
  have h0 := ne_null_of_valid hv
  refine ⟨⟨h0, (h.increasing.and h.apart).imp_of_mem ?_⟩, ?_⟩
  · rintro c d hc hd ⟨hlt, hapart⟩
    exact before_of_apart (h0 c hc) (h0 d hd) hlt hapart
  · intro a b c d hi hf
    have hmem := hi.subset
    obtain ⟨p, hp, hl, rfl, rfl, rfl, rfl⟩ := hf.exists_parent (hv d (hmem (by simp)))
    obtain ⟨i, hi4, hi⟩ := h.noFamily p hp hl
    have : i = 0 ∨ i = 1 ∨ i = 2 ∨ i = 3 := by omega
    rcases this with rfl | rfl | rfl | rfl <;> exact hi (hmem (by simp))

/-- A list of cells is tidy, by neighbours, if it is normal as a whole. -/
theorem isNormal_iff_isTidy : IsNormal cells ↔ IsTidy cells := by
  constructor
  · exact IsNormal.isTidy hv
  · intro ht
    apply ht.toSeparated.isNormal
    intro p hp hl
    by_contra hall
    push Not at hall
    have hf := family_child hp hl
    have hrow := hf.consecutive ht.toSeparated (hall 0 (by omega)) (hall 1 (by omega))
      (hall 2 (by omega)) (hall 3 (by omega))
    exact ht.noFamily _ _ _ _ hrow hf

theorem isNormalList?_iff_isNormal : Cover.isNormalList? cells = .ok true ↔ IsNormal cells :=
  (Cover.isNormalList?_eq_true_iff (ne_null_of_valid hv)).trans (isNormal_iff_isTidy hv).symm

end Valid

/-! ## The three conditions -/

/-- What is documented of the normal form, said of the whole list: the cells are in strictly
increasing order, no member of the list contains another one, however far apart they stand, and no
cell has all that it is cut into in the list. -/
structure MeetsConditions (cells : List Cell) : Prop where
  increasing : cells.Pairwise (· < ·)
  noneContained : cells.Pairwise fun c d => c.contains? d = .ok false ∧ d.contains? c = .ok false
  noneComplete : ∀ (p : Cell) (parts : List Cell), p.isValid = true → p.children? = .ok parts →
    ¬parts ⊆ cells

theorem apart_iff_not_contains (hc : c ≠ null) (hd : d ≠ null) :
    (∀ x, c.HasLeaf x → ¬d.HasLeaf x) ↔ c.contains? d = .ok false ∧ d.contains? c = .ok false := by
  rw [contains?_eq_ok hc, contains?_eq_ok hd, Except.ok.injEq, Except.ok.injEq,
    ← Bool.not_eq_true, ← Bool.not_eq_true, contains_iff hc hd, contains_iff hd hc]
  constructor
  · intro h
    have hfirst := hasLeaf_firstLeaf hc
    have hfirst' := hasLeaf_firstLeaf hd
    exact ⟨fun hcd => h _ ((covers_iff hc hd).mp hcd _ hfirst') hfirst',
      fun hdc => h _ hfirst ((covers_iff hd hc).mp hdc _ hfirst)⟩
  · rintro ⟨hcd, hdc⟩ x hx hx'
    rcases covers_or_covers hc hd hx hx' with h | h
    · exact hcd h
    · exact hdc h

/-- A cell that is no leaf is cut into its four children. -/
theorem children_not_subset_iff :
    (∀ (p : Cell) (parts : List Cell), p.isValid = true → p.children? = .ok parts →
        ¬parts ⊆ cells) ↔
      ∀ p : Cell, p.isValid → ¬p.isLeaf → ∃ k < 4, p.child k ∉ cells := by
  have hsub : ∀ p : Cell, p.children ⊆ cells ↔ ∀ k < 4, p.child k ∈ cells := by
    intro p
    simp only [children, List.cons_subset, List.nil_subset, and_true]
    constructor
    · rintro ⟨h0, h1, h2, h3⟩ k hk
      have : k = 0 ∨ k = 1 ∨ k = 2 ∨ k = 3 := by omega
      rcases this with rfl | rfl | rfl | rfl <;> assumption
    · intro h
      exact ⟨h 0 (by omega), h 1 (by omega), h 2 (by omega), h 3 (by omega)⟩
  constructor
  · intro h p hp hl
    have hno := h p p.children hp (children?_eq_ok hl)
    rw [hsub] at hno
    push Not at hno
    exact hno
  · intro h p parts hp hparts hall
    have hl : ¬p.isLeaf = true := by
      intro hl
      simp [children?, child?, hl, List.range_succ] at hparts
    rw [children?_eq_ok hl, Except.ok.injEq] at hparts
    obtain ⟨k, hk, hno⟩ := h p hp hl
    exact hno ((hsub p).mp (hparts ▸ hall) k hk)

theorem isNormal_iff_meetsConditions (hv : ∀ c ∈ cells, c.isValid = true) :
    IsNormal cells ↔ MeetsConditions cells := by
  have hapart : cells.Pairwise (fun c d => ∀ x, c.HasLeaf x → ¬d.HasLeaf x) ↔
      cells.Pairwise fun c d => c.contains? d = .ok false ∧ d.contains? c = .ok false :=
    List.Pairwise.iff_of_mem fun hc hd =>
      apart_iff_not_contains (ne_null_of_valid hv _ hc) (ne_null_of_valid hv _ hd)
  constructor
  · rintro ⟨hinc, hdis, hfam⟩
    exact ⟨hinc, hapart.mp hdis, children_not_subset_iff.mpr hfam⟩
  · rintro ⟨hinc, hdis, hfam⟩
    exact ⟨hinc, hapart.mpr hdis, children_not_subset_iff.mp hfam⟩

/-- **Neighbours in the list decide the normal form of the whole list.**  The test looks at two and
at four cells in a row only.  On a list of cells it gives a value, which is true if the list meets
the three conditions as a whole. -/
theorem Cover.neighbours_decide_normal_form (A : Cover) (hA : ∀ c ∈ A.cells, c.isValid = true) :
    ∃ t, A.isNormal? = .ok t ∧ (t = true ↔ MeetsConditions A.cells) := by
  obtain ⟨t, ht, htidy⟩ := Cover.isNormalList?_spec (ne_null_of_valid hA)
  refine ⟨t, ht, htidy.trans ?_⟩
  rw [← isNormal_iff_isTidy hA, isNormal_iff_meetsConditions hA]

/-- Three of the parts of a face, and two parts of the remaining one. -/
theorem Cover.neighbours_decide_normal_form_five :
    let A : Cover := ⟨[⟨0x4400000000000000⟩, ⟨0x4900000000000000⟩, ⟨0x4b00000000000000⟩,
      ⟨0x5400000000000000⟩, ⟨0x5c00000000000000⟩]⟩
    (∀ c ∈ A.cells, c.isValid = true) ∧ A.isNormal? = .ok true ∧ MeetsConditions A.cells := by
  have hnormal : (⟨[⟨0x4400000000000000⟩, ⟨0x4900000000000000⟩, ⟨0x4b00000000000000⟩,
      ⟨0x5400000000000000⟩, ⟨0x5c00000000000000⟩]⟩ : Cover).isNormal? = .ok true := rfl
  intro A
  have hA : ∀ c ∈ A.cells, c.isValid = true := by decide
  obtain ⟨t, ht, hiff⟩ := Cover.neighbours_decide_normal_form A hA
  exact ⟨hA, hnormal, hiff.mp (Except.ok.inj (ht.symm.trans hnormal))⟩

end QuadSphere
