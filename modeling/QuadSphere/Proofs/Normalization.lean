import Mathlib.Data.List.TakeWhile
import QuadSphere.Cover.NormalForm
import QuadSphere.Proofs.Canonical

/-!
# Normalization

The stack of cells read so far is `Ready`: from bottom to top it is a tidy list.  Adding a cell
keeps it ready and adds the leaves of the cell (`push?_spec`, `absorb?_spec`), and so does reading a
sorted list (`foldlM_absorb?_spec`).

Only the top of the stack is compared with the next cell.  Its word may be behind that cell, when
families have been merged; but it covers a cell `p` that was read before, and this is enough to tell
that what the next cell does not contain of the stack ends before it (`before_of_not_covers`).

* `normalize_of_valid`: normalization keeps the leaves and reaches the normal form.
* `eq_iff_same_leaves`: the normal form is canonical.
* `normal_form_of_words`: which lists of words, cells or not, have a normal form.
-/

namespace QuadSphere

open Cell

variable {stack cells : List Cell} {a b c d : Cell}

theorem Family.hasLeaf_parent (h : Family a b c d) (x : UInt64) :
    d.parent.HasLeaf x ↔ a.HasLeaf x ∨ b.HasLeaf x ∨ c.HasLeaf x ∨ d.HasLeaf x := by
  obtain ⟨hab, hbc, hcd, hstart, hstop⟩ := h.bounds
  have hp0 := h.parent_ne_null
  obtain ⟨k, r, hk, ha, hb, hc, hd⟩ := h
  have := range_bounds ha.ne_null
  have := range_bounds hb.ne_null
  have := range_bounds hc.ne_null
  have := range_bounds hd.ne_null
  rw [hasLeaf_iff hp0, hasLeaf_iff ha.ne_null, hasLeaf_iff hb.ne_null, hasLeaf_iff hc.ne_null,
    hasLeaf_iff hd.ne_null]
  omega

theorem Family.covers_parent (h : Family a b c d) : d.parent.Covers d := by
  obtain ⟨hab, hbc, hcd, hstart, hstop⟩ := h.bounds
  have := start_le_stop a
  have := start_le_stop b
  have := start_le_stop c
  rw [Covers]
  omega

theorem IsTidy.concat (h : IsTidy cells) (h0 : d ≠ null) (hd : ∀ c ∈ cells, c.Before d)
    (hf : ∀ a b c, [a, b, c] <:+ cells → ¬Family a b c d) : IsTidy (cells ++ [d]) := by
  refine ⟨⟨?_, ?_⟩, ?_⟩
  · intro c hc
    rcases List.mem_append.mp hc with hc | hc
    · exact h.ne_null c hc
    · rw [List.mem_singleton.mp hc]
      exact h0
  · rw [List.pairwise_append]
    exact ⟨h.pairwise, List.pairwise_singleton _ _, fun c hc e he => by
      rw [List.mem_singleton.mp he]
      exact hd c hc⟩
  · intro a' b' c' d' hi hfam
    rcases List.infix_concat_iff.mp hi with hsuf | hi
    · rcases List.suffix_concat_iff.mp hsuf with hnil | ⟨t, ht, ht'⟩
      · simp at hnil
      · obtain ⟨rfl, hdd⟩ : [a', b', c'] = t ∧ [d'] = [d] :=
          List.append_inj' (show [a', b', c'] ++ [d'] = t ++ [d] from ht) rfl
        obtain rfl := List.singleton_inj.mp hdd
        exact hf a' b' c' ht' hfam
    · exact h.noFamily _ _ _ _ hi hfam

namespace Cover

/-- What holds of the stack: from bottom to top it is a tidy list. -/
def Ready (stack : List Cell) : Prop :=
  IsTidy stack.reverse

theorem Ready.nil : Ready [] :=
  ⟨⟨by simp, .nil⟩, fun _ _ _ _ h => by simp at h⟩

theorem Ready.separated (h : Ready stack) : Separated stack.reverse :=
  IsTidy.toSeparated h

theorem Ready.ne_null (h : Ready stack) : ∀ c ∈ stack, c ≠ null :=
  fun c hc => h.separated.ne_null c (List.mem_reverse.mpr hc)

theorem Ready.pairwise (h : Ready stack) : stack.Pairwise fun d c => c.Before d :=
  List.pairwise_reverse.mp h.separated.pairwise

theorem Ready.suffix {stack' : List Cell} (h : Ready stack) (hs : stack' <:+ stack) :
    Ready stack' := by
  refine ⟨⟨?_, ?_⟩, ?_⟩
  · exact fun c hc => h.ne_null c (hs.subset (List.mem_reverse.mp hc))
  · exact List.pairwise_reverse.mpr (h.pairwise.sublist hs.sublist)
  · intro a b c d hi
    exact IsTidy.noFamily h a b c d (hi.trans (List.reverse_prefix.mpr hs).isInfix)

theorem Ready.cons (h : Ready stack) (hd : d ≠ null) (hb : ∀ c ∈ stack, c.Before d)
    (hf : ∀ a b c rest, stack = c :: b :: a :: rest → ¬Family a b c d) : Ready (d :: stack) := by
  rw [Ready, List.reverse_cons]
  refine IsTidy.concat h hd (fun c hc => hb c (List.mem_reverse.mp hc)) ?_
  intro a b c hsuf
  have hsuf : [c, b, a].reverse <:+ stack.reverse := hsuf
  obtain ⟨rest, hrest⟩ := List.reverse_suffix.mp hsuf
  exact hf a b c rest hrest.symm

/-- What a stack becomes when a cell behind it is added: a stack that is ready, whose top covers the
cell, and that stands for the leaves of the cell beside its own. -/
structure Takes (stack : List Cell) (c : Cell) (out : List Cell) : Prop where
  ready : Ready out
  top : ∃ t ∈ out.head?, t.Covers c
  hasLeaf : ∀ x, HasLeaf out x ↔ c.HasLeaf x ∨ HasLeaf stack x
  valid : (∀ d ∈ c :: stack, d.isValid = true) → ∀ d ∈ out, d.isValid = true

theorem Takes.cons (h : Ready (d :: stack)) : Takes stack d (d :: stack) :=
  ⟨h, ⟨d, rfl, Covers.refl d⟩, hasLeaf_cons d stack, id⟩

theorem Takes.of_family {out : List Cell} (hf : Family a b c d) (h : Takes stack d.parent out) :
    Takes (c :: b :: a :: stack) d out := by
  refine ⟨h.ready, ?_, ?_, ?_⟩
  · obtain ⟨t, ht, hcov⟩ := h.top
    exact ⟨t, ht, hcov.trans hf.covers_parent⟩
  · intro x
    rw [h.hasLeaf, hf.hasLeaf_parent, hasLeaf_cons, hasLeaf_cons, hasLeaf_cons]
    tauto
  · intro hv
    apply h.valid
    intro e he
    rcases List.mem_cons.mp he with rfl | he
    · exact hf.isValid_parent (hv d (by simp))
    · exact hv e (by simp [he])

theorem push?_spec (h : Ready stack) (hd : d ≠ null) (hb : ∀ c ∈ stack, c.Before d) :
    ∃ out, push? stack d = .ok out ∧ Takes stack d out := by
  induction stack, d using push?.induct with
  | case1 c b a rest d ih =>
    have hsep := h.pairwise
    simp only [List.pairwise_cons, List.mem_cons] at hsep
    obtain ⟨hc, hb', ha, _⟩ := hsep
    have h0 : ∀ e ∈ [c, b, a], e ≠ null := fun e he => h.ne_null e (List.mem_append_left rest he)
    obtain ⟨t, ht, hfam⟩ := areSiblings?_spec hd
      ((hb' a (by simp)).lt (h0 a (by simp)) (h0 b (by simp)))
      ((hc b (by simp)).lt (h0 b (by simp)) (h0 c (by simp)))
      ((hb c (by simp)).lt (h0 c (by simp)) hd)
    rw [push?, ht, ok_bind]
    cases t with
    | true =>
      have hf := hfam.mp rfl
      have hrest : ∀ e ∈ rest, e.Before d.parent := by
        intro e he
        rw [Before, hf.bounds.2.2.2.1]
        exact ha e he
      obtain ⟨out, hpush, htakes⟩ := ih d.parent (h.suffix ⟨[c, b, a], rfl⟩) hf.parent_ne_null hrest
      refine ⟨out, ?_, htakes.of_family hf⟩
      rw [parent?_eq_ok hf.not_isFace]
      exact hpush
    | false =>
      refine ⟨d :: c :: b :: a :: rest, rfl, Takes.cons (h.cons hd hb ?_)⟩
      intro a' b' c' rest' heq hf
      simp only [List.cons.injEq] at heq
      obtain ⟨rfl, rfl, rfl, rfl⟩ := heq
      exact absurd (hfam.mpr hf) (by simp)
  | case2 stack d hshort =>
    refine ⟨d :: stack, push?.eq_2 stack d hshort, Takes.cons (h.cons hd hb ?_)⟩
    intro a b c rest heq
    exact absurd heq (hshort c b a rest)

section Step

variable {top p c e : Cell} {rest : List Cell} (h : Ready (top :: rest)) (hc : c ≠ null)
  (hp : p ≠ null) (htop : top.Covers p) (hpc : p ≤ c) (hnot : ¬top.Covers c)
include h hc hp htop hpc hnot

/-- The top of the stack covers a cell `p` that was read before `c`.  Merging may have made it a
cell whose word is behind `c`; still, if it does not cover `c`, then what `c` does not cover of the
stack ends before `c`. -/
theorem before_of_not_covers (he : e ∈ top :: rest) (hce : ¬c.Covers e) : e.Before c := by
  have he0 := h.ne_null e he
  have hstart : e = top ∨ e.stop ≤ top.start := by
    rcases List.mem_cons.mp he with rfl | he
    · exact Or.inl rfl
    · exact Or.inr (List.rel_of_pairwise_cons h.pairwise he)
  have hbc := range_bounds hc
  have hbp := range_bounds hp
  have hbe := range_bounds he0
  have hbt := range_bounds (h.ne_null top (by simp))
  rw [le_iff] at hpc
  obtain ⟨htp, _⟩ := htop
  rcases covers_or_before he0 hc with hcov | hcov | hbef | hbef
  · rcases hstart with rfl | hstart
    · exact absurd hcov hnot
    · obtain ⟨_, hcov⟩ := hcov
      omega
  · exact absurd hcov hce
  · exact hbef
  · rw [Before] at hbef
    rcases hstart with rfl | hstart <;> omega

theorem before_of_mem_dropWhile (he : e ∈ (top :: rest).dropWhile c.contains) : e.Before c := by
  have hready := h.suffix (List.dropWhile_suffix c.contains (l := top :: rest))
  have hhead := List.head?_dropWhile_not c.contains (top :: rest)
  match hd : (top :: rest).dropWhile c.contains with
  | [] => simp [hd] at he
  | e₀ :: es =>
    rw [hd] at he hready hhead
    have hmem : e₀ ∈ top :: rest := by
      apply (List.dropWhile_suffix c.contains).subset
      rw [hd]
      exact List.mem_cons_self
    have hfirst : e₀.Before c := by
      apply before_of_not_covers h hc hp htop hpc hnot hmem
      rw [← contains_iff hc (h.ne_null e₀ hmem)]
      simpa using hhead
    rcases List.mem_cons.mp he with rfl | he
    · exact hfirst
    · exact Before.trans (List.rel_of_pairwise_cons hready.pairwise he) hfirst

end Step

theorem absorb?_spec (h : Ready stack) (hc : c ≠ null)
    (hlast : ∀ top ∈ stack.head?, ∃ p, p ≠ null ∧ top.Covers p ∧ p ≤ c) :
    ∃ out, absorb? stack c = .ok out ∧ Takes stack c out := by
  cases stack with
  | nil => exact push?_spec h hc (by simp)
  | cons top rest =>
    have htop0 : top ≠ null := h.ne_null top (by simp)
    obtain ⟨p, hp, htp, hpc⟩ := hlast top rfl
    rw [absorb?, contains?_eq_ok htop0, ok_bind]
    by_cases hcov : top.Covers c
    · refine ⟨top :: rest, by rw [(contains_iff htop0 hc).mpr hcov]; rfl, ?_⟩
      refine ⟨h, ⟨top, rfl, hcov⟩, ?_, ?_⟩
      · intro x
        have := (covers_iff htop0 hc).mp hcov x
        rw [hasLeaf_cons]
        tauto
      · exact fun hv d hd => hv d (List.mem_cons_of_mem c hd)
    · have hsuf := List.dropWhile_suffix (l := top :: rest) c.contains
      obtain ⟨out, hpush, htakes⟩ := push?_spec (h.suffix hsuf) hc
        fun e he => before_of_mem_dropWhile h hc hp htp hpc hcov he
      refine ⟨out, ?_, htakes.ready, htakes.top, ?_, ?_⟩
      · rw [if_neg (mt (contains_iff htop0 hc).mp hcov), requireRange_eq_ok hc]
        exact hpush
      · intro x
        have hsplit := hasLeaf_append ((top :: rest).takeWhile c.contains)
          ((top :: rest).dropWhile c.contains) x
        rw [List.takeWhile_append_dropWhile] at hsplit
        have htaken : HasLeaf ((top :: rest).takeWhile c.contains) x → c.HasLeaf x := by
          rintro ⟨e, he, hx⟩
          have he0 := h.ne_null e ((List.takeWhile_prefix c.contains).subset he)
          exact (covers_iff hc he0).mp ((contains_iff hc he0).mp (List.mem_takeWhile_imp he)) x hx
        rw [htakes.hasLeaf, hsplit]
        tauto
      · intro hv
        apply htakes.valid
        intro d hd
        rcases List.mem_cons.mp hd with rfl | hd
        · exact hv d (by simp)
        · exact hv d (List.mem_cons_of_mem c (hsuf.subset hd))

theorem foldlM_absorb?_spec (h : Ready stack) (h0 : ∀ c ∈ cells, c ≠ null)
    (hs : cells.Pairwise (· ≤ ·))
    (hlast : ∀ top ∈ stack.head?, ∃ p, p ≠ null ∧ top.Covers p ∧ ∀ c ∈ cells, p ≤ c) :
    ∃ out, cells.foldlM absorb? stack = .ok out ∧ Ready out ∧
      (∀ x, HasLeaf out x ↔ HasLeaf stack x ∨ HasLeaf cells x) ∧
      ((∀ d ∈ stack ++ cells, d.isValid = true) → ∀ d ∈ out, d.isValid = true) := by
  induction cells generalizing stack with
  | nil => exact ⟨stack, rfl, h, by simp [hasLeaf_nil], by simp⟩
  | cons c cells ih =>
    have hc : c ≠ null := h0 c (by simp)
    obtain ⟨mid, hmid, htakes⟩ := absorb?_spec h hc fun top ht => by
      obtain ⟨p, hp, hcov, hle⟩ := hlast top ht
      exact ⟨p, hp, hcov, hle c (by simp)⟩
    obtain ⟨out, hout, hready, hleaf, hvalid⟩ := ih htakes.ready
      (fun d hd => h0 d (List.mem_cons_of_mem c hd)) hs.of_cons fun top ht => by
        obtain ⟨t, ht', hcov⟩ := htakes.top
        obtain rfl : t = top := Option.some.inj (ht'.symm.trans ht)
        exact ⟨c, hc, hcov, fun d hd => List.rel_of_pairwise_cons hs hd⟩
    refine ⟨out, ?_, hready, ?_, ?_⟩
    · rw [List.foldlM_cons, hmid]
      exact hout
    · intro x
      rw [hleaf, htakes.hasLeaf, hasLeaf_cons]
      tauto
    · intro hv
      apply hvalid
      intro d hd
      rcases List.mem_append.mp hd with hd | hd
      · refine htakes.valid (fun e he => hv e ?_) d hd
        rcases List.mem_cons.mp he with rfl | he
        · simp
        · exact List.mem_append_left _ he
      · exact hv d (by simp [hd])

/-! ## Normalization -/

theorem pairwise_mergeSort_le (cells : List Cell) :
    (cells.mergeSort (· ≤ ·)).Pairwise (· ≤ ·) := by
  refine (List.pairwise_mergeSort ?_ ?_ cells).imp (by simp)
  · intro a b c hab hbc
    simp only [decide_eq_true_eq, Cell.le_iff] at hab hbc ⊢
    omega
  · intro a b
    simp only [Bool.or_eq_true, decide_eq_true_eq, Cell.le_iff]
    omega

/-- A list without the zero word has a normal form: a tidy list with the same leaves. -/
theorem ofList_spec (h0 : ∀ c ∈ cells, c ≠ null) :
    ∃ A, ofList cells = .ok A ∧ IsTidy A.cells ∧
      (∀ x, HasLeaf A.cells x ↔ HasLeaf cells x) ∧
      ((∀ c ∈ cells, c.isValid = true) → ∀ c ∈ A.cells, c.isValid = true) := by
  obtain ⟨out, hout, hready, hleaf, hvalid⟩ := foldlM_absorb?_spec Ready.nil
    (fun c hc => h0 c (List.mem_mergeSort.mp hc)) (pairwise_mergeSort_le cells) (by simp)
  have hnormal : Cover.isNormal? ⟨out.reverse⟩ = .ok true :=
    (isNormalList?_eq_true_iff hready.separated.ne_null).mpr hready
  refine ⟨⟨out.reverse⟩, ?_, hready, ?_, ?_⟩
  · rw [ofList, normalCells?, hout]
    simp only [ok_bind, pure_eq_ok, requireNormal_eq_ok hnormal]
  · intro x
    rw [hasLeaf_of_perm out.reverse_perm, hleaf, hasLeaf_of_perm (cells.mergeSort_perm _)]
    simp [hasLeaf_nil]
  · intro hv c hc
    exact hvalid (fun d hd => hv d (by simpa using hd)) c (List.mem_reverse.mp hc)

theorem ofList_of_valid (hv : ∀ c ∈ cells, c.isValid = true) :
    ∃ A, ofList cells = .ok A ∧ IsCanonical A.cells ∧ ∀ x, HasLeaf A.cells x ↔ HasLeaf cells x := by
  obtain ⟨A, hA, htidy, hleaf, hvalid⟩ := ofList_spec (ne_null_of_valid hv)
  have hvA := hvalid hv
  exact ⟨A, hA, ⟨hvA, (isNormal_iff_isTidy hvA).mpr htidy⟩, hleaf⟩

theorem ofList_of_isCanonical (h : IsCanonical cells) : ofList cells = .ok ⟨cells⟩ := by
  obtain ⟨A, hA, hcan, hleaf⟩ := ofList_of_valid h.valid
  rw [hA, ← hcan.eq_of_same_leaves h hleaf]

/-- **Normalization keeps the leaves and reaches the normal form.**  Any list of cells, in any
order, has a normal form of cells that stands for the same leaves, and a normal list stays as it
is. -/
theorem normalize_of_valid (cells : List Cell) (hv : ∀ c ∈ cells, c.isValid = true) :
    ∃ A : Cover, ofList cells = .ok A ∧
      normalize ⟨cells⟩ = .ok (A, decide (A.size < cells.length)) ∧
      IsNormal A.cells ∧ (∀ c ∈ A.cells, c.isValid = true) ∧
      (∀ x, HasLeaf A.cells x ↔ HasLeaf cells x) ∧
      (IsNormal cells → normalize ⟨cells⟩ = .ok (⟨cells⟩, false)) := by
  obtain ⟨A, hA, hcan, hleaf⟩ := ofList_of_valid hv
  refine ⟨A, hA, ?_, hcan.normal, hcan.valid, hleaf, ?_⟩
  · rw [normalize, hA]
    rfl
  · intro hn
    rw [normalize, ofList_of_isCanonical ⟨hv, hn⟩]
    simp [size]

/-- Four children of one cell, out of order, one of them twice and one with a child of its own; and
the cell they make up, which is normal. -/
theorem normalize_of_valid_family :
    (∀ c ∈ ([⟨0x4f00000000000000⟩, ⟨0x4900000000000000⟩, ⟨0x4b40000000000000⟩,
        ⟨0x4b00000000000000⟩, ⟨0x4d00000000000000⟩, ⟨0x4900000000000000⟩] : List Cell),
      c.isValid = true) ∧
    (∃ A : Cover, ofList [⟨0x4f00000000000000⟩, ⟨0x4900000000000000⟩, ⟨0x4b40000000000000⟩,
        ⟨0x4b00000000000000⟩, ⟨0x4d00000000000000⟩, ⟨0x4900000000000000⟩] = .ok A ∧
      IsNormal A.cells) ∧
    IsNormal [⟨0x4c00000000000000⟩] ∧
    normalize ⟨[⟨0x4c00000000000000⟩]⟩ = .ok (⟨[⟨0x4c00000000000000⟩]⟩, false) := by
  refine ⟨by decide, ?_, ?_⟩
  · obtain ⟨A, hA, _, hn, _⟩ := normalize_of_valid [⟨0x4f00000000000000⟩, ⟨0x4900000000000000⟩,
      ⟨0x4b40000000000000⟩, ⟨0x4b00000000000000⟩, ⟨0x4d00000000000000⟩, ⟨0x4900000000000000⟩]
      (by decide)
    exact ⟨A, hA, hn⟩
  · have hv : ∀ c ∈ ([⟨0x4c00000000000000⟩] : List Cell), c.isValid = true := by decide
    have hn : IsNormal [⟨0x4c00000000000000⟩] := (isNormalList?_iff_isNormal hv).mp rfl
    obtain ⟨_, _, _, _, _, _, hstay⟩ := normalize_of_valid _ hv
    exact ⟨hn, hstay hn⟩

example : ofList [⟨0x4f00000000000000⟩, ⟨0x4900000000000000⟩, ⟨0x4b40000000000000⟩,
    ⟨0x4b00000000000000⟩, ⟨0x4d00000000000000⟩, ⟨0x4900000000000000⟩] =
      .ok ⟨[⟨0x4c00000000000000⟩]⟩ := by
  cbv

/-- **The normal form is canonical**: equality of normal lists, and of the normal forms of any two
lists, is equality of the leaves. -/
theorem eq_iff_same_leaves (xs ys : List Cell) (hx : ∀ c ∈ xs, c.isValid = true)
    (hy : ∀ c ∈ ys, c.isValid = true) :
    (isNormalList? xs = .ok true → isNormalList? ys = .ok true →
      (xs = ys ↔ ∀ x, HasLeaf xs x ↔ HasLeaf ys x) ∧
        ((⟨xs⟩ : Cover) = ⟨ys⟩ ↔ ∀ x, HasLeaf xs x ↔ HasLeaf ys x)) ∧
      ((∃ C, ofList xs = .ok C ∧ ofList ys = .ok C) ↔ ∀ x, HasLeaf xs x ↔ HasLeaf ys x) := by
  constructor
  · intro nx ny
    have hxs := isCanonical_iff.mpr ⟨hx, nx⟩
    have hys := isCanonical_iff.mpr ⟨hy, ny⟩
    have heq : xs = ys ↔ ∀ x, HasLeaf xs x ↔ HasLeaf ys x :=
      ⟨fun h x => by rw [h], hxs.eq_of_same_leaves hys⟩
    exact ⟨heq, by rw [Cover.mk.injEq, heq]⟩
  · obtain ⟨A, hA, hcA, hlA⟩ := ofList_of_valid hx
    obtain ⟨B, hB, hcB, hlB⟩ := ofList_of_valid hy
    constructor
    · rintro ⟨C, hC, hC'⟩ x
      obtain rfl : A = C := Except.ok.inj (hA.symm.trans hC)
      obtain rfl : B = A := Except.ok.inj (hB.symm.trans hC')
      rw [← hlA, hlB]
    · intro h
      have hcells := hcA.eq_of_same_leaves hcB fun x => by rw [hlA, hlB, h]
      obtain rfl : A = B := by
        cases A; cases B
        exact congrArg Cover.mk hcells
      exact ⟨A, hA, hB⟩

/-- Two normal lists that differ in one child of a cell. -/
theorem eq_iff_same_leaves_of_two :
    isNormalList? [⟨0x4900000000000000⟩, ⟨0x4d00000000000000⟩] = .ok true ∧
      isNormalList? [⟨0x4900000000000000⟩, ⟨0x4f00000000000000⟩] = .ok true ∧
      ¬∀ x, HasLeaf [⟨0x4900000000000000⟩, ⟨0x4d00000000000000⟩] x ↔
        HasLeaf [⟨0x4900000000000000⟩, ⟨0x4f00000000000000⟩] x := by
  refine ⟨rfl, rfl, fun h => ?_⟩
  have heq := ((eq_iff_same_leaves [⟨0x4900000000000000⟩, ⟨0x4d00000000000000⟩]
    [⟨0x4900000000000000⟩, ⟨0x4f00000000000000⟩] (by decide) (by decide)).1 rfl rfl).1.mpr h
  exact absurd heq (by decide)

/-! ## Words that are no cells -/

/-- Alone, any word is its own normal form: there is nothing to compare it with. -/
theorem ofList_singleton (c : Cell) : ofList [c] = .ok ⟨[c]⟩ := by
  rw [ofList, normalCells?, List.mergeSort_singleton]
  rfl

/-- The zero word is read first, and the next word is compared with its range. -/
theorem ofList_of_null_mem (h0 : null ∈ cells) (hlen : 2 ≤ cells.length) :
    ofList cells = .error .zeroWord := by
  have hs := pairwise_mergeSort_le cells
  have hmem : null ∈ cells.mergeSort (· ≤ ·) := List.mem_mergeSort.mpr h0
  have hsize : (cells.mergeSort (· ≤ ·)).length = cells.length := List.length_mergeSort _
  rw [ofList, normalCells?]
  match hsort : cells.mergeSort (· ≤ ·) with
  | [] | [_] =>
    rw [hsort] at hsize
    simp only [List.length_nil, List.length_singleton] at hsize
    omega
  | a :: b :: rest =>
    have ha : a = null := by
      rw [hsort] at hs hmem
      rcases List.mem_cons.mp hmem with h | h
      · exact h.symm
      · have hle := le_iff.mp (List.rel_of_pairwise_cons hs h)
        exact ext_toNat (Nat.le_zero.mp hle)
    rw [ha]
    rfl

/-- **Which lists of words have a normal form.**  The words need not be cells, but where the zero
word is among them it must stand alone: normalization breaks off where it meets another one. -/
theorem normal_form_of_words (words : List UInt64) :
    ((∃ A, ofList (words.map Cell.mk) = .ok A ∧ A.isNormal? = .ok true) ↔
      (0 ∈ words → words = [0])) ∧
    (0 ∈ words → words ≠ [0] → ofList (words.map Cell.mk) = .error .zeroWord) := by
  have hnull : 0 ∈ words ↔ null ∈ words.map Cell.mk := by simp [null]
  have hbroken : 0 ∈ words → words ≠ [0] → ofList (words.map Cell.mk) = .error .zeroWord := by
    intro h0 hne
    refine ofList_of_null_mem (hnull.mp h0) ?_
    match words with
    | [w] => exact absurd (by rw [List.mem_singleton.mp h0]) hne
    | _ :: _ :: _ => simp
  refine ⟨⟨?_, ?_⟩, hbroken⟩
  · rintro ⟨A, hA, _⟩ h0
    by_contra hne
    rw [hbroken h0 hne] at hA
    cases hA
  · intro h
    by_cases h0 : 0 ∈ words
    · rw [h h0]
      exact ⟨_, ofList_singleton _, rfl⟩
    · have hne : ∀ c ∈ words.map Cell.mk, c ≠ null := fun c hc hc0 => h0 (hnull.mpr (hc0 ▸ hc))
      obtain ⟨A, hA, htidy, _⟩ := ofList_spec hne
      exact ⟨A, hA, (isNormalList?_eq_true_iff htidy.ne_null).mpr htidy⟩

/-- The largest word, words on both faces too many, and one with its marker in an odd place; and the
zero word beside a leaf. -/
theorem normal_form_of_words_no_cells :
    (∃ A, ofList ([0xffffffffffffffff, 0xd000000000000000, 0xe000000000000001, 2].map Cell.mk) =
      .ok A ∧ A.isNormal? = .ok true) ∧
    (0 : UInt64) ∈ [1, (0 : UInt64)] ∧ [1, (0 : UInt64)] ≠ [0] ∧
      ofList ([1, 0].map Cell.mk) = .error .zeroWord := by
  have hmem : (0 : UInt64) ∈ [1, (0 : UInt64)] := by decide
  have hne : [1, (0 : UInt64)] ≠ [0] := by decide
  refine ⟨(normal_form_of_words _).1.mpr fun h => absurd h (by decide), hmem, hne, ?_⟩
  exact (normal_form_of_words [1, 0]).2 hmem hne

/-- The zero word twice has no normal form. -/
theorem no_normal_form_of_zeros :
    ¬∀ words : List UInt64,
      ∃ A, ofList (words.map Cell.mk) = .ok A ∧ A.isNormal? = .ok true := by
  intro h
  obtain ⟨A, hA, _⟩ := h [0, 0]
  have hbroken : ofList ([0, 0].map Cell.mk) = .error .zeroWord :=
    ofList_of_null_mem (by decide) (by decide)
  rw [hbroken] at hA
  cases hA

end Cover

end QuadSphere
