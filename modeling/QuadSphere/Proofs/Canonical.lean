import QuadSphere.Proofs.NormalTest

/-!
# Canonical lists

A canonical list is a normal list of cells.  It is determined by the leaves it stands for:
a cell whose leaves are all covered lies in one cell of the list (`exists_covers`), so two
canonical lists with the same leaves have the same cells (`eq_of_same_leaves`).  No other list of
cells with these leaves has fewer (`length_le_of_same_leaves`), or as few and not the same
(`perm_of_same_leaves`).
-/

namespace QuadSphere

open Cell

/-- A normal list of cells. -/
structure IsCanonical (cells : List Cell) : Prop where
  valid : ∀ c ∈ cells, c.isValid = true
  normal : IsNormal cells

theorem isCanonical_iff {cells : List Cell} :
    IsCanonical cells ↔
      (∀ c ∈ cells, c.isValid = true) ∧ Cover.isNormalList? cells = .ok true := by
  constructor
  · intro h
    exact ⟨h.valid, (isNormalList?_iff_isNormal h.valid).mpr h.normal⟩
  · rintro ⟨hv, ht⟩
    exact ⟨hv, (isNormalList?_iff_isNormal hv).mp ht⟩

theorem isCanonical_singleton {c : Cell} (hc : c.isValid = true) : IsCanonical [c] :=
  isCanonical_iff.mpr ⟨by simpa using hc, rfl⟩

namespace IsCanonical

variable {cells cells' : List Cell} {c d : Cell}

theorem ne_null (h : IsCanonical cells) : ∀ c ∈ cells, c ≠ null :=
  ne_null_of_valid h.valid

theorem separated (h : IsCanonical cells) : Separated cells :=
  (h.normal.isTidy h.valid).toSeparated

theorem sublist (h : IsCanonical cells) (hs : cells'.Sublist cells) : IsCanonical cells' :=
  ⟨fun c hc => h.valid c (hs.subset hc), h.normal.sublist hs⟩

theorem isNormal?_eq (A : Cover) (h : IsCanonical A.cells) : A.isNormal? = .ok true :=
  (isCanonical_iff.mp h).2

theorem nodup (h : IsCanonical cells) : cells.Nodup := by
  refine h.normal.increasing.imp ?_
  rintro a b hab rfl
  rw [Cell.lt_iff] at hab
  omega

theorem before_or_before (h : IsCanonical cells) (hc : c ∈ cells) (hd : d ∈ cells) (hne : c ≠ d) :
    c.Before d ∨ d.Before c := by
  have : Std.Symm fun a b : Cell => a.Before b ∨ b.Before a := ⟨fun _ _ => Or.symm⟩
  have hboth : cells.Pairwise fun a b => a.Before b ∨ b.Before a :=
    h.separated.pairwise.imp Or.inl
  exact hboth.forall hc hd hne

theorem eq_of_covers (h : IsCanonical cells) (hc : c ∈ cells) (hd : d ∈ cells)
    (hcd : c.Covers d) : c = d := by
  by_contra hne
  have hnot := hcd.meets (h.ne_null d hd)
  rcases h.before_or_before hc hd hne with hb | hb
  · exact hnot.1 hb
  · exact hnot.2 hb

theorem eq_of_hasLeaf (h : IsCanonical cells) (hc : c ∈ cells) (hd : d ∈ cells) {x : UInt64}
    (hx : c.HasLeaf x) (hx' : d.HasLeaf x) : c = d := by
  rcases covers_or_covers (h.ne_null c hc) (h.ne_null d hd) hx hx' with hcd | hdc
  · exact h.eq_of_covers hc hd hcd
  · exact (h.eq_of_covers hd hc hdc).symm

/-- **A covered cell lies in one cell of a canonical list.**  Otherwise each of its children would
lie in a cell of the list that does not cover the whole, so all four would be in the list. -/
theorem exists_covers (h : IsCanonical cells) (hc : c.isValid = true)
    (hsub : ∀ x, c.HasLeaf x → HasLeaf cells x) : ∃ d ∈ cells, d.Covers c := by
  -- the induction is on how often the cell can be cut
  induction hm : c.cutsLeft generalizing c with
  | zero =>
    have hl : c.isLeaf = true := (isLeaf_iff_cutsLeft hc).mpr hm
    have hx := hasLeaf_firstLeaf (ne_null_of_isValid hc)
    obtain ⟨d, hd, hdx⟩ := hsub _ hx
    exact ⟨d, hd, covers_of_isLeaf hc hl (h.ne_null d hd) hx hdx⟩
  | succ m ih =>
    have hl : ¬c.isLeaf = true := by
      rw [isLeaf_iff_cutsLeft hc]
      omega
    by_contra hno
    push Not at hno
    have hmem : ∀ i < 4, c.child i ∈ cells := by
      intro i hi
      have hcut := cutsLeft_child hc hl hi
      obtain ⟨d, hd, hdc⟩ := ih (isValid_child hc hl hi)
        (fun x hx => hsub x ((hasLeaf_iff_exists_child hc hl x).mpr ⟨i, hi, hx⟩)) (by omega)
      rcases covers_or_eq_child hc hl (h.valid d hd) hi hdc with hcov | rfl
      · exact absurd hcov (hno d hd)
      · exact hd
    obtain ⟨i, hi, hnot⟩ := h.normal.noFamily c hc hl
    exact hnot (hmem i hi)

theorem exists_covers_iff (h : IsCanonical cells) (hc : c.isValid = true) :
    (∃ d ∈ cells, d.Covers c) ↔ ∀ x, c.HasLeaf x → HasLeaf cells x := by
  constructor
  · intro hcov x
    exact h.separated.hasLeaf_of_covers (ne_null_of_isValid hc) hcov
  · exact h.exists_covers hc

theorem child_not_mem (h : IsCanonical cells) (hc : c.isValid = true) (hl : ¬c.isLeaf = true)
    {i : Nat} (hi : i < 4) (hsub : ∀ x, c.HasLeaf x → HasLeaf cells x) : c.child i ∉ cells := by
  intro hmem
  obtain ⟨d, hd, hdc⟩ := h.exists_covers hc hsub
  obtain rfl := h.eq_of_covers hd hmem (hdc.trans (covers_child hc hl hi))
  exact not_covers_of_child hc hl hi hdc

theorem eq_nil_iff (h : IsCanonical cells) : cells = [] ↔ ∀ x, ¬HasLeaf cells x := by
  constructor
  · rintro rfl
    exact hasLeaf_nil
  · intro hno
    apply List.eq_nil_iff_forall_not_mem.mpr
    intro c hc
    exact hno _ ⟨c, hc, hasLeaf_firstLeaf (h.ne_null c hc)⟩

/-! ## Lists with the same leaves -/

theorem mem_of_same_leaves (h : IsCanonical cells) (h' : IsCanonical cells')
    (hs : ∀ x, HasLeaf cells x ↔ HasLeaf cells' x) (hc : c ∈ cells) : c ∈ cells' := by
  obtain ⟨d, hd, hdc⟩ := h'.exists_covers (h.valid c hc) fun x hx => (hs x).mp ⟨c, hc, hx⟩
  obtain ⟨e, he, hed⟩ := h.exists_covers (h'.valid d hd) fun x hx => (hs x).mpr ⟨d, hd, hx⟩
  obtain rfl := h.eq_of_covers he hc (hed.trans hdc)
  rw [hed.antisymm (h.ne_null e he) (h'.ne_null d hd) hdc]
  exact hd

/-- **Canonical lists with the same leaves are equal.** -/
theorem eq_of_same_leaves (h : IsCanonical cells) (h' : IsCanonical cells')
    (hs : ∀ x, HasLeaf cells x ↔ HasLeaf cells' x) : cells = cells' := by
  have hperm : cells.Perm cells' := by
    rw [List.perm_ext_iff_of_nodup h.nodup h'.nodup]
    intro c
    exact ⟨h.mem_of_same_leaves h' hs, h'.mem_of_same_leaves h fun x => (hs x).symm⟩
  refine hperm.eq_of_pairwise ?_ h.normal.increasing h'.normal.increasing
  intro a b _ _ hab hba
  rw [Cell.lt_iff] at hab hba
  omega

/-- Each cell of a canonical list covers a cell of any list with the same leaves, and no two of them
cover the same one. -/
theorem exists_within (h : IsCanonical cells) (hv : ∀ c ∈ cells', c.isValid = true)
    (hs : ∀ x, HasLeaf cells' x ↔ HasLeaf cells x) :
    ∃ f : Cell → Cell, (∀ c ∈ cells, c.Covers (f c)) ∧ cells.map f ⊆ cells' ∧
      (cells.map f).Nodup := by
  have hcovers : ∀ c ∈ cells, ∃ d ∈ cells', c.Covers d := by
    intro c hc
    have hx := hasLeaf_firstLeaf (h.ne_null c hc)
    obtain ⟨d, hd, hdx⟩ := (hs _).mpr ⟨c, hc, hx⟩
    -- the cell of the other list lies in one of this list, which can only be the given one
    obtain ⟨e, he, hed⟩ := h.exists_covers (hv d hd) fun y hy => (hs y).mp ⟨d, hd, hy⟩
    have hex := (covers_iff (h.ne_null e he) (ne_null_of_isValid (hv d hd))).mp hed _ hdx
    rw [h.eq_of_hasLeaf hc he hx hex]
    exact ⟨d, hd, hed⟩
  have : Nonempty Cell := ⟨null⟩
  choose! f hmem hcov using hcovers
  refine ⟨f, hcov, fun d hd => List.forall_mem_map.mpr hmem d hd,
    h.nodup.map_on fun a ha b hb hab => ?_⟩
  have hne := ne_null_of_isValid (hv _ (hmem a ha))
  have hx := hasLeaf_firstLeaf hne
  have hax := (covers_iff (h.ne_null a ha) hne).mp (hcov a ha) _ hx
  have hbx := (covers_iff (h.ne_null b hb) hne).mp (hab ▸ hcov b hb) _ hx
  exact h.eq_of_hasLeaf ha hb hax hbx

/-- **No list of cells with the same leaves is shorter than the canonical one.** -/
theorem length_le_of_same_leaves (h : IsCanonical cells) (hv : ∀ c ∈ cells', c.isValid = true)
    (hs : ∀ x, HasLeaf cells' x ↔ HasLeaf cells x) : cells.length ≤ cells'.length := by
  obtain ⟨f, _, hsub, hnodup⟩ := h.exists_within hv hs
  calc cells.length = (cells.map f).length := (List.length_map f).symm
    _ ≤ cells'.length := hnodup.length_le_of_subset hsub

theorem perm_of_same_leaves (h : IsCanonical cells) (hv : ∀ c ∈ cells', c.isValid = true)
    (hs : ∀ x, HasLeaf cells' x ↔ HasLeaf cells x) (hlen : cells'.length ≤ cells.length) :
    cells'.Perm cells := by
  obtain ⟨f, hcov, hsub, hnodup⟩ := h.exists_within hv hs
  have hperm : (cells.map f).Perm cells' := by
    apply (hnodup.subperm hsub).perm_of_length_le
    rw [List.length_map]
    exact hlen
  have hfix : ∀ c ∈ cells, f c = c := by
    intro c hc
    have hne := ne_null_of_isValid (hv _ (hsub (List.mem_map_of_mem hc)))
    refine Covers.antisymm hne (h.ne_null c hc) ?_ (hcov c hc)
    rw [covers_iff hne (h.ne_null c hc)]
    intro x hx
    -- a leaf of `c` lies in some `f e`, and then `c` and `e` have it in common
    obtain ⟨d, hd, hdx⟩ := (hs x).mpr ⟨c, hc, hx⟩
    obtain ⟨e, he, rfl⟩ := List.mem_map.mp (hperm.mem_iff.mpr hd)
    have hfe := ne_null_of_isValid (hv _ hd)
    have hex := (covers_iff (h.ne_null e he) hfe).mp (hcov e he) x hdx
    rwa [h.eq_of_hasLeaf hc he hx hex]
  rw [List.map_congr_left hfix, List.map_id'] at hperm
  exact hperm.symm

end IsCanonical

end QuadSphere
