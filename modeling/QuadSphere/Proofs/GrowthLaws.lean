import QuadSphere.Proofs.Comparison
import QuadSphere.Proofs.Growth

/-!
# Laws of growth

What is near a region depends on its leaves only, and a leaf near a union is near one of its parts.
So a union grows to the union of what its parts grow to, although cells of the parts may be merged
in it and grow from there in larger steps, and a cover grows to a part of what a larger one grows
to.

* `yields_growAt`: growth as a computation that yields the leaves near a cover.
* `growth_distributes`: growth of a union, and of a part.
-/

namespace QuadSphere.Cover

open Cell

variable {A B : Cover} {l : Nat} {t : Bool}

theorem yields_growAt (hl : l ≤ leafLevel) (hv : ∀ c ∈ A.cells, c.isValid = true) :
    Yields (A.growAt l) (IsNear l A.cells) := by
  obtain ⟨B, hB, hcan, _, hleaf⟩ := growAt_spec hl hv
  exact ⟨B, hB, hcan, hleaf⟩

theorem growByLevel_of_growAt (hl : l ≤ leafLevel) (h : A.growAt l = .ok B) :
    A.growByLevel l = .ok B := by
  rw [growByLevel, checkLevel, if_pos hl, h]
  rfl

/-! ## Comparisons that give a value -/

theorem isNormal?_of_requireNormal (h : A.requireNormal = .ok ()) : A.isNormal? = .ok true := by
  rw [requireNormal] at h
  obtain ⟨t, hn, ht⟩ := bind_eq_ok.mp h
  cases t with
  | false => cases ht
  | true => exact hn

theorem isNormal?_of_containsCover? (h : A.containsCover? B = .ok t) :
    A.isNormal? = .ok true ∧ B.isNormal? = .ok true := by
  rw [containsCover?] at h
  obtain ⟨_, hA, h⟩ := bind_eq_ok.mp h
  obtain ⟨_, hB, _⟩ := bind_eq_ok.mp h
  exact ⟨isNormal?_of_requireNormal hA, isNormal?_of_requireNormal hB⟩

/-- **Growth distributes over union and is monotone.**  The union of two covers grows to the union
of what they grow to, as a list of cells, and if one cover contains another one then what it grows
to contains what that one grows to. -/
theorem growth_distributes (A B : Cover) (level : Nat) (hA : ∀ c ∈ A.cells, c.isValid = true)
    (hB : ∀ c ∈ B.cells, c.isValid = true) (hl : level ≤ leafLevel) :
    (∃ U A' B' C, A.union B = .ok U ∧ A.growByLevel level = .ok A' ∧
      B.growByLevel level = .ok B' ∧ U.growByLevel level = .ok C ∧ A'.union B' = .ok C) ∧
    (B.containsCover? A = .ok true → ∃ A' B', A.growByLevel level = .ok A' ∧
      B.growByLevel level = .ok B' ∧ B'.containsCover? A' = .ok true) := by
  have hgrow : ∀ {A B : Cover}, A.growAt level = .ok B → A.growByLevel level = .ok B :=
    growByLevel_of_growAt hl
  obtain ⟨A', hA', hcanA', hleafA'⟩ := yields_growAt hl hA
  obtain ⟨B', hB', hcanB', hleafB'⟩ := yields_growAt hl hB
  constructor
  · have hv : ∀ c ∈ A.cells ++ B.cells, c.isValid = true :=
      List.forall_mem_append.mpr ⟨hA, hB⟩
    obtain ⟨U, hU, hcanU, hleafU⟩ := yields_ofList hv
    -- the union has the leaves of both lists, so the same leaves are near it
    have hnear : ∀ x, IsNear level U.cells x ↔ HasLeaf A'.cells x ∨ HasLeaf B'.cells x := by
      intro x
      rw [isNear_congr hleafU, isNear_append, hleafA', hleafB']
    obtain ⟨C, hC, hC'⟩ := (yields_growAt hl hcanU.valid).eq (yields_union hcanA' hcanB') hnear
    exact ⟨U, A', B', C, hU, hgrow hA', hgrow hB', hgrow hC, hC'⟩
  · intro hcontains
    obtain ⟨hnB, hnA⟩ := isNormal?_of_containsCover? hcontains
    obtain ⟨t, ht, hsub⟩ :=
      containsCover?_spec (isCanonical_iff.mpr ⟨hB, hnB⟩) (isCanonical_iff.mpr ⟨hA, hnA⟩)
    obtain rfl : true = t := Except.ok.inj (hcontains.symm.trans ht)
    obtain ⟨u, hu, hsub'⟩ := containsCover?_spec hcanB' hcanA'
    have hall : ∀ x, HasLeaf A'.cells x → HasLeaf B'.cells x := by
      intro x hx
      rw [hleafA'] at hx
      rw [hleafB']
      exact hx.mono (hsub.mp rfl)
    exact ⟨A', B', hgrow hA', hgrow hB', hu.trans (congrArg Except.ok (hsub'.mpr hall))⟩

/-- Three children of a cell and the fourth one, which make up that cell in the corner of a face. -/
theorem growth_distributes_siblings :
    let A : Cover := ⟨[⟨0x0100000000000000⟩, ⟨0x0300000000000000⟩, ⟨0x0500000000000000⟩]⟩
    let B : Cover := ⟨[⟨0x0700000000000000⟩]⟩
    let D : Cover := ⟨[⟨0x0400000000000000⟩]⟩
    ((∀ E ∈ [A, B, D], ∀ c ∈ E.cells, c.isValid = true) ∧ D.containsCover? A = .ok true) ∧
      (∃ U A' B' C, A.union B = .ok U ∧ A.growByLevel 3 = .ok A' ∧ B.growByLevel 3 = .ok B' ∧
        U.growByLevel 3 = .ok C ∧ A'.union B' = .ok C) ∧
      ∃ A' D', A.growByLevel 3 = .ok A' ∧ D.growByLevel 3 = .ok D' ∧
        D'.containsCover? A' = .ok true := by
  intro A B D
  have hA : ∀ c ∈ A.cells, c.isValid = true := by decide
  have hB : ∀ c ∈ B.cells, c.isValid = true := by decide
  have hD : ∀ c ∈ D.cells, c.isValid = true := by decide
  have hcontains : D.containsCover? A = .ok true := by decide +kernel
  have hall : ∀ E ∈ [A, B, D], ∀ c ∈ E.cells, c.isValid = true := by
    simp only [List.forall_mem_cons]
    exact ⟨hA, hB, hD, by simp⟩
  exact ⟨⟨hall, hcontains⟩, (growth_distributes A B 3 hA hB (by decide)).1,
    (growth_distributes A D 3 hA hD (by decide)).2 hcontains⟩

end QuadSphere.Cover
