import QuadSphere.Proofs.Normalization
import QuadSphere.Proofs.Runs

/-!
# The fewest cells

Among all lists of cells with the same leaves, in any order and with any overlaps, the canonical one
is the shortest, and any other list that is as short has its cells in another order.  So whatever
way leads to a canonical list leads to one with the fewest cells.

* `IsCanonical.isShortest`: no list of cells is shorter than the canonical one.
* `normal_forms_shortest`: normal covers, normal forms of lists and runs of leaves.
-/

namespace QuadSphere

open Cell

variable {cells : List Cell} {P Q : UInt64 → Prop}

/-- A list of cells for the leaves with `P` that is shorter than all others, up to order. -/
structure IsShortest (P : UInt64 → Prop) (cells : List Cell) : Prop where
  valid : ∀ c ∈ cells, c.isValid = true
  leaves : ∀ x, HasLeaf cells x ↔ P x
  length_le : ∀ cells', (∀ c ∈ cells', c.isValid = true) → (∀ x, HasLeaf cells' x ↔ P x) →
    cells.length ≤ cells'.length
  perm : ∀ cells', (∀ c ∈ cells', c.isValid = true) → (∀ x, HasLeaf cells' x ↔ P x) →
    cells'.length ≤ cells.length → cells'.Perm cells

theorem IsCanonical.isShortest (h : IsCanonical cells) (hleaf : ∀ x, HasLeaf cells x ↔ P x) :
    IsShortest P cells where
  valid := h.valid
  leaves := hleaf
  length_le _ hv hs := h.length_le_of_same_leaves hv fun x => (hs x).trans (hleaf x).symm
  perm _ hv hs := h.perm_of_same_leaves hv fun x => (hs x).trans (hleaf x).symm

namespace Cover

theorem isShortest_of_eq_ok {r : Except Failure Cover} {A : Cover}
    (h : (∃ reason, r = .error (.refused reason)) ∨
      ∃ B, r = .ok B ∧ IsCanonical B.cells ∧ ∀ x, HasLeaf B.cells x ↔ P x)
    (hA : r = .ok A) (hPQ : ∀ x, P x ↔ Q x) : IsShortest Q A.cells := by
  rcases h with ⟨reason, hr⟩ | ⟨B, hB, hcan, hleaf⟩
  · exact absurd (hA.symm.trans hr) (by simp)
  · obtain rfl : A = B := Except.ok.inj (hA.symm.trans hB)
    exact hcan.isShortest fun x => (hleaf x).trans (hPQ x)

/-- **Normal covers have the fewest cells.**  So do the normal form of a list of cells and the cover
of a run of leaves, which are found for any list and for any run. -/
theorem normal_forms_shortest :
    (∀ A : Cover, (∀ c ∈ A.cells, c.isValid = true) → A.isNormal? = .ok true →
      IsShortest (HasLeaf A.cells) A.cells) ∧
    (∀ cells, (∀ c ∈ cells, c.isValid = true) →
      ∃ A, ofList cells = .ok A ∧ IsShortest (HasLeaf cells) A.cells) ∧
    (∀ first limit,
      (checkLeaf first = .ok () → checkLeaf limit = .ok () → first ≤ limit →
        ∃ A, ofLeavesBefore first limit = .ok A) ∧
      ∀ A, ofLeavesBefore first limit = .ok A →
        IsShortest (fun x => x % 2 = 1 ∧ first.word ≤ x ∧ x < limit.word) A.cells) ∧
    ∀ first last,
      (first.isValid = true → first.isLeaf = true → last.isValid = true → last.isLeaf = true →
        first ≤ last → ∃ A, ofLeaves first last = .ok A) ∧
      ∀ A, ofLeaves first last = .ok A →
        IsShortest (fun x => x % 2 = 1 ∧ first.word ≤ x ∧ x ≤ last.word) A.cells := by
  refine ⟨fun A hA hnA => ?_, fun cells hv => ?_, fun first limit => ⟨?_, fun A hA => ?_⟩,
    fun first last => ⟨?_, fun A hA => ?_⟩⟩
  · exact (isCanonical_iff.mpr ⟨hA, hnA⟩).isShortest fun _ => Iff.rfl
  · obtain ⟨A, hA, hcan, hleaf⟩ := ofList_of_valid hv
    exact ⟨A, hA, hcan.isShortest hleaf⟩
  · intro hfirst hlimit hle
    obtain ⟨A, hA, _⟩ := ofLeavesBefore_of_checkLeaf hfirst hlimit hle
    exact ⟨A, hA⟩
  · exact isShortest_of_eq_ok (ofLeavesBefore_spec first limit) hA fun x => by
      rw [Word.mod_two_eq_one_iff]
  · intro hfv hfl hlv hll hle
    obtain ⟨A, hA, _⟩ :=
      ofLeaves_of_isLeaf ((checkLeaf_eq_ok_iff first).mpr (Or.inl ⟨hfv, hfl⟩)) hlv hll hle
    exact ⟨A, hA⟩
  · exact isShortest_of_eq_ok (ofLeaves_spec first last) hA fun x => by
      rw [Word.mod_two_eq_one_iff]

/-- The four children of a cell, one of them twice, in a list that has a normal form with one cell;
and a run of leaves that begins on one face and ends on the next. -/
theorem normal_forms_shortest_four :
    let A : Cover := ⟨[⟨0x4c00000000000000⟩]⟩
    let cells : List Cell := [⟨0x4f00000000000000⟩, ⟨0x4900000000000000⟩, ⟨0x4b00000000000000⟩,
      ⟨0x4d00000000000000⟩, ⟨0x4900000000000000⟩]
    let first : Cell := ⟨0x1ffffffffffffff9⟩
    let last : Cell := ⟨0x2000000000000007⟩
    ((∀ c ∈ A.cells, c.isValid = true) ∧ A.isNormal? = .ok true) ∧
      IsShortest (HasLeaf A.cells) A.cells ∧
      (∀ c ∈ cells, c.isValid = true) ∧
      (∃ B, ofList cells = .ok B ∧ IsShortest (HasLeaf cells) B.cells) ∧
      (first.isValid = true ∧ first.isLeaf = true ∧ last.isValid = true ∧ last.isLeaf = true ∧
        first ≤ last) ∧
      ∃ B, ofLeaves first last = .ok B ∧
        IsShortest (fun x => x % 2 = 1 ∧ first.word ≤ x ∧ x ≤ last.word) B.cells := by
  intro A cells first last
  have hA : ∀ c ∈ A.cells, c.isValid = true := by decide
  have hcells : ∀ c ∈ cells, c.isValid = true := by decide
  have hrun : first.isValid = true ∧ first.isLeaf = true ∧ last.isValid = true ∧
      last.isLeaf = true ∧ first ≤ last := by decide
  obtain ⟨hnormal, hlist, _, hleaves⟩ := normal_forms_shortest
  obtain ⟨hfv, hfl, hlv, hll, hle⟩ := hrun
  obtain ⟨B, hB⟩ := (hleaves first last).1 hfv hfl hlv hll hle
  exact ⟨⟨hA, rfl⟩, hnormal A hA rfl, hcells, hlist cells hcells, ⟨hfv, hfl, hlv, hll, hle⟩,
    B, hB, (hleaves first last).2 B hB⟩

end Cover

end QuadSphere
