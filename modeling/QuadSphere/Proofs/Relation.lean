import QuadSphere.Cell.Nesting
import QuadSphere.Proofs.Squares

/-!
# How two cells lie to each other

The comparisons of two cells look at their words only, where cells of all levels are mixed.  Since
two ranges are nested or apart, they are questions about the tree: a cell contains another one if it
is the ancestor of that one on its own level, and two cells intersect each other if one of them
contains the other.

* `contains_iff_ancestor`: the comparison of words finds the ancestor.
* `meets_iff_covers`: ranges with a part in common are nested.
* `Relation.holds_iff`, `relation_eq_iff`: the relation of two cells is what holds of their leaves.
* `comparisons_follow_tree`: the three comparisons, from both sides.
-/

namespace QuadSphere

open Cell

variable {a b : Cell} {r : Relation}

/-- What the relation of two cells says about their leaves. -/
def Relation.Holds : Relation → Cell → Cell → Prop
  | equal, a, b => ∀ x, a.HasLeaf x ↔ b.HasLeaf x
  | ancestor, a, b => (∀ x, b.HasLeaf x → a.HasLeaf x) ∧ ∃ x, a.HasLeaf x ∧ ¬b.HasLeaf x
  | descendant, a, b => (∀ x, a.HasLeaf x → b.HasLeaf x) ∧ ∃ x, b.HasLeaf x ∧ ¬a.HasLeaf x
  | disjoint, a, b => ∀ x, a.HasLeaf x → ¬b.HasLeaf x

theorem Relation.holds_swap (r : Relation) (a b : Cell) : r.swap.Holds b a ↔ r.Holds a b := by
  cases r with
  | equal => exact forall_congr' fun x => Iff.comm
  | ancestor => exact Iff.rfl
  | descendant => exact Iff.rfl
  | disjoint => exact forall_congr' fun x => imp_not_comm

namespace Cell

/-! ## Ancestors -/

theorem contains_iff_ancestor (ha : a.isValid = true) (hb : b.isValid = true) :
    a.contains b = true ↔ a.level ≤ b.level ∧ b.ancestor a.level = a := by
  rw [contains_iff (ne_null_of_isValid ha) (ne_null_of_isValid hb)]
  constructor
  · intro hcov
    have hl := level_le_of_covers ha hb hcov
    obtain ⟨hv, hlevel, hanc⟩ := ancestor_spec hb hl
    have hx := hasLeaf_firstLeaf (ne_null_of_isValid hb)
    have hax := (covers_iff (ne_null_of_isValid ha) (ne_null_of_isValid hb)).mp hcov _ hx
    have hvx := (covers_iff (ne_null_of_isValid hv) (ne_null_of_isValid hb)).mp hanc _ hx
    exact ⟨hl, eq_of_hasLeaf hv ha hlevel hvx hax⟩
  · rintro ⟨hl, heq⟩
    have hanc := (ancestor_spec hb hl).2.2
    rwa [heq] at hanc

theorem ancestor?_eq_ok_iff : b.ancestor? a.level = .ok a ↔
    a.level ≤ b.level ∧ b.ancestor a.level = a := by
  rw [ancestor?]
  split
  · next hl => simp [hl]
  · next hl => simp [hl]

/-! ## Nested ranges -/

section NonNull

variable (ha : a ≠ null) (hb : b ≠ null)
include ha hb

theorem meets_iff_covers : a.Meets b ↔ a.Covers b ∨ b.Covers a := by
  constructor
  · rintro ⟨hab, hba⟩
    rcases covers_or_before ha hb with h | h | h | h
    · exact Or.inl h
    · exact Or.inr h
    · exact absurd h hab
    · exact absurd h hba
  · rintro (h | h)
    · exact h.meets hb
    · exact And.symm (h.meets ha)

theorem intersects_iff : a.intersects b = true ↔ a.Meets b := by
  have hab := lastLeaf_lt_firstLeaf_iff ha hb
  have hba := lastLeaf_lt_firstLeaf_iff hb ha
  simp only [lt_iff] at hab hba
  rw [intersects, Bool.and_eq_true, decide_eq_true_eq, decide_eq_true_eq, le_iff, le_iff, Meets,
    ← hab, ← hba]
  omega

theorem intersects?_eq_ok : a.intersects? b = .ok (a.intersects b) := by
  rw [intersects?, requireRange_eq_ok ha, requireRange_eq_ok hb]
  rfl

theorem relation?_eq_ok : a.relation? b = .ok (a.relation b) := by
  rw [relation?, requireRange_eq_ok ha, requireRange_eq_ok hb]
  split
  · next heq => rw [relation, if_pos heq]
  · rfl

end NonNull

end Cell

/-! ## The relation of two cells -/

/-- Which of the two cells covers the other tells the relation that holds. -/
theorem Relation.holds_iff (ha : a ≠ null) (hb : b ≠ null) :
    r.Holds a b ↔ (a.Covers b ↔ r = equal ∨ r = ancestor) ∧
      (b.Covers a ↔ r = equal ∨ r = descendant) := by
  have hab := covers_iff ha hb
  have hba := covers_iff hb ha
  cases r with
  | equal =>
    simp only [Holds, hab, hba, true_or, iff_true]
    rw [← forall_and]
    exact forall_congr' fun x => iff_iff_implies_and_implies.trans And.comm
  | ancestor => simp [Holds, hab, hba]
  | descendant => simp [Holds, hab, hba, and_comm]
  | disjoint =>
    have hmeet := meets_iff_covers ha hb
    rw [meets_iff ha hb] at hmeet
    simp only [Holds, reduceCtorEq, or_self, iff_false, ← not_or, ← hmeet, not_exists, not_and]

namespace Cell

theorem relation_eq_iff (ha : a ≠ null) (hb : b ≠ null) : a.relation b = r ↔ r.Holds a b := by
  have hab := contains_iff ha hb
  have hba := contains_iff hb ha
  rw [Relation.holds_iff ha hb, relation, ← hab, ← hba]
  split
  · next heq =>
    subst heq
    have hself := hab.mpr (Covers.refl a)
    cases r <;> simp [hself]
  · next hne =>
    split
    · next hcov =>
      have hnot : ¬b.contains a = true := fun h => hne ((hab.mp hcov).antisymm ha hb (hba.mp h))
      cases r <;> simp [hcov, hnot]
    · next hcov => split <;> next hcov' => cases r <;> simp [hcov, hcov']

/-- **The comparisons of words follow the tree.**  A cell contains another one if it is its ancestor,
which is to say that it has all its leaves.  Two cells intersect each other if they have a leaf in
common, and then one contains the other.  Their relation is the only one that holds of their leaves,
and seen from the other side it is mirrored. -/
theorem comparisons_follow_tree (a b : Cell) (ha : a.isValid = true) (hb : b.isValid = true) :
    (∃ t, a.contains? b = .ok t ∧
      (t = true ↔ a.level ≤ b.level ∧ b.ancestor? a.level = .ok a) ∧
      (t = true ↔ ∀ x, b.HasLeaf x → a.HasLeaf x)) ∧
    (∃ t, a.intersects? b = .ok t ∧
      (t = true ↔ ∃ x, a.HasLeaf x ∧ b.HasLeaf x) ∧
      (t = true ↔ a.contains? b = .ok true ∨ b.contains? a = .ok true)) ∧
    ∃ r : Relation, a.relation? b = .ok r ∧ b.relation? a = .ok r.swap ∧
      (r = .equal ↔ a = b) ∧ ∀ r' : Relation, r' = r ↔ r'.Holds a b := by
  have ha0 := ne_null_of_isValid ha
  have hb0 := ne_null_of_isValid hb
  have hmeet := intersects_iff ha0 hb0
  have hswap : b.relation a = (a.relation b).swap :=
    (relation_eq_iff hb0 ha0).mpr ((Relation.holds_swap _ a b).mpr ((relation_eq_iff ha0 hb0).mp rfl))
  refine ⟨⟨_, contains?_eq_ok ha0 b, ?_, ?_⟩, ⟨_, intersects?_eq_ok ha0 hb0, ?_, ?_⟩,
    _, relation?_eq_ok ha0 hb0, hswap ▸ relation?_eq_ok hb0 ha0, ?_, fun r' => ?_⟩
  · rw [contains_iff_ancestor ha hb, ancestor?_eq_ok_iff, and_self_left]
  · rw [contains_iff ha0 hb0, covers_iff ha0 hb0]
  · rw [hmeet, meets_iff ha0 hb0]
  · rw [hmeet, meets_iff_covers ha0 hb0, contains?_eq_ok ha0, contains?_eq_ok hb0, Except.ok.injEq,
      Except.ok.injEq, contains_iff ha0 hb0, contains_iff hb0 ha0]
  · rw [relation_eq_iff ha0 hb0, Relation.holds_iff ha0 hb0]
    constructor
    · rintro ⟨hab, hba⟩
      exact (hab.mpr (Or.inl rfl)).antisymm ha0 hb0 (hba.mpr (Or.inl rfl))
    · rintro rfl
      exact ⟨iff_of_true (Covers.refl a) (Or.inl rfl), iff_of_true (Covers.refl a) (Or.inl rfl)⟩
  · rw [eq_comm, relation_eq_iff ha0 hb0]

/-- A cell and its grandchild, whose word is the smaller one. -/
theorem comparisons_follow_tree_grandchild :
    let a : Cell := ⟨0x4c00000000000000⟩
    let b : Cell := ⟨0x4b40000000000000⟩
    (a.isValid = true ∧ b.isValid = true) ∧
      (∀ x, b.HasLeaf x → a.HasLeaf x) ∧ b.ancestor? a.level = .ok a ∧
      a.relation? b = .ok .ancestor ∧ b.relation? a = .ok .descendant ∧
      Relation.Holds .ancestor a b := by
  intro a b
  have ha : a.isValid = true := by decide
  have hb : b.isValid = true := by decide
  have hcontains : a.contains? b = .ok true := by decide +kernel
  have hrel : a.relation? b = .ok .ancestor := by decide +kernel
  obtain ⟨⟨t, ht, hanc, hsub⟩, _, r, hr, hr', _, hholds⟩ := comparisons_follow_tree a b ha hb
  obtain rfl : true = t := Except.ok.inj (hcontains.symm.trans ht)
  obtain rfl : Relation.ancestor = r := Except.ok.inj (hrel.symm.trans hr)
  exact ⟨⟨ha, hb⟩, hsub.mp rfl, (hanc.mp rfl).2, hr, hr', (hholds _).mp rfl⟩

end Cell

end QuadSphere
