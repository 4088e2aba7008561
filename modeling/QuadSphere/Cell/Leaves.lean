import QuadSphere.Cell.Basic

/-!
# The leaves below cells, and the normal form

`c.HasLeaf x` says that the word `x` is one of the leaves below `c`: an odd word within the range
of `c`.  A list of cells stands for the leaves below any of them, which is what `HasLeaf xs x` says.

`IsNormal` says of all cells of a list what `Cover.isNormal?` tests of neighbours in it.
-/

namespace QuadSphere

namespace Cell

def HasLeaf (c : Cell) (x : UInt64) : Prop :=
  x % 2 = 1 ∧ c.firstLeaf.word ≤ x ∧ x ≤ c.lastLeaf.word

instance (c : Cell) (x : UInt64) : Decidable (c.HasLeaf x) :=
  inferInstanceAs (Decidable (_ ∧ _ ∧ _))

end Cell

/-- The word is a leaf below one of the cells. -/
def HasLeaf (cells : List Cell) (x : UInt64) : Prop :=
  ∃ c ∈ cells, c.HasLeaf x

theorem hasLeaf_nil (x : UInt64) : ¬HasLeaf [] x := by
  simp [HasLeaf]

theorem hasLeaf_cons (c : Cell) (cells : List Cell) (x : UInt64) :
    HasLeaf (c :: cells) x ↔ c.HasLeaf x ∨ HasLeaf cells x := by
  simp [HasLeaf]

theorem hasLeaf_singleton (c : Cell) (x : UInt64) : HasLeaf [c] x ↔ c.HasLeaf x := by
  rw [hasLeaf_cons, or_iff_left (hasLeaf_nil x)]

theorem hasLeaf_append (cells cells' : List Cell) (x : UInt64) :
    HasLeaf (cells ++ cells') x ↔ HasLeaf cells x ∨ HasLeaf cells' x := by
  simp [HasLeaf, or_and_right, exists_or]

theorem hasLeaf_of_perm {cells cells' : List Cell} (h : cells.Perm cells') (x : UInt64) :
    HasLeaf cells x ↔ HasLeaf cells' x := by
  simp [HasLeaf, h.mem_iff]

/-! ## The normal form -/

structure IsNormal (cells : List Cell) : Prop where
  /-- The cells are in strictly increasing order. -/
  increasing : cells.Pairwise (· < ·)
  /-- No two cells have a leaf in common. -/
  apart : cells.Pairwise fun c d => ∀ x, c.HasLeaf x → ¬d.HasLeaf x
  /-- No cell has all its four children in the list. -/
  noFamily : ∀ p : Cell, p.isValid → ¬p.isLeaf → ∃ k < 4, p.child k ∉ cells

theorem IsNormal.nil : IsNormal [] :=
  ⟨.nil, .nil, fun _ _ _ => ⟨0, by decide, by simp⟩⟩

theorem IsNormal.sublist {cells cells' : List Cell} (h : IsNormal cells)
    (hs : cells'.Sublist cells) : IsNormal cells' where
  increasing := h.increasing.sublist hs
  apart := h.apart.sublist hs
  noFamily p hp hl := by
    obtain ⟨k, hk, hm⟩ := h.noFamily p hp hl
    exact ⟨k, hk, fun hc => hm (hs.subset hc)⟩

end QuadSphere
