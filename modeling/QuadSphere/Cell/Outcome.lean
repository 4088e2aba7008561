import QuadSphere.Cell.Basic

/-!
# Operations that give a value

How a computation goes on after a value, and after a fault; and the operations on cells that have
a precondition, where it holds.  The zero word is the only one without a range.
-/

namespace QuadSphere

section Bind

variable {ε α β : Type}

@[simp] theorem ok_bind (a : α) (f : α → Except ε β) : (Except.ok a >>= f) = f a := rfl

@[simp] theorem error_bind (e : ε) (f : α → Except ε β) : (Except.error e >>= f) = .error e := rfl

@[simp] theorem pure_eq_ok (a : α) : (pure a : Except ε α) = .ok a := rfl

@[simp] theorem throw_eq_error (e : ε) : (throw e : Except ε α) = .error e := rfl

theorem bind_eq_ok {x : Except ε α} {f : α → Except ε β} {b : β} :
    x >>= f = .ok b ↔ ∃ a, x = .ok a ∧ f a = .ok b := by
  cases x with
  | error e => simp
  | ok a => simp

theorem mapM_eq_ok {f : α → Except ε β} {g : α → β} {xs : List α}
    (h : ∀ x ∈ xs, f x = .ok (g x)) : xs.mapM f = .ok (xs.map g) := by
  induction xs with
  | nil => rfl
  | cons x xs ih =>
    obtain ⟨hx, hxs⟩ := List.forall_mem_cons.mp h
    rw [List.mapM_cons, hx, ih hxs]
    rfl

end Bind

namespace Cell

variable {c d : Cell} {i : Nat}

theorem word_ne_zero (h : c ≠ null) : c.word ≠ 0 := by
  rintro h0
  apply h
  cases c
  exact congrArg Cell.mk h0

theorem requireRange_eq_ok (h : c ≠ null) : c.requireRange = .ok () :=
  if_neg (word_ne_zero h)

theorem firstLeaf?_eq_ok (h : c ≠ null) : c.firstLeaf? = .ok c.firstLeaf := by
  rw [firstLeaf?, requireRange_eq_ok h]
  rfl

theorem lastLeaf?_eq_ok (h : c ≠ null) : c.lastLeaf? = .ok c.lastLeaf := by
  rw [lastLeaf?, requireRange_eq_ok h]
  rfl

theorem eq_of_lastLeaf?_eq_ok (h : c.lastLeaf? = .ok d) : d = c.lastLeaf := by
  obtain ⟨_, _, hd⟩ := bind_eq_ok.mp h
  exact (Except.ok.inj hd).symm

theorem contains?_eq_ok (h : c ≠ null) (d : Cell) : c.contains? d = .ok (c.contains d) := by
  rw [contains?, requireRange_eq_ok h]
  rfl

theorem sum?_eq_ok {w v : UInt64} (h : w.toNat + v.toNat < UInt64.size) :
    sum? w v = .ok (w + v) :=
  if_pos h

theorem firstAt?_eq_ok {l : Nat} (hcl : c.level ≤ l) (hl : l ≤ leafLevel) :
    c.firstAt? l = .ok (c.firstAt l) := by
  rw [firstAt?, requireDescent, if_pos ⟨hcl, hl⟩]
  rfl

theorem parent?_eq_ok (h : ¬c.isFace = true) : c.parent? = .ok c.parent :=
  if_neg h

theorem child?_eq_ok_iff : c.child? i = .ok d ↔ ¬c.isLeaf = true ∧ i < 4 ∧ c.child i = d := by
  rw [child?]
  by_cases hl : c.isLeaf = true
  · simp [hl]
  · by_cases hi : 4 ≤ i
    · simp [hl, hi, Nat.not_lt.mpr hi]
    · simp [hl, hi, Nat.lt_of_not_le hi]

/-- The four children, where the cell is no leaf. -/
def children (c : Cell) : List Cell :=
  [c.child 0, c.child 1, c.child 2, c.child 3]

theorem children?_eq_ok (h : ¬c.isLeaf = true) : c.children? = .ok c.children := by
  simp only [children?, child?, h, show List.range 4 = [0, 1, 2, 3] from rfl, List.mapM_cons,
    List.mapM_nil]
  rfl

end Cell

end QuadSphere
