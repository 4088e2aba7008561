import QuadSphere.Cell.Outcome
import QuadSphere.Cover.NormalForm
import QuadSphere.Cover.Membership

/-!
# Union, intersection and difference

Two cells that have a leaf in common are nested.  So the cells of an intersection are those cells
of either cover that lie in one of the other, and a cell that is to be cleared of a cover is kept,
dropped, or cut into its four children.
-/

namespace QuadSphere.Cover

def union (A B : Cover) : Except Fault Cover :=
  ofList (A.cells ++ B.cells)

/-! ## Intersection -/

/-- What is left of the list `y :: ys`, where `y` ends before `x` begins, when the cells that end
before `x` are skipped.  The first cell of `ys` whose word is not before the range of `x` is looked
for by bisection; the cell before that one is kept if it reaches `x`. -/
def skip? (y : Cell) (ys : List Cell) (x : Cell) : Except Fault (List Cell) :=
  match (y :: ys).drop (bisect (· < x.firstLeaf) ys) with
  | [] => .error .noSuchIndex
  | last :: rest => do
    if x ≤ (← last.lastLeaf?) then return last :: rest else return rest

theorem exists_of_skip? {y x : Cell} {ys rest : List Cell} (h : skip? y ys x = .ok rest) :
    ∃ last tail, (y :: ys).drop (bisect (· < x.firstLeaf) ys) = last :: tail ∧
      rest = if x ≤ last.lastLeaf then last :: tail else tail := by
  rw [skip?] at h
  cases hdrop : (y :: ys).drop (bisect (· < x.firstLeaf) ys) with
  | nil =>
    rw [hdrop] at h
    cases h
  | cons last tail =>
    rw [hdrop] at h
    obtain ⟨leaf, hleaf, h⟩ := bind_eq_ok.mp h
    obtain rfl := Cell.eq_of_lastLeaf?_eq_ok hleaf
    refine ⟨last, tail, rfl, ?_⟩
    by_cases hle : x ≤ last.lastLeaf
    · rw [if_pos hle] at h ⊢
      exact (Except.ok.inj h).symm
    · rw [if_neg hle] at h ⊢
      exact (Except.ok.inj h).symm

/-- Skipping makes progress, since `y` itself does not reach `x`. -/
theorem length_le_of_skip? {y x : Cell} {ys rest : List Cell} (hx : ¬x ≤ y.lastLeaf)
    (h : skip? y ys x = .ok rest) : rest.length ≤ ys.length := by
  obtain ⟨last, tail, hdrop, rfl⟩ := exists_of_skip? h
  cases hn : bisect (· < x.firstLeaf) ys with
  | zero =>
    rw [hn, List.drop_zero] at hdrop
    obtain ⟨rfl, rfl⟩ := List.cons.inj hdrop
    exact Nat.le_of_eq (congrArg List.length (if_neg hx))
  | succ n =>
    rw [hn, List.drop_succ_cons] at hdrop
    have hlen : (last :: tail).length ≤ ys.length := by
      rw [← hdrop]
      exact (List.drop_sublist n ys).length_le
    split
    · exact hlen
    · exact Nat.le_of_succ_le hlen

/-- The cells of either list that lie in a cell of the other, in order.  Of two cells that lie
apart the earlier one is skipped, with all cells behind it that also end too soon. -/
def meet? : List Cell → List Cell → Except Fault (List Cell)
  | x :: xs, y :: ys => do
    let xFirst ← x.firstLeaf?
    let yFirst ← y.firstLeaf?
    if yFirst < xFirst then
      if hx : x ≤ y.lastLeaf then
        return x :: (← meet? xs (y :: ys))
      else
        match hs : skip? y ys x with
        | .error e => throw e
        | .ok rest =>
          have := length_le_of_skip? hx hs
          meet? (x :: xs) rest
    else if xFirst < yFirst then
      if hy : y ≤ x.lastLeaf then
        return y :: (← meet? (x :: xs) ys)
      else
        match hs : skip? x xs y with
        | .error e => throw e
        | .ok rest =>
          have := length_le_of_skip? hy hs
          meet? rest (y :: ys)
    else if x < y then
      return x :: (← meet? xs (y :: ys))
    else
      return y :: (← meet? (x :: xs) ys)
  | _, _ => .ok []
termination_by xs ys => xs.length + ys.length
decreasing_by all_goals simp only [List.length_cons]; omega

def intersection (A B : Cover) : Except Fault Cover := do
  A.requireNormal
  B.requireNormal
  let C : Cover := ⟨← meet? A.cells B.cells⟩
  C.requireNormal
  return C

/-- The part of a cover within one cell: the cell itself if it is covered, and otherwise the cells
of the cover within its range. -/
def within (A : Cover) (c : Cell) : Except Fault Cover := do
  A.requireNormal
  if ← A.contains? c then return ⟨[c]⟩
  c.requireRange
  return ⟨(A.cells.drop (A.seek c.firstLeaf)).takeWhile (· ≤ c.lastLeaf)⟩

/-! ## Difference -/

/-- An upper bound on the work that a stack of cells holds, eight times as much for each cut that is
left: cutting a cell into its children lowers it. -/
def work : List Cell → Nat
  | [] => 0
  | c :: stack => (1 <<< (3 * c.cutsLeft)) + work stack

theorem work_append (stack stack' : List Cell) :
    work (stack ++ stack') = work stack + work stack' := by
  induction stack with
  | nil => simp [work]
  | cons c stack ih => rw [List.cons_append, work, work, ih, Nat.add_assoc]

theorem work_cons (c : Cell) (stack : List Cell) : work (c :: stack) = work [c] + work stack :=
  work_append [c] stack

theorem work_lt_work_cons (c : Cell) (stack : List Cell) : work stack < work (c :: stack) := by
  have hpos := Nat.two_pow_pos (3 * c.cutsLeft)
  rw [work, Nat.one_shiftLeft]
  omega

/-- The cells on a stack, cleared of a cover.  A cell that the cover meets without containing it is
cut, and its children take its place on the stack. -/
def clear? (B : Cover) : List Cell → Except Fault (List Cell)
  | [] => .ok []
  | c :: stack => do
    if !(← B.intersects? c) then
      return c :: (← clear? B stack)
    else if ← B.contains? c then
      clear? B stack
    else
      let children ← c.children?
      if work children < work [c] then clear? B (children ++ stack) else throw .endless
termination_by stack => work stack
decreasing_by
  · exact work_lt_work_cons c stack
  · exact work_lt_work_cons c stack
  · rw [work_append, work_cons]
    exact Nat.add_lt_add_right ‹work children < work [c]› (work stack)

def difference (A B : Cover) : Except Fault Cover := do
  A.requireNormal
  B.requireNormal
  ofList (← clear? B A.cells)

end QuadSphere.Cover
