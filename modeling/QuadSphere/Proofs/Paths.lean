import QuadSphere.Cell.Token
import QuadSphere.Proofs.Squares

/-!
# Cells and paths

`Leads face path c` says that the calls along the path, from the face on, succeed one after the other
and end at `c`.  A child has the first bits of its cell and two more, so the face and the branches of
a cell can be read off all cells below it, and a word has no more than one path.  In the other
direction every cell is a child of its parent, which is one level nearer to the face.

* `leads_iff`: the only path to a cell is the one that its bits tell.
* `exists_leads_iff`: which paths lead anywhere.
* `cells_are_paths`: the cells are the ends of the paths, and their texts are the paths.
-/

namespace QuadSphere.Cell

variable {c d : Cell} {m q i l face : Nat} {path : List Nat}

/-! ## Faces -/

theorem root_at (h : face < faceCount) : (root face).At (2 * leafLevel) face := by
  have hword : ∀ face < faceCount, (root face).word.toNat = (2 * face + 1) * 2 ^ (2 * leafLevel) := by
    decide
  exact hword face h

theorem isValid_root (h : face < faceCount) : (root face).isValid = true :=
  ((root_at h).isValid_iff_lt (Nat.le_refl _)).mpr h

theorem level_root (h : face < faceCount) : (root face).level = 0 :=
  (root_at h).level_eq

/-- The bits of the face stand where the branch of the level zero would begin. -/
theorem face_eq_word_div (c : Cell) : c.face = c.word.toNat / 2 ^ (2 * (leafLevel - 0) + 1) :=
  face_eq_div c

theorem At.face_eq (h : c.At (2 * m) q) (hm : m ≤ leafLevel) : c.face = q / 4 ^ (leafLevel - m) := by
  rw [face_eq_word_div, h.word_div (by omega), Nat.sub_zero]

theorem face_root (h : face < faceCount) : (root face).face = face := by
  rw [(root_at h).face_eq (Nat.le_refl _), Nat.sub_self, Nat.pow_zero, Nat.div_one]

theorem eq_root (hc : c.isValid = true) (hl : c.level = 0) : c = root c.face := by
  obtain ⟨m, q, hm, hat, _⟩ := isValid_iff.mp hc
  obtain rfl : m = leafLevel := by
    rw [hat.level_eq] at hl
    exact Nat.le_antisymm hm (Nat.sub_eq_zero_iff_le.mp hl)
  have hface : c.face = q := by
    rw [hat.face_eq hm, Nat.sub_self, Nat.pow_zero, Nat.div_one]
  exact hat.eq (hface ▸ root_at (face_lt hc))

/-! ## One step down -/

theorem isLeaf_iff_level (hc : c.isValid = true) : c.isLeaf = true ↔ c.level = leafLevel := by
  have hsum := level_add_cutsLeft hc
  rw [isLeaf_iff_cutsLeft hc]
  omega

theorem branch_eq (c : Cell) (l : Nat) :
    c.branch l = c.word.toNat / 2 ^ (2 * (leafLevel - l) + 1) % 4 := by
  rw [branch, Nat.shiftRight_eq_div_pow]

/-- The last branch is told by the last bits of the number. -/
theorem At.branch_eq_mod (h : c.At (2 * m) q) (hl : l + m = leafLevel) : c.branch l = q % 4 := by
  rw [branch_eq, h.word_div hl.le, show leafLevel - l - m = 0 by omega, Nat.pow_zero, Nat.div_one]

theorem branch_lt (c : Cell) (l : Nat) : c.branch l < 4 :=
  Nat.mod_lt _ (by omega)

section Child

variable (hc : c.isValid = true) (hl : ¬c.isLeaf = true) (hi : i < 4)
include hc hl hi

theorem level_child : (c.child i).level = c.level + 1 := by
  have hcut := cutsLeft_child hc hl hi
  have hsum := level_add_cutsLeft hc
  have hsum' := level_add_cutsLeft (isValid_child hc hl hi)
  omega

theorem word_child_div (h : l ≤ c.level) :
    (c.child i).word.toNat / 2 ^ (2 * (leafLevel - l) + 1) =
      c.word.toNat / 2 ^ (2 * (leafLevel - l) + 1) := by
  obtain ⟨m, q, hm, hat, _⟩ := exists_at_of_not_isLeaf hc hl
  rw [At.level_eq (m := m + 1) hat] at h
  obtain ⟨t, ht⟩ : ∃ t, leafLevel = l + m + (t + 1) := ⟨leafLevel - (m + 1) - l, by
    rw [leafLevel] at h ⊢
    omega⟩
  rw [(hat.child hi).word_div (by omega), At.word_div (m := m + 1) hat (by omega),
    show leafLevel - l - m = t + 1 by omega, show leafLevel - l - (m + 1) = t by omega,
    Nat.pow_succ', ← Nat.div_div_eq_div_mul, show (4 * q + i) / 4 = q by omega]

theorem face_child : (c.child i).face = c.face := by
  rw [face_eq_word_div, word_child_div hc hl hi (Nat.zero_le _), face_eq_word_div]

theorem branch_child (h : l ≤ c.level) : (c.child i).branch l = c.branch l := by
  rw [branch_eq, word_child_div hc hl hi h, branch_eq]

theorem branch_child_last : (c.child i).branch (c.level + 1) = i := by
  obtain ⟨m, q, hm, hat, _⟩ := exists_at_of_not_isLeaf hc hl
  have hsum : c.level + 1 + m = leafLevel := by
    rw [At.level_eq (m := m + 1) hat, leafLevel]
    omega
  rw [(hat.child hi).branch_eq_mod hsum]
  omega

theorem path_child : (c.child i).path = c.path ++ [i] := by
  rw [path, path, level_child hc hl hi, List.range_succ, List.map_append, List.map_singleton,
    branch_child_last hc hl hi]
  congr 1
  refine List.map_congr_left fun l hlevel => ?_
  exact branch_child hc hl hi (List.mem_range.mp hlevel)

end Child

/-- The last branch of a cell tells which child of its parent it is. -/
theorem child_parent (hc : c.isValid = true) : c.parent.child (c.branch c.level) = c := by
  obtain ⟨m, q, hm, hat, _⟩ := isValid_iff.mp hc
  have hpar : c.parent.At (2 * m + 2) (q / 4) := hat.parent (by omega)
  have hchild := hpar.child (i := q % 4) (by omega)
  rw [Nat.div_add_mod] at hchild
  rw [hat.branch_eq_mod (by rw [hat.level_eq]; exact Nat.sub_add_cancel hm)]
  exact hchild.eq hat

/-! ## Paths -/

theorem length_path (c : Cell) : c.path.length = c.level := by
  rw [path, List.length_map, List.length_range]

theorem path_lt (c : Cell) : ∀ k ∈ c.path, k < 4 := by
  intro k hk
  obtain ⟨l, _, rfl⟩ := List.mem_map.mp hk
  exact branch_lt c (l + 1)

theorem path_root (h : face < faceCount) : (root face).path = [] :=
  List.eq_nil_of_length_eq_zero ((length_path _).trans (level_root h))

theorem ofFace_eq_ok_iff : ofFace face = .ok c ↔ face < faceCount ∧ root face = c := by
  rw [ofFace, checkFace]
  by_cases h : face < faceCount
  · simp [h]
  · simp [h]

/-- The path leads from the face to the cell. -/
inductive Leads (face : Nat) : List Nat → Cell → Prop
  | root {c : Cell} (h : ofFace face = .ok c) : Leads face [] c
  | child {path : List Nat} {c d : Cell} {k : Nat} (h : Leads face path c) (hk : c.child? k = .ok d) :
      Leads face (path ++ [k]) d

/-- **What a path leads to** is a cell that tells the path. -/
theorem Leads.spec (h : Leads face path c) :
    c.isValid = true ∧ face = c.face ∧ path = c.path := by
  induction h with
  | root h =>
    obtain ⟨hface, rfl⟩ := ofFace_eq_ok_iff.mp h
    exact ⟨isValid_root hface, (face_root hface).symm, (path_root hface).symm⟩
  | child _ hk ih =>
    obtain ⟨hc, rfl, rfl⟩ := ih
    obtain ⟨hl, hi, rfl⟩ := child?_eq_ok_iff.mp hk
    exact ⟨isValid_child hc hl hi, (face_child hc hl hi).symm, (path_child hc hl hi).symm⟩

theorem Leads.eq_ofPath (h : Leads face path c) : c = ofPath face path := by
  induction h with
  | root h => exact (ofFace_eq_ok_iff.mp h).2.symm
  | child _ hk ih => rw [ofPath, List.foldl_concat, ← ofPath, ← ih, (child?_eq_ok_iff.mp hk).2.2]

theorem leads_self (hc : c.isValid = true) : Leads c.face c.path c := by
  -- upwards from the cell to its face
  induction hn : c.level generalizing c with
  | zero =>
    have hroot := eq_root hc hn
    have hpath : c.path = [] := List.eq_nil_of_length_eq_zero ((length_path c).trans hn)
    rw [hpath]
    exact .root (ofFace_eq_ok_iff.mpr ⟨face_lt hc, hroot.symm⟩)
  | succ n ih =>
    obtain ⟨hv, hlevel⟩ := isValid_parent hc (by omega)
    have hl : ¬c.parent.isLeaf = true := by
      rw [isLeaf_iff_level hv]
      have := level_le c
      omega
    have hi := branch_lt c c.level
    have hchild := child_parent hc
    have hface := face_child hv hl hi
    have hpath := path_child hv hl hi
    rw [hchild] at hface hpath
    rw [hface, hpath]
    exact (ih hv (by omega)).child (child?_eq_ok_iff.mpr ⟨hl, hi, hchild⟩)

theorem leads_iff : Leads face path c ↔ c.isValid = true ∧ face = c.face ∧ path = c.path := by
  constructor
  · exact Leads.spec
  · rintro ⟨hc, rfl, rfl⟩
    exact leads_self hc

theorem exists_leads (hface : face < faceCount) (hlen : path.length ≤ leafLevel)
    (hpath : ∀ k ∈ path, k < 4) : ∃ c, Leads face path c := by
  induction path using List.reverseRecOn with
  | nil => exact ⟨_, .root (ofFace_eq_ok_iff.mpr ⟨hface, rfl⟩)⟩
  | append_singleton path k ih =>
    rw [List.length_append, List.length_singleton] at hlen
    obtain ⟨c, hc⟩ := ih (by omega) fun j hj => hpath j (List.mem_append_left _ hj)
    obtain ⟨hv, -, rfl⟩ := hc.spec
    rw [length_path] at hlen
    have hl : ¬c.isLeaf = true := by
      rw [isLeaf_iff_level hv]
      omega
    have hk : k < 4 := hpath k (List.mem_append_right _ (List.mem_singleton_self k))
    exact ⟨_, hc.child (child?_eq_ok_iff.mpr ⟨hl, hk, rfl⟩)⟩

theorem exists_leads_iff : (∃ c, Leads face path c) ↔
    face < faceCount ∧ path.length ≤ leafLevel ∧ ∀ k ∈ path, k < 4 := by
  constructor
  · rintro ⟨c, h⟩
    obtain ⟨hv, rfl, rfl⟩ := h.spec
    exact ⟨face_lt hv, (length_path c).trans_le (level_le c), path_lt c⟩
  · rintro ⟨hface, hlen, hpath⟩
    exact exists_leads hface hlen hpath

theorem branch?_eq_ok {k : Nat} (hk : k < c.path.length) :
    c.branch? (k + 1) = .ok c.path[k] := by
  rw [length_path] at hk
  rw [branch?, if_pos ⟨by omega, hk⟩]
  simp [path]

/-! ## Texts -/

theorem pathText_eq (hc : c.isValid = true) :
    c.pathText = String.ofList (Hex.digit c.face :: '/' :: c.path.map Hex.digit) :=
  if_pos hc

theorem lt_of_mem_face_cons_path (hc : c.isValid = true) : ∀ k ∈ c.face :: c.path, k < 16 := by
  have hface : c.face < 6 := face_lt hc
  refine List.forall_mem_cons.mpr ⟨by omega, fun k hk => ?_⟩
  have := path_lt c k hk
  omega

/-- A digit is enough for a face and for each child. -/
theorem pathText_eq_digitChar (hc : c.isValid = true) :
    c.pathText = String.ofList (Nat.digitChar c.face :: '/' :: c.path.map Nat.digitChar) := by
  obtain ⟨hface, hpath⟩ := List.forall_mem_cons.mp (lt_of_mem_face_cons_path hc)
  rw [pathText_eq hc, Hex.digit_eq_digitChar _ hface,
    List.map_congr_left fun k hk => Hex.digit_eq_digitChar k (hpath k hk)]

/-- **The text tells the cell.** -/
theorem eq_of_pathText_eq (hc : c.isValid = true) (hd : d.isValid = true)
    (h : c.pathText = d.pathText) : c = d := by
  rw [pathText_eq hc, pathText_eq hd, String.ofList_inj, List.cons.injEq, List.cons.injEq] at h
  obtain ⟨hface, -, hpath⟩ := h
  have hsame : c.face :: c.path = d.face :: d.path :=
    Hex.map_digit_inj (lt_of_mem_face_cons_path hc) (lt_of_mem_face_cons_path hd)
      (by rw [List.map_cons, List.map_cons, hface, hpath])
  obtain ⟨hface, hpath⟩ := List.cons.inj hsame
  rw [(leads_self hc).eq_ofPath, (leads_self hd).eq_ofPath, hface, hpath]

/-- **The cells are the ends of the paths** of at most thirty children from a face.  A cell has one
path, which its level, its face, its branches and its text tell. -/
theorem cells_are_paths :
    (∀ c : Cell, c.isValid = true ↔ ∃ face path, face < faceCount ∧ path.length ≤ leafLevel ∧
      (∀ k ∈ path, k < 4) ∧ Leads face path c) ∧
    (∀ face path, (∃ c, Leads face path c) ↔
      face < faceCount ∧ path.length ≤ leafLevel ∧ ∀ k ∈ path, k < 4) ∧
    (∀ c face path, Leads face path c →
      (∀ face' path', Leads face' path' c → face' = face ∧ path' = path) ∧
      c.face = face ∧ c.level = path.length ∧
      (∀ k (hk : k < path.length), c.branch? (k + 1) = .ok path[k]) ∧
      c.pathText = String.ofList (Nat.digitChar face :: '/' :: path.map Nat.digitChar)) ∧
    ∀ c d : Cell, c.isValid = true → d.isValid = true → c.pathText = d.pathText → c = d := by
  refine ⟨fun c => ?_, fun _ _ => exists_leads_iff, fun c face path h => ?_,
    fun _ _ => eq_of_pathText_eq⟩
  · constructor
    · intro hc
      have h := leads_iff.mpr ⟨hc, rfl, rfl⟩
      obtain ⟨hface, hlen, hpath⟩ := exists_leads_iff.mp ⟨c, h⟩
      exact ⟨_, _, hface, hlen, hpath, h⟩
    · rintro ⟨_, _, _, _, _, h⟩
      exact (leads_iff.mp h).1
  · obtain ⟨hc, rfl, rfl⟩ := leads_iff.mp h
    exact ⟨fun _ _ h' => (leads_iff.mp h').2, rfl, (length_path c).symm, fun _ => branch?_eq_ok,
      pathText_eq_digitChar hc⟩

/-- The first child of the third child of the face 3. -/
theorem cells_are_paths_grandchild :
    (∃ d, Leads 3 [2, 0] d) ∧ (⟨0x7100000000000000⟩ : Cell).isValid = true ∧
      (∀ face path, Leads face path ⟨0x7100000000000000⟩ → face = 3 ∧ path = [2, 0]) ∧
      (⟨0x7100000000000000⟩ : Cell).pathText = "3/20" ∧
      ∀ d : Cell, d.isValid = true → d.pathText = "3/20" → d = ⟨0x7100000000000000⟩ := by
  have h : Leads 3 ([] ++ [2] ++ [0]) ⟨0x7100000000000000⟩ := ((Leads.root rfl).child rfl).child rfl
  obtain ⟨hvalid, hreach, hpath, htext⟩ := cells_are_paths
  have hc := (hvalid _).mpr ⟨3, _, by decide, by decide, by decide, h⟩
  obtain ⟨hunique, _, _, _, hshown⟩ := hpath _ _ _ h
  have hshown := hshown.trans (by decide : _ = "3/20")
  exact ⟨(hreach 3 [2, 0]).mpr (by decide), hc, hunique, hshown,
    fun d hd hsame => htext d _ hd hc (hsame.trans hshown.symm)⟩

end QuadSphere.Cell
