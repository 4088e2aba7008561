import QuadSphere.Cover.Algebra
import QuadSphere.Proofs.Canonical
import QuadSphere.Proofs.Search

/-!
# Intersection

Two separated lists are walked through side by side.  The two cells in front are nested, and then
the inner one belongs to the intersection, or one of them ends before the other begins, and then it
is skipped with the cells behind it that also end too soon.

* `skip?_spec`: nothing is skipped that reaches the other list.
* `meet?_step`, `meet?_spec`: a step of the walk, and what the whole walk finds.
* `Common.isCanonical`: the cells found form no family, whichever list they come from.
* `intersection_of_normal`: the intersection of two covers.
-/

namespace QuadSphere

open Cell

/-- The cells of `zs` are those of `xs` and `ys` that lie in a cell of the other list. -/
structure Common (xs ys zs : List Cell) : Prop where
  pairwise : zs.Pairwise Cell.Before
  leaves : ∀ u, HasLeaf zs u ↔ HasLeaf xs u ∧ HasLeaf ys u
  mem : ∀ z ∈ zs, z ∈ xs ∨ z ∈ ys
  left : ∀ z ∈ zs, ∃ x ∈ xs, x.Covers z
  right : ∀ z ∈ zs, ∃ y ∈ ys, y.Covers z

namespace Common

variable {xs ys zs front : List Cell} {x y : Cell}

theorem symm (h : Common xs ys zs) : Common ys xs zs where
  pairwise := h.pairwise
  leaves u := (h.leaves u).trans And.comm
  mem z hz := (h.mem z hz).symm
  left := h.right
  right := h.left

theorem nil (ys : List Cell) : Common [] ys [] := by
  refine ⟨List.Pairwise.nil, fun u => ?_, ?_, ?_, ?_⟩
  · simp [hasLeaf_nil]
  all_goals simp

theorem take (h : Common xs (y :: ys) zs) (hs : Separated (x :: xs)) (hy : y ≠ null)
    (hcov : y.Covers x) : Common (x :: xs) (y :: ys) (x :: zs) := by
  constructor
  · rw [List.pairwise_cons]
    refine ⟨?_, h.pairwise⟩
    intro z hz
    obtain ⟨x', hx', hcov'⟩ := h.left z hz
    exact Nat.le_trans (List.rel_of_pairwise_cons hs.pairwise hx') hcov'.1
  · intro u
    rw [hasLeaf_cons, hasLeaf_cons, h.leaves]
    constructor
    · rintro (hu | ⟨hu, hu'⟩)
      · refine ⟨Or.inl hu, ?_⟩
        rw [hasLeaf_cons]
        exact Or.inl ((covers_iff hy hs.head).mp hcov u hu)
      · exact ⟨Or.inr hu, hu'⟩
    · rintro ⟨hu | hu, hu'⟩
      · exact Or.inl hu
      · exact Or.inr ⟨hu, hu'⟩
  · intro z hz
    rcases List.mem_cons.mp hz with rfl | hz
    · exact Or.inl List.mem_cons_self
    · exact (h.mem z hz).imp_left (List.mem_cons_of_mem x)
  · intro z hz
    rcases List.mem_cons.mp hz with rfl | hz
    · exact ⟨z, List.mem_cons_self, Covers.refl z⟩
    · obtain ⟨x', hx', hcov'⟩ := h.left z hz
      exact ⟨x', List.mem_cons_of_mem x hx', hcov'⟩
  · intro z hz
    rcases List.mem_cons.mp hz with rfl | hz
    · exact ⟨y, List.mem_cons_self, hcov⟩
    · exact h.right z hz

theorem skip (h : Common (x :: xs) ys zs) (hs : Separated (x :: xs)) (hs' : Separated (front ++ ys))
    (hf : ∀ e ∈ front, e.Before x) : Common (x :: xs) (front ++ ys) zs := by
  refine ⟨h.pairwise, fun u => ?_, ?_, h.left, ?_⟩
  · rw [h.leaves, hasLeaf_append]
    constructor
    · rintro ⟨hu, hu'⟩
      exact ⟨hu, Or.inr hu'⟩
    · rintro ⟨hu, ⟨e, he, hue⟩ | hu'⟩
      · obtain ⟨d, hd, hud⟩ := hu
        have hed := hs.before_of_mem (hf e he) hd
        have he0 := hs'.ne_null e (List.mem_append_left ys he)
        exact absurd hud (hed.apart he0 (hs.ne_null d hd) u hue)
      · exact ⟨hu, hu'⟩
  · intro z hz
    exact (h.mem z hz).imp_right (List.mem_append_right front)
  · intro z hz
    obtain ⟨y, hy, hcov⟩ := h.right z hz
    exact ⟨y, List.mem_append_right front hy, hcov⟩

/-- **No family stands in an intersection.**  The parent would be covered by a cell of each list,
and the first child is one of these cells, whichever list it comes from. -/
theorem isCanonical (h : Common xs ys zs) (hx : IsCanonical xs) (hy : IsCanonical ys) :
    IsCanonical zs := by
  have hv : ∀ z ∈ zs, z.isValid = true := by
    intro z hz
    rcases h.mem z hz with hz | hz
    · exact hx.valid z hz
    · exact hy.valid z hz
  have hs : Separated zs := ⟨ne_null_of_valid hv, h.pairwise⟩
  refine ⟨hv, hs.isNormal fun p hp hl => ?_⟩
  by_contra hall
  push Not at hall
  have hsub : ∀ u, p.HasLeaf u → HasLeaf xs u ∧ HasLeaf ys u := by
    intro u hu
    obtain ⟨i, hi, hu⟩ := (hasLeaf_iff_exists_child hp hl u).mp hu
    exact (h.leaves u).mp ⟨p.child i, hall i hi, hu⟩
  rcases h.mem _ (hall 0 (by omega)) with hmem | hmem
  · exact hx.child_not_mem hp hl (by omega) (fun u hu => (hsub u hu).1) hmem
  · exact hy.child_not_mem hp hl (by omega) (fun u hu => (hsub u hu).2) hmem

end Common

namespace Cover

variable {xs ys : List Cell} {x y : Cell}

/-! ## Two cells in front -/

section Front

variable (hx : x ≠ null) (hy : y ≠ null)
include hx hy

theorem before_of_start_lt (hs : y.start < x.start) (hle : ¬x ≤ y.lastLeaf) : y.Before x := by
  have hstop := start_le_stop x
  have hw := start_le_word x
  rw [le_lastLeaf_iff hy hx (by omega)] at hle
  rcases covers_or_before hy hx with h | h | h | h
  · exact absurd h hle
  · exact absurd h.1 (by omega)
  · exact h
  · rw [Before] at h
    omega

theorem covers_of_start_eq (hs : x.start = y.start) (hle : x ≤ y) : y.Covers x := by
  have := start_add_marker hx
  have := start_add_marker hy
  have := word_add_marker x
  have := word_add_marker y
  rw [le_iff] at hle
  exact ⟨by omega, by omega⟩

end Front

/-! ## Skipping -/

/-- The place that bisection finds behind `y`: `last` is the last cell whose word is before the
range of `x`. -/
theorem exists_last (hs : Separated (y :: ys)) (hx : x ≠ null) (hyx : y.Before x) :
    ∃ front last rest, y :: ys = front ++ last :: rest ∧
      (y :: ys).drop (bisect (· < x.firstLeaf) ys) = last :: rest ∧ last.word.toNat ≤ x.start := by
  obtain ⟨as, bs, rfl, hlt, hge⟩ :=
    exists_split_lt hs.tail.increasing x.firstLeaf
  obtain ⟨front, last, hlast⟩ :=
    (List.eq_nil_or_concat' (y :: as)).resolve_left (List.cons_ne_nil y as)
  have hall : y :: (as ++ bs) = front ++ last :: bs := by
    rw [← List.cons_append, hlast, List.append_assoc]
    rfl
  have hlen : front.length = as.length := by
    simpa using congrArg List.length hlast.symm
  refine ⟨front, last, bs, hall, ?_, ?_⟩
  · rw [bisect_lt_append hlt hge, hall, ← hlen, List.drop_left]
  · have hmem : last ∈ y :: as := hlast ▸ List.mem_append_right front List.mem_cons_self
    rcases List.mem_cons.mp hmem with rfl | hmem
    · have := word_add_marker last
      rw [Before] at hyx
      omega
    · have h := hlt last hmem
      rw [Cell.lt_iff, toNat_firstLeaf hx] at h
      omega

/-- **Skipping loses nothing.**  The cells that are dropped end before `x` begins. -/
theorem skip?_spec (hs : Separated (y :: ys)) (hx : x ≠ null) (hyx : y.Before x) :
    ∃ front rest, skip? y ys x = .ok rest ∧ y :: ys = front ++ rest ∧ ∀ e ∈ front, e.Before x := by
  obtain ⟨front, last, rest, hall, hdrop, hword⟩ := exists_last hs hx hyx
  have hlast : last ≠ null :=
    hs.ne_null last (hall ▸ List.mem_append_right front List.mem_cons_self)
  have hfront : ∀ e ∈ front, e.Before x := by
    intro e he
    have hsl := start_le_word last
    have hel := (List.pairwise_append.mp (hall ▸ hs.pairwise)).2.2 e he last List.mem_cons_self
    rw [Before] at hel ⊢
    omega
  rw [skip?, hdrop]
  simp only [lastLeaf?_eq_ok hlast, ok_bind, pure_eq_ok]
  by_cases hreach : x ≤ last.lastLeaf
  · rw [if_pos hreach]
    exact ⟨front, last :: rest, rfl, hall, hfront⟩
  · rw [if_neg hreach]
    refine ⟨front ++ [last], rest, rfl, by rw [hall, List.append_assoc]; rfl, ?_⟩
    have hb := range_bounds hlast
    have hbefore := before_of_start_lt hx hlast (by omega) hreach
    intro e he
    rcases List.mem_append.mp he with he | he
    · exact hfront e he
    · rw [List.mem_singleton.mp he]
      exact hbefore

/-! ## The walk -/

/-- A step of the walk from the lists `xs` and `ys` to `xs'` and `ys'`, which finds the cells
`out`. -/
structure Step (xs ys out xs' ys' : List Cell) : Prop where
  left : Separated xs'
  right : Separated ys'
  shorter : xs'.length + ys'.length < xs.length + ys.length
  common : ∀ zs, Common xs' ys' zs → Common xs ys (out ++ zs)

theorem Step.symm {out xs' ys' : List Cell} (h : Step xs ys out xs' ys') :
    Step ys xs out ys' xs' := by
  refine ⟨h.right, h.left, ?_, fun zs hzs => (h.common zs hzs.symm).symm⟩
  rw [Nat.add_comm ys'.length, Nat.add_comm ys.length]
  exact h.shorter

theorem map_nil_append (r : Except Fault (List Cell)) : r.map ([] ++ ·) = r := by
  cases r <;> rfl

section Step

variable (hsx : Separated (x :: xs)) (hsy : Separated (y :: ys))
include hsx hsy

theorem Step.take (hcov : y.Covers x) : Step (x :: xs) (y :: ys) [x] xs (y :: ys) :=
  ⟨hsx.tail, hsy, by simp, fun _ hzs => hzs.take hsx hsy.head hcov⟩

theorem Step.skip (hstart : y.start < x.start) (hreach : ¬x ≤ y.lastLeaf) :
    ∃ rest, skip? y ys x = .ok rest ∧ Step (x :: xs) (y :: ys) [] (x :: xs) rest := by
  have hbefore := before_of_start_lt hsx.head hsy.head hstart hreach
  obtain ⟨front, rest, hskip, hall, hfront⟩ := skip?_spec hsy hsx.head hbefore
  have hsall : Separated (front ++ rest) := hall ▸ hsy
  refine ⟨rest, hskip, hsx, hsall.of_append, ?_, fun zs hzs => ?_⟩
  · have hlen := length_le_of_skip? hreach hskip
    simp only [List.length_cons]
    omega
  · rw [hall]
    exact hzs.skip hsx hsall hfront

theorem meet?_step :
    ∃ out xs' ys', Step (x :: xs) (y :: ys) out xs' ys' ∧
      meet? (x :: xs) (y :: ys) = (meet? xs' ys').map (out ++ ·) := by
  have hx := hsx.head
  have hy := hsy.head
  have hwx := start_le_word x
  have hwy := start_le_word y
  rw [meet?]
  simp only [firstLeaf?_eq_ok hx, firstLeaf?_eq_ok hy, ok_bind,
    firstLeaf_lt_firstLeaf_iff hx hy, firstLeaf_lt_firstLeaf_iff hy hx]
  by_cases hyx : y.start < x.start
  · rw [if_pos hyx]
    by_cases hreach : x ≤ y.lastLeaf
    · have hcov := (le_lastLeaf_iff hy hx (Nat.lt_of_lt_of_le hyx hwx)).mp hreach
      rw [dif_pos hreach]
      exact ⟨[x], xs, y :: ys, Step.take hsx hsy hcov, rfl⟩
    · obtain ⟨rest, hskip, hstep⟩ := Step.skip hsx hsy hyx hreach
      refine ⟨[], x :: xs, rest, hstep, ?_⟩
      rw [dif_neg hreach]
      split
      · next he => exact absurd (hskip.symm.trans he) (by simp)
      · next hr => rw [Except.ok.inj (hr.symm.trans hskip), map_nil_append]
  rw [if_neg hyx]
  by_cases hxy : x.start < y.start
  · rw [if_pos hxy]
    by_cases hreach : y ≤ x.lastLeaf
    · have hcov := (le_lastLeaf_iff hx hy (Nat.lt_of_lt_of_le hxy hwy)).mp hreach
      rw [dif_pos hreach]
      exact ⟨[y], x :: xs, ys, (Step.take hsy hsx hcov).symm, rfl⟩
    · obtain ⟨rest, hskip, hstep⟩ := Step.skip hsy hsx hxy hreach
      refine ⟨[], rest, y :: ys, hstep.symm, ?_⟩
      rw [dif_neg hreach]
      split
      · next he => exact absurd (hskip.symm.trans he) (by simp)
      · next hr => rw [Except.ok.inj (hr.symm.trans hskip), map_nil_append]
  rw [if_neg hxy]
  have hstart : x.start = y.start := by omega
  by_cases hlt : x < y
  · have hcov : y.Covers x := by
      rw [Cell.lt_iff] at hlt
      exact covers_of_start_eq hx hy hstart (le_iff.mpr (Nat.le_of_lt hlt))
    rw [if_pos hlt]
    exact ⟨[x], xs, y :: ys, Step.take hsx hsy hcov, rfl⟩
  · have hcov : x.Covers y := by
      rw [Cell.lt_iff] at hlt
      exact covers_of_start_eq hy hx hstart.symm (le_iff.mpr (Nat.le_of_not_lt hlt))
    rw [if_neg hlt]
    exact ⟨[y], x :: xs, ys, (Step.take hsy hsx hcov).symm, rfl⟩

end Step

/-- **The walk finds the intersection**, and never looks behind the end of a list. -/
theorem meet?_spec (hsx : Separated xs) (hsy : Separated ys) :
    ∃ zs, meet? xs ys = .ok zs ∧ Common xs ys zs := by
  -- each step leaves shorter lists
  induction hn : xs.length + ys.length using Nat.strong_induction_on generalizing xs ys with
  | _ n ih =>
    subst hn
    cases xs with
    | nil => exact ⟨[], by rw [meet?]; simp, Common.nil ys⟩
    | cons x xs =>
      cases ys with
      | nil => exact ⟨[], by rw [meet?]; simp, (Common.nil (x :: xs)).symm⟩
      | cons y ys =>
        obtain ⟨out, xs', ys', hstep, heq⟩ := meet?_step hsx hsy
        obtain ⟨zs, hzs, hcommon⟩ := ih _ hstep.shorter hstep.left hstep.right rfl
        exact ⟨out ++ zs, by rw [heq, hzs]; rfl, hstep.common zs hcommon⟩

/-- **The intersection of two covers.**  It is a normal cover of the common leaves, as the walk
leaves it. -/
theorem intersection_of_normal (A B : Cover) (hA : ∀ c ∈ A.cells, c.isValid = true)
    (hB : ∀ c ∈ B.cells, c.isValid = true) (hnA : A.isNormal? = .ok true)
    (hnB : B.isNormal? = .ok true) :
    ∃ C, intersection A B = .ok C ∧ meet? A.cells B.cells = .ok C.cells ∧
      C.isNormal? = .ok true ∧ (∀ c ∈ C.cells, c.isValid = true) ∧
      ∀ x, HasLeaf C.cells x ↔ HasLeaf A.cells x ∧ HasLeaf B.cells x := by
  have hcanA : IsCanonical A.cells := isCanonical_iff.mpr ⟨hA, hnA⟩
  have hcanB : IsCanonical B.cells := isCanonical_iff.mpr ⟨hB, hnB⟩
  obtain ⟨zs, hzs, hcommon⟩ := meet?_spec hcanA.separated hcanB.separated
  have hcan := hcommon.isCanonical hcanA hcanB
  have hnormal : isNormal? ⟨zs⟩ = .ok true := IsCanonical.isNormal?_eq ⟨zs⟩ hcan
  refine ⟨⟨zs⟩, ?_, hzs, hnormal, hcan.valid, hcommon.leaves⟩
  rw [intersection, requireNormal_eq_ok hnA, requireNormal_eq_ok hnB]
  simp only [ok_bind, hzs, requireNormal_eq_ok hnormal, pure_eq_ok]

/-- Three children of one cell, and one of them with a part of another. -/
theorem intersection_of_normal_children :
    let A : Cover := ⟨[⟨0x4900000000000000⟩, ⟨0x4b00000000000000⟩, ⟨0x4d00000000000000⟩]⟩
    let B : Cover := ⟨[⟨0x4900000000000000⟩, ⟨0x4b40000000000000⟩]⟩
    (∀ c ∈ A.cells, c.isValid = true) ∧ (∀ c ∈ B.cells, c.isValid = true) ∧
      A.isNormal? = .ok true ∧ B.isNormal? = .ok true ∧
      ∃ C, intersection A B = .ok C ∧ meet? A.cells B.cells = .ok C.cells ∧
        C.isNormal? = .ok true ∧ (∀ c ∈ C.cells, c.isValid = true) ∧
        ∀ x, HasLeaf C.cells x ↔ HasLeaf A.cells x ∧ HasLeaf B.cells x := by
  intro A B
  have hA : ∀ c ∈ A.cells, c.isValid = true := by decide
  have hB : ∀ c ∈ B.cells, c.isValid = true := by decide
  exact ⟨hA, hB, rfl, rfl, intersection_of_normal A B hA hB rfl rfl⟩

end Cover

end QuadSphere
