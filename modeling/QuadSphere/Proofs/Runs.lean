import QuadSphere.Proofs.LeafCount
import QuadSphere.Proofs.Tiles

/-!
# Runs of leaves

A run of leaves is given by its first leaf and by its last one, or by what comes after that.  The
leaves are numbered along the curve, and what comes after the last leaf of all has the next number,
so a run goes from one number to another, whatever faces lie between.  It is refused, or its tiles
are a canonical cover of it.

A run up to a last leaf is checked like one before a limit, so the end of the curve passes for a
last leaf at first.  It is refused only when what comes after it is checked in turn, and the refusal
then names that word.

* `checkLeaf_eq_ok_iff_at`: the words that can be given are those with a number.
* `ofLeavesBefore_of_checkLeaf`, `ofLeaves_of_isLeaf`: a run that is not refused is laid out.
* `ofLeavesBefore_spec`, `ofLeaves_spec`: any other one is refused.
* `runs_laid_out`: runs are laid out exactly, with the fewest cells.
* `refusals_of_runs`: which refusal any two words get.
-/

namespace QuadSphere.Cell

/-- The word is a leaf of one of the faces. -/
def IsFaceLeaf (c : Cell) : Prop :=
  c.isValid = true ∧ c.isLeaf = true

instance (c : Cell) : Decidable c.IsFaceLeaf :=
  inferInstanceAs (Decidable (_ ∧ _))

end QuadSphere.Cell

namespace QuadSphere.Cover

open Cell

variable {c first last limit : Cell} {A : Cover} {a b : Nat} {r : Refusal}

/-! ## The ends of a run -/

theorem end?_leafLevel : end? leafLevel = .ok leafEnd := rfl

theorem leafEnd_at : leafEnd.At 0 (3 * 2 ^ 61) := by
  rw [At]
  decide

theorem checkLeaf_eq_ok_iff (c : Cell) :
    checkLeaf c = .ok () ↔ c.isValid = true ∧ c.isLeaf = true ∨ c = leafEnd := by
  have hend : leafEnd.isLeaf = true := rfl
  rw [checkLeaf]
  by_cases h : (c.isLeaf && (c.isValid || c = leafEnd)) = true
  · rw [if_pos h]
    rw [Bool.and_eq_true, Bool.or_eq_true, decide_eq_true_eq] at h
    exact iff_of_true rfl (h.2.imp_left fun hv => ⟨hv, h.1⟩)
  · rw [if_neg h]
    refine iff_of_false (by simp) fun hno => h ?_
    rw [Bool.and_eq_true, Bool.or_eq_true, decide_eq_true_eq]
    rcases hno with ⟨hv, hl⟩ | rfl
    · exact ⟨hl, Or.inl hv⟩
    · exact ⟨hend, Or.inr rfl⟩

theorem checkLeaf_eq_ok_or_error (c : Cell) :
    checkLeaf c = .ok () ∨ checkLeaf c = .error (.notLeaf c.word) := by
  rw [checkLeaf]
  split
  · exact Or.inl rfl
  · exact Or.inr rfl

/-- The words that can be given are those with a number, up to that of the end. -/
theorem checkLeaf_eq_ok_iff_at : checkLeaf c = .ok () ↔ ∃ e, c.At 0 e ∧ 2 * e ≤ 6 * 2 ^ 61 := by
  rw [checkLeaf_eq_ok_iff]
  constructor
  · rintro (⟨hv, hl⟩ | rfl)
    · obtain ⟨m, q, _, hat, hstop⟩ := isValid_iff.mp hv
      obtain rfl : m = 0 := by
        have := hat.isLeaf_iff.mp hl
        omega
      have hbound := hat.stop_eq
      exact ⟨q, hat, by omega⟩
    · exact ⟨_, leafEnd_at, by decide⟩
  · rintro ⟨e, hat, he⟩
    have hstop := hat.stop_eq
    rcases Nat.lt_or_ge (2 * e) (6 * 2 ^ 61) with hlt | hge
    · exact Or.inl ⟨isValid_iff.mpr ⟨0, e, by omega, hat, by omega⟩, hat.isLeaf_iff.mpr rfl⟩
    · obtain rfl : e = 3 * 2 ^ 61 := by omega
      exact Or.inr (hat.eq leafEnd_at)

theorem checkRun_eq_ok (hfirst : checkLeaf first = .ok ()) (hlast : checkLeaf last = .ok ())
    (hle : first ≤ last) : checkRun first last = .ok () := by
  have hnot : ¬last < first := by
    rw [Cell.lt_iff]
    exact Nat.not_lt_of_le (le_iff.mp hle)
  rw [checkRun, hfirst, hlast]
  simp only [ok_bind, if_neg hnot, pure_eq_ok]

theorem checkRun_of_first (h : checkLeaf first = .error r) : checkRun first last = .error r := by
  rw [checkRun, h]
  rfl

theorem checkRun_of_last (hfirst : checkLeaf first = .ok ()) (h : checkLeaf last = .error r) :
    checkRun first last = .error r := by
  rw [checkRun, hfirst, h]
  rfl

theorem checkRun_of_lt (hfirst : checkLeaf first = .ok ()) (hlast : checkLeaf last = .ok ())
    (hlt : last < first) : checkRun first last = .error (.invertedRange first.word last.word) := by
  rw [checkRun, hfirst, hlast]
  simp only [ok_bind, if_pos hlt, throw_eq_error]

/-- A run that is not refused goes from one leaf to another one behind it. -/
theorem checkRun_spec (first last : Cell) :
    (checkLeaf first = .ok () ∧ checkLeaf last = .ok () ∧ first ≤ last ∧
      checkRun first last = .ok ()) ∨ ∃ r, checkRun first last = .error r := by
  rcases checkLeaf_eq_ok_or_error first with hfirst | hfirst
  · rcases checkLeaf_eq_ok_or_error last with hlast | hlast
    · by_cases h : last < first
      · exact Or.inr ⟨_, checkRun_of_lt hfirst hlast h⟩
      · have hle : first ≤ last := by
          rw [Cell.lt_iff] at h
          exact le_iff.mpr (Nat.le_of_not_lt h)
        exact Or.inl ⟨hfirst, hlast, hle, checkRun_eq_ok hfirst hlast hle⟩
    · exact Or.inr ⟨_, checkRun_of_last hfirst hlast⟩
  · exact Or.inr ⟨_, checkRun_of_first hfirst⟩

/-! ## Runs that are laid out -/

theorem ofLeavesBefore_of_checkLeaf (hfirst : checkLeaf first = .ok ())
    (hlimit : checkLeaf limit = .ok ()) (hle : first ≤ limit) :
    ∃ A, ofLeavesBefore first limit = .ok A ∧ IsCanonical A.cells ∧
      ∀ x, HasLeaf A.cells x ↔ x.toNat % 2 = 1 ∧ first.word ≤ x ∧ x < limit.word := by
  obtain ⟨a, ha, _⟩ := checkLeaf_eq_ok_iff_at.mp hfirst
  obtain ⟨b, hb, hend⟩ := checkLeaf_eq_ok_iff_at.mp hlimit
  have hfword := ha.word_eq
  have hlword := hb.word_eq
  have hstart := ha.start_eq
  rw [le_iff] at hle
  obtain ⟨cells, hcells, htiled⟩ :=
    tiles_spec (m := 0) ha (Nat.zero_le _) hb hend (by omega)
  refine ⟨⟨cells⟩, ?_, htiled.isCanonical, fun x => ?_⟩
  · rw [ofLeavesBefore, checkRun_eq_ok hfirst hlimit (le_iff.mpr hle), hcells]
    rfl
  · rw [htiled.hasLeaf_iff (by omega), UInt64.le_iff_toNat_le, UInt64.lt_iff_toNat_lt]
    omega

/-- **A run of leaves is refused or laid out.** -/
theorem ofLeavesBefore_spec (first limit : Cell) :
    (∃ r, ofLeavesBefore first limit = .error (.refused r)) ∨
      ∃ A, ofLeavesBefore first limit = .ok A ∧ IsCanonical A.cells ∧
        ∀ x, HasLeaf A.cells x ↔ x.toNat % 2 = 1 ∧ first.word ≤ x ∧ x < limit.word := by
  rcases checkRun_spec first limit with ⟨hfirst, hlimit, hle, _⟩ | ⟨r, hr⟩
  · exact Or.inr (ofLeavesBefore_of_checkLeaf hfirst hlimit hle)
  · exact Or.inl ⟨r, by rw [ofLeavesBefore, hr]; rfl⟩

/-! ## What comes after a leaf -/

theorem toNat_word_next (hlast : checkLeaf last = .ok ()) :
    last.next.word.toNat = last.word.toNat + 2 := by
  obtain ⟨b, hb, hend⟩ := checkLeaf_eq_ok_iff_at.mp hlast
  have hword := hb.word_eq
  have hnext := (hb.next_of_lt (by omega)).word_eq
  omega

theorem lt_next_iff (hlast : checkLeaf last = .ok ()) {x : UInt64} (hodd : x.toNat % 2 = 1) :
    x < last.next.word ↔ x ≤ last.word := by
  obtain ⟨b, hb, _⟩ := checkLeaf_eq_ok_iff_at.mp hlast
  have hword := hb.word_eq
  rw [UInt64.lt_iff_toNat_lt, UInt64.le_iff_toNat_le, toNat_word_next hlast]
  omega

theorem checkLeaf_next (hv : last.isValid = true) (hl : last.isLeaf = true) :
    checkLeaf last.next = .ok () := by
  obtain ⟨m, q, hm, hat, hstop⟩ := isValid_iff.mp hv
  obtain rfl : m = 0 := by
    have := hat.isLeaf_iff.mp hl
    omega
  have hbound := hat.stop_eq
  exact checkLeaf_eq_ok_iff_at.mpr ⟨q + 1, hat.next hv, by omega⟩

theorem ofLeaves_of_isLeaf (hfirst : checkLeaf first = .ok ()) (hv : last.isValid = true)
    (hl : last.isLeaf = true) (hle : first ≤ last) :
    ∃ A, ofLeaves first last = .ok A ∧ IsCanonical A.cells ∧
      ∀ x, HasLeaf A.cells x ↔ x.toNat % 2 = 1 ∧ first.word ≤ x ∧ x ≤ last.word := by
  have hlast : checkLeaf last = .ok () := (checkLeaf_eq_ok_iff last).mpr (Or.inl ⟨hv, hl⟩)
  have hnext := toNat_word_next hlast
  have hle' : first ≤ last.next := by
    rw [le_iff] at hle ⊢
    omega
  obtain ⟨A, hA, hcan, hleaf⟩ := ofLeavesBefore_of_checkLeaf hfirst (checkLeaf_next hv hl) hle'
  refine ⟨A, ?_, hcan, fun x => ?_⟩
  · rw [ofLeaves, checkRun_eq_ok hfirst hlast hle]
    exact hA
  · rw [hleaf]
    exact and_congr_right fun hodd => and_congr_right fun _ => lt_next_iff hlast hodd

theorem ofLeaves_spec (first last : Cell) :
    (∃ r, ofLeaves first last = .error (.refused r)) ∨
      ∃ A, ofLeaves first last = .ok A ∧ IsCanonical A.cells ∧
        ∀ x, HasLeaf A.cells x ↔ x.toNat % 2 = 1 ∧ first.word ≤ x ∧ x ≤ last.word := by
  rcases checkRun_spec first last with ⟨hfirst, hlast, hle, hrun⟩ | ⟨r, hr⟩
  · rcases (checkLeaf_eq_ok_iff last).mp hlast with ⟨hv, hl⟩ | rfl
    · exact Or.inr (ofLeaves_of_isLeaf hfirst hv hl hle)
    · -- there is no leaf at the end, and nothing comes after it
      rcases checkRun_spec first leafEnd.next with ⟨_, hnext, _⟩ | ⟨r, hr⟩
      · exact absurd hnext (by decide)
      · exact Or.inl ⟨r, by rw [ofLeaves, hrun, ofLeavesBefore, hr]; rfl⟩
  · exact Or.inl ⟨r, by rw [ofLeaves, hr]; rfl⟩

/-! ## How many leaves and cells -/

theorem eq_nil_iff_of_run (hA : IsCanonical A.cells) (hfirst : checkLeaf first = .ok ())
    (hle : first ≤ limit)
    (hleaf : ∀ x, HasLeaf A.cells x ↔ x.toNat % 2 = 1 ∧ first.word ≤ x ∧ x < limit.word) :
    A.cells = [] ↔ first = limit := by
  obtain ⟨a, ha, _⟩ := checkLeaf_eq_ok_iff_at.mp hfirst
  have hword := ha.word_eq
  rw [hA.eq_nil_iff]
  constructor
  · intro hno
    have hnot := hno first.word
    rw [hleaf, UInt64.lt_iff_toNat_lt, UInt64.le_iff_toNat_le] at hnot
    rw [le_iff] at hle
    exact ext_toNat (by omega)
  · rintro rfl x hx
    rw [hleaf, UInt64.lt_iff_toNat_lt, UInt64.le_iff_toNat_le] at hx
    omega

theorem leafCount?_of_run (hA : IsCanonical A.cells) (hfirst : checkLeaf first = .ok ())
    (hlast : checkLeaf last = .ok ()) (hle : first ≤ last)
    (hleaf : ∀ x, HasLeaf A.cells x ↔ x.toNat % 2 = 1 ∧ first.word ≤ x ∧ x ≤ last.word) :
    A.leafCount? = .ok ((last.word - first.word) / 2 + 1) := by
  obtain ⟨a, ha, _⟩ := checkLeaf_eq_ok_iff_at.mp hfirst
  obtain ⟨b, hb, hend⟩ := checkLeaf_eq_ok_iff_at.mp hlast
  have hfword := ha.word_eq
  have hlword := hb.word_eq
  have hword := le_iff.mp hle
  obtain ⟨k, hk, hcount⟩ := leafCount?_eq_ncard hA
  have hrun : {x | HasLeaf A.cells x} =
      {x : UInt64 | x.toNat % 2 = 1 ∧ 2 * a < x.toNat ∧ x.toNat < 2 * (b + 1)} := by
    ext x
    rw [Set.mem_ofPred_eq, Set.mem_ofPred_eq, hleaf, UInt64.le_iff_toNat_le,
      UInt64.le_iff_toNat_le]
    omega
  rw [hrun, ncard_odd (by omega)] at hcount
  rw [hk]
  congr 1
  rw [← UInt64.toNat_inj, hcount, UInt64.toNat_add, UInt64.toNat_div,
    UInt64.toNat_sub_of_le _ _ hle, show (2 : UInt64).toNat = 2 from rfl,
    show (1 : UInt64).toNat = 1 from rfl]
  omega

/-- **Runs of leaves are laid out exactly, with the fewest cells.**  A run begins and ends at a leaf
or at the end of the curve.  Its cover is found without normalization, but it is normal; it has no
cell only if the run has no leaf, and any other list of cells with the same leaves has as many cells
or more.  Of a run up to a last leaf the leaves can be counted by its ends. -/
theorem runs_laid_out :
    (∀ c, checkLeaf c = .ok () ↔
      c.isValid = true ∧ c.isLeaf = true ∨ end? leafLevel = .ok c) ∧
    (∀ first limit, checkLeaf first = .ok () → checkLeaf limit = .ok () → first ≤ limit →
      ∃ A, ofLeavesBefore first limit = .ok A ∧ A.isNormal? = .ok true ∧
        (∀ c ∈ A.cells, c.isValid = true) ∧
        (∀ x, HasLeaf A.cells x ↔ x % 2 = 1 ∧ first.word ≤ x ∧ x < limit.word) ∧
        (A.cells = [] ↔ first = limit) ∧
        ∀ cells, (∀ c ∈ cells, c.isValid = true) →
          (∀ x, HasLeaf cells x ↔ HasLeaf A.cells x) → A.size ≤ cells.length) ∧
    ∀ first last, first.isValid = true → first.isLeaf = true → last.isValid = true →
      last.isLeaf = true → first ≤ last →
      ∃ A, ofLeaves first last = .ok A ∧ A.isNormal? = .ok true ∧
        (∀ c ∈ A.cells, c.isValid = true) ∧
        (∀ x, HasLeaf A.cells x ↔ x % 2 = 1 ∧ first.word ≤ x ∧ x ≤ last.word) ∧
        (∀ cells, (∀ c ∈ cells, c.isValid = true) →
          (∀ x, HasLeaf cells x ↔ HasLeaf A.cells x) → A.size ≤ cells.length) ∧
        A.leafCount? = .ok ((last.word - first.word) / 2 + 1) := by
  refine ⟨fun c => ?_, fun first limit hfirst hlimit hle => ?_, ?_⟩
  · rw [checkLeaf_eq_ok_iff, end?_leafLevel, Except.ok.injEq, eq_comm (a := c)]
  · obtain ⟨A, hA, hcan, hleaf⟩ := ofLeavesBefore_of_checkLeaf hfirst hlimit hle
    refine ⟨A, hA, hcan.isNormal?_eq, hcan.valid, fun x => ?_,
      eq_nil_iff_of_run hcan hfirst hle hleaf, fun cells => hcan.length_le_of_same_leaves⟩
    rw [hleaf, Word.mod_two_eq_one_iff]
  · intro first last hfv hfl hlv hll hle
    have hfirst := (checkLeaf_eq_ok_iff first).mpr (Or.inl ⟨hfv, hfl⟩)
    have hlast := (checkLeaf_eq_ok_iff last).mpr (Or.inl ⟨hlv, hll⟩)
    obtain ⟨A, hA, hcan, hleaf⟩ := ofLeaves_of_isLeaf hfirst hlv hll hle
    refine ⟨A, hA, hcan.isNormal?_eq, hcan.valid, fun x => ?_,
      fun cells => hcan.length_le_of_same_leaves, leafCount?_of_run hcan hfirst hlast hle hleaf⟩
    rw [hleaf, Word.mod_two_eq_one_iff]

/-- From the last four leaves of a face to the end of the curve, and to the first four of the next
face. -/
theorem runs_laid_out_across :
    let first : Cell := ⟨0x1ffffffffffffff9⟩
    let last : Cell := ⟨0x2000000000000007⟩
    (checkLeaf first = .ok () ∧ checkLeaf leafEnd = .ok () ∧ first ≤ leafEnd) ∧
      (∃ A, ofLeavesBefore first leafEnd = .ok A ∧ A.isNormal? = .ok true ∧ A.cells ≠ []) ∧
      (first.isValid = true ∧ first.isLeaf = true ∧ last.isValid = true ∧ last.isLeaf = true ∧
        first ≤ last) ∧
      ∃ A, ofLeaves first last = .ok A ∧ A.isNormal? = .ok true ∧ A.leafCount? = .ok 8 := by
  intro first last
  have hends : checkLeaf first = .ok () ∧ checkLeaf leafEnd = .ok () ∧ first ≤ leafEnd := by decide
  have hleaves : first.isValid = true ∧ first.isLeaf = true ∧ last.isValid = true ∧
      last.isLeaf = true ∧ first ≤ last := by decide
  obtain ⟨_, hbefore, hto⟩ := runs_laid_out
  obtain ⟨A, hA, hnA, _, _, hnil, _⟩ := hbefore first leafEnd hends.1 hends.2.1 hends.2.2
  obtain ⟨hfv, hfl, hlv, hll, hle⟩ := hleaves
  obtain ⟨B, hB, hnB, _, _, _, hcount⟩ := hto first last hfv hfl hlv hll hle
  have hne : first ≠ leafEnd := by decide
  have height : (last.word - first.word) / 2 + 1 = 8 := by decide
  rw [height] at hcount
  exact ⟨hends, ⟨A, hA, hnA, mt hnil.mp hne⟩, ⟨hfv, hfl, hlv, hll, hle⟩, B, hB, hnB, hcount⟩

example : ofLeaves ⟨0x1ffffffffffffff9⟩ ⟨0x2000000000000007⟩ =
    .ok ⟨[⟨0x1ffffffffffffffc⟩, ⟨0x2000000000000004⟩]⟩ := by
  decide +kernel

/-! ## Runs that are refused -/

theorem checkLeaf_of_isFaceLeaf (h : c.IsFaceLeaf) : checkLeaf c = .ok () :=
  (checkLeaf_eq_ok_iff c).mpr (Or.inl h)

theorem checkLeaf_leafEnd : checkLeaf leafEnd = .ok () :=
  (checkLeaf_eq_ok_iff leafEnd).mpr (Or.inr rfl)

theorem checkLeaf_eq_error (h : ¬c.IsFaceLeaf) (hne : c ≠ leafEnd) :
    checkLeaf c = .error (.notLeaf c.word) :=
  (checkLeaf_eq_ok_or_error c).resolve_left fun hok =>
    ((checkLeaf_eq_ok_iff c).mp hok).elim h hne

theorem le_leafEnd (h : checkLeaf c = .ok ()) : c ≤ leafEnd := by
  obtain ⟨a, ha, hend⟩ := checkLeaf_eq_ok_iff_at.mp h
  have hword := ha.word_eq
  have hend' := leafEnd_at.word_eq
  rw [le_iff]
  omega

theorem lt_leafEnd (h : c.IsFaceLeaf) : c < leafEnd := by
  have hle := le_leafEnd (checkLeaf_of_isFaceLeaf h)
  have hne : c ≠ leafEnd := by
    rintro rfl
    exact absurd h (by decide)
  rw [le_iff] at hle
  rw [Cell.lt_iff]
  exact lt_of_le_of_ne hle fun heq => hne (ext_toNat heq)

theorem ofLeaves_of_checkRun (h : checkRun first last = .error r) :
    ofLeaves first last = .error (.refused r) := by
  rw [ofLeaves, h]
  rfl

/-- There is no leaf at the end.  It is let through, and what comes after it is refused. -/
theorem ofLeaves_leafEnd (hfirst : checkLeaf first = .ok ()) :
    ofLeaves first leafEnd = .error (.refused (.notLeaf leafEnd.next.word)) := by
  have hnext : checkLeaf leafEnd.next = .error (.notLeaf leafEnd.next.word) := by decide
  rw [ofLeaves, checkRun_eq_ok hfirst checkLeaf_leafEnd (le_leafEnd hfirst), ofLeavesBefore,
    checkRun_of_last hfirst hnext]
  rfl

theorem ofLeaves_eq_ok_iff (first last : Cell) :
    (∃ A, ofLeaves first last = .ok A) ↔ first.IsFaceLeaf ∧ last.IsFaceLeaf ∧ first ≤ last := by
  constructor
  · rintro ⟨A, hA⟩
    have hno : ∀ r, checkRun first last ≠ .error r := fun r hr => by
      rw [ofLeaves_of_checkRun hr] at hA
      cases hA
    obtain ⟨hfirst, hlast, hle, _⟩ := (checkRun_spec first last).resolve_right
      fun ⟨r, hr⟩ => hno r hr
    have hlast' : last.IsFaceLeaf := by
      refine ((checkLeaf_eq_ok_iff last).mp hlast).resolve_right ?_
      rintro rfl
      rw [ofLeaves_leafEnd hfirst] at hA
      cases hA
    refine ⟨((checkLeaf_eq_ok_iff first).mp hfirst).resolve_right ?_, hlast', hle⟩
    rintro rfl
    have hlt := lt_leafEnd hlast'
    rw [Cell.lt_iff] at hlt
    rw [le_iff] at hle
    omega
  · rintro ⟨hfirst, ⟨hv, hl⟩, hle⟩
    obtain ⟨A, hA, _⟩ := ofLeaves_of_isLeaf (checkLeaf_of_isFaceLeaf hfirst) hv hl hle
    exact ⟨A, hA⟩

/-- **Which runs are refused, and why.**  Where the end of the curve is not given, the refusal says
what is wrong with the two words: it names the first of them that is no leaf, or their order.  The
end is no leaf either, but it passes for one.  As the first word it gets the order refused, and as
the last word it gets the word after it refused, which was not given. -/
theorem refusals_of_runs (first last : Cell) :
    ((∃ A, ofLeaves first last = .ok A) ↔
      first.IsFaceLeaf ∧ last.IsFaceLeaf ∧ first ≤ last) ∧
    (¬first.IsFaceLeaf → first ≠ leafEnd →
      ofLeaves first last = .error (.refused (.notLeaf first.word))) ∧
    (first.IsFaceLeaf ∨ first = leafEnd → ¬last.IsFaceLeaf → last ≠ leafEnd →
      ofLeaves first last = .error (.refused (.notLeaf last.word))) ∧
    (first.IsFaceLeaf → last.IsFaceLeaf → last < first →
      ofLeaves first last = .error (.refused (.invertedRange first.word last.word))) ∧
    (first = leafEnd → last.IsFaceLeaf →
      ofLeaves first last = .error (.refused (.invertedRange first.word last.word))) ∧
    (first.IsFaceLeaf ∨ first = leafEnd → last = leafEnd →
      ofLeaves first last = .error (.refused (.notLeaf last.next.word))) := by
  refine ⟨ofLeaves_eq_ok_iff first last, ?_, ?_, ?_, ?_, ?_⟩
  · intro hno hne
    exact ofLeaves_of_checkRun (checkRun_of_first (checkLeaf_eq_error hno hne))
  · intro hfirst hno hne
    have hok := (checkLeaf_eq_ok_iff first).mpr hfirst
    exact ofLeaves_of_checkRun (checkRun_of_last hok (checkLeaf_eq_error hno hne))
  · intro hfirst hlast hlt
    exact ofLeaves_of_checkRun
      (checkRun_of_lt (checkLeaf_of_isFaceLeaf hfirst) (checkLeaf_of_isFaceLeaf hlast) hlt)
  · rintro rfl hlast
    exact ofLeaves_of_checkRun
      (checkRun_of_lt checkLeaf_leafEnd (checkLeaf_of_isFaceLeaf hlast) (lt_leafEnd hlast))
  · rintro hfirst rfl
    exact ofLeaves_leafEnd ((checkLeaf_eq_ok_iff first).mpr hfirst)

/-- A word behind all faces, after the end and before a leaf; two leaves in the wrong order; and the
end on either side of a leaf. -/
theorem refusals_of_runs_around_end :
    let leaf : Cell := ⟨1⟩
    let behind : Cell := ⟨0xc000000000000003⟩
    (¬behind.IsFaceLeaf ∧ behind ≠ leafEnd ∧
      ofLeaves behind leaf = .error (.refused (.notLeaf 0xc000000000000003))) ∧
    ((leaf.IsFaceLeaf ∨ leaf = leafEnd) ∧
      ofLeaves leaf behind = .error (.refused (.notLeaf 0xc000000000000003))) ∧
    ((⟨3⟩ : Cell).IsFaceLeaf ∧ leaf < ⟨3⟩ ∧
      ofLeaves ⟨3⟩ leaf = .error (.refused (.invertedRange 3 1))) ∧
    ofLeaves leafEnd leaf = .error (.refused (.invertedRange 0xc000000000000001 1)) ∧
    ofLeaves leaf leafEnd = .error (.refused (.notLeaf 0xc000000000000003)) := by
  intro leaf behind
  have hleaf : leaf.IsFaceLeaf := by decide
  have hthree : (⟨3⟩ : Cell).IsFaceLeaf := by decide
  have hbehind : ¬behind.IsFaceLeaf := by decide
  have hne : behind ≠ leafEnd := by decide
  have hlt : leaf < ⟨3⟩ := by decide
  obtain ⟨_, hfirst, _⟩ := refusals_of_runs behind leaf
  obtain ⟨_, _, hlast, _⟩ := refusals_of_runs leaf behind
  obtain ⟨_, _, _, horder, _⟩ := refusals_of_runs ⟨3⟩ leaf
  obtain ⟨_, _, _, _, hend, _⟩ := refusals_of_runs leafEnd leaf
  obtain ⟨_, _, _, _, _, hafter⟩ := refusals_of_runs leaf leafEnd
  exact ⟨⟨hbehind, hne, hfirst hbehind hne⟩, ⟨Or.inl hleaf, hlast (Or.inl hleaf) hbehind hne⟩,
    ⟨hthree, hlt, horder hthree hleaf hlt⟩, hend rfl hleaf, hafter (Or.inl hleaf) rfl⟩

/-- A refusal can name a word that is none of the two ends, where one of them is no leaf. -/
theorem refusal_names_no_end :
    ¬∀ first last : Cell, first.IsFaceLeaf → ¬last.IsFaceLeaf →
      ofLeaves first last = .error (.refused (.notLeaf last.word)) ∧
        ∀ w, ofLeaves first last = .error (.refused (.notLeaf w)) →
          w = first.word ∨ w = last.word := by
  intro h
  have hend : ofLeaves ⟨1⟩ leafEnd = .error (.refused (.notLeaf 0xc000000000000003)) := by
    decide +kernel
  exact absurd ((h ⟨1⟩ leafEnd (by decide) (by decide)).2 _ hend) (by decide)

end QuadSphere.Cover
