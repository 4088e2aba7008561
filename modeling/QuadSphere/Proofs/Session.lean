import QuadSphere.Cover.Session
import QuadSphere.Proofs.LeafCount
import QuadSphere.Proofs.Radius
import QuadSphere.Proofs.Runs

/-!
# Sessions keep covers canonical

Every call gives a canonical cover or is refused, as long as all covers there are are canonical and
the cells that it is given are cells (`value_sound`).  So the covers stay canonical through any
sequence of calls, and none of the questions about them breaks off.

* `leafCount?_spec`: the number of leaves fits into a word.
* `run_of_wellFormed`: every session goes on.
-/

namespace QuadSphere

open Cell

namespace Cover

variable {A : Cover}

theorem leafCount?_spec (hA : IsCanonical A.cells) : ∃ k, A.leafCount? = .ok k := by
  obtain ⟨k, hk, _⟩ := leafCount?_eq_ncard hA
  exact ⟨k, hk⟩

end Cover

/-! ## Calls -/

/-- The computation ends with a canonical cover or is refused. -/
def Sound (r : Except Failure Cover) : Prop :=
  (∃ A, r = .ok A ∧ IsCanonical A.cells) ∨ ∃ reason, r = .error (.refused reason)

theorem sound_of_canonical {A : Cover} (hA : IsCanonical A.cells) : Sound (.ok A) :=
  Or.inl ⟨A, rfl, hA⟩

theorem sound_of_exists {r : Except Fault Cover} (h : ∃ A, r = .ok A ∧ IsCanonical A.cells) :
    Sound (Fault.asFailure r) := by
  obtain ⟨A, rfl, hA⟩ := h
  exact sound_of_canonical hA

theorem Cover.Yields.sound {r : Except Fault Cover} {P : UInt64 → Prop} (h : Cover.Yields r P) :
    Sound (Fault.asFailure r) := by
  obtain ⟨A, hA, hcan, _⟩ := h
  exact sound_of_exists ⟨A, hA, hcan⟩

namespace Call

variable {ν : Type}

/-- The words that have to be cells are cells. -/
def WellFormed (call : Call ν) : Prop :=
  ∀ c ∈ call.cells, c.isValid = true

instance (call : Call ν) : Decidable call.WellFormed :=
  inferInstanceAs (Decidable (∀ c ∈ call.cells, c.isValid = true))

/-- **Every call gives a canonical cover or is refused.** -/
theorem value_sound {s : Session ν} {call : Call ν} (hs : ∀ n, IsCanonical (s n).cells)
    (h : call.WellFormed) : Sound (call.value s) := by
  cases call with
  | new out => exact sound_of_canonical ⟨by simp [Cover.empty], IsNormal.nil⟩
  | ofList out cells => exact (Cover.yields_ofList h).sound
  | ofLeaves out first last =>
    rcases Cover.ofLeaves_spec first last with hr | ⟨A, hA, hcan, _⟩
    · exact Or.inr hr
    · exact Or.inl ⟨A, hA, hcan⟩
  | ofLeavesBefore out first limit =>
    rcases Cover.ofLeavesBefore_spec first limit with hr | ⟨A, hA, hcan, _⟩
    · exact Or.inr hr
    · exact Or.inl ⟨A, hA, hcan⟩
  | clone out a => exact sound_of_canonical (hs a)
  | union out a b => exact (Cover.yields_union (hs a) (hs b)).sound
  | intersection out a b => exact (Cover.yields_intersection (hs a) (hs b)).sound
  | difference out a b => exact (Cover.yields_difference (hs a) (hs b)).sound
  | within out a c => exact (Cover.yields_within (hs a) (h c (by simp [cells]))).sound
  | normalize a =>
    obtain ⟨B, hB, hcan, _⟩ := Cover.ofList_of_valid (hs a).valid
    refine sound_of_exists ⟨B, ?_, hcan⟩
    rw [Cover.normalize, hB]
    rfl
  | growByLevel a level =>
    rw [Call.value, Cover.growByLevel, checkLevel]
    by_cases hl : level ≤ leafLevel
    · obtain ⟨B, hB, hcan, _⟩ := Cover.growAt_spec hl (hs a).valid
      rw [if_pos hl, hB]
      exact sound_of_canonical hcan
    · rw [if_neg hl]
      exact Or.inr ⟨_, rfl⟩
  | growByRadius a radius finer =>
    obtain ⟨_, B, _, _, hB, hgrows, _⟩ := Cover.growByRadius_spec (hs a).valid radius finer
    exact sound_of_exists ⟨B, hB, hgrows.canonical⟩
  | detach a => exact sound_of_canonical ⟨by simp [Cover.detach, Cover.empty], IsNormal.nil⟩
  | pack a => exact sound_of_canonical (hs a)
  | decode a bytes => exact Or.inr ⟨_, rfl⟩

end Call

namespace Session

variable {ν : Type} {s : Session ν} {call : Call ν} {calls : List (Call ν)}

/-- All covers of the session are canonical. -/
def Canonical (s : Session ν) : Prop :=
  ∀ n, IsCanonical (s n).cells

theorem canonical_start : (start : Session ν).Canonical := by
  intro n
  exact ⟨by simp [start, Cover.empty], IsNormal.nil⟩

variable [DecidableEq ν]

theorem Canonical.put {A : Cover} (hs : s.Canonical) (hA : IsCanonical A.cells) (name : ν) :
    (s.put name A).Canonical := by
  intro n
  rw [Session.put]
  split
  · exact hA
  · exact hs n

/-- **What a call preserves.**  It does not break off, the covers stay canonical, and a refused call
changes none of them. -/
theorem step_spec (hs : s.Canonical) (h : call.WellFormed) :
    ∃ s' r, s.step call = .ok (s', r) ∧ s'.Canonical ∧ (r.isSome → s' = s) := by
  rcases Call.value_sound hs h with ⟨A, hA, hcan⟩ | ⟨r, hr⟩
  · exact ⟨s.put call.target A, none, by rw [step, hA], hs.put hcan _, by simp⟩
  · exact ⟨s, some r, by rw [step, hr], hs, fun _ => rfl⟩

theorem run_spec (hs : s.Canonical) (h : ∀ call ∈ calls, call.WellFormed) :
    ∃ s', s.run calls = .ok s' ∧ s'.Canonical := by
  induction calls generalizing s with
  | nil => exact ⟨s, rfl, hs⟩
  | cons call calls ih =>
    obtain ⟨hcall, hcalls⟩ := List.forall_mem_cons.mp h
    obtain ⟨s₁, r, hstep, hs₁, _⟩ := step_spec hs hcall
    obtain ⟨s₂, hrun, hs₂⟩ := ih hs₁ hcalls
    exact ⟨s₂, by rw [run, hstep]; exact hrun, hs₂⟩

/-- **Every session goes on.**  After any sequence of calls all covers are normal covers of cells, a
further call does not break off and changes nothing where it is refused, and every question about
the covers has an answer. -/
theorem run_of_wellFormed (calls : List (Call ν)) (h : ∀ call ∈ calls, call.WellFormed) :
    ∃ s, start.run calls = .ok s ∧
      (∀ n, (s n).isNormal? = .ok true ∧ ∀ c ∈ (s n).cells, c.isValid = true) ∧
      (∀ call : Call ν, call.WellFormed →
        ∃ s' r, s.step call = .ok (s', r) ∧ (r.isSome → s' = s)) ∧
      (∀ n, ∀ c : Cell, c.isValid = true →
        (∃ t, (s n).contains? c = .ok t) ∧ ∃ t, (s n).intersects? c = .ok t) ∧
      (∀ n n', (∃ t, (s n).containsCover? (s n') = .ok t) ∧
        ∃ t, (s n).intersectsCover? (s n') = .ok t) ∧
      ∀ n, ∃ k, (s n).leafCount? = .ok k := by
  obtain ⟨s, hrun, hs⟩ := run_spec canonical_start h
  refine ⟨s, hrun, fun n => ⟨(hs n).isNormal?_eq, (hs n).valid⟩, ?_, ?_, ?_,
    fun n => Cover.leafCount?_spec (hs n)⟩
  · intro call hcall
    obtain ⟨s', r, hstep, _, hrefused⟩ := step_spec hs hcall
    exact ⟨s', r, hstep, hrefused⟩
  · intro n c hc
    obtain ⟨t, ht, _⟩ := Cover.contains?_spec (hs n).separated (ne_null_of_isValid hc)
    obtain ⟨t', ht', _⟩ := Cover.intersects?_spec (hs n).separated (ne_null_of_isValid hc)
    exact ⟨⟨t, ht⟩, t', ht'⟩
  · intro n n'
    exact ⟨⟨_, Cover.containsCover?_eq_ok (hs n) (hs n')⟩, _,
      Cover.intersectsCover?_eq_ok (hs n) (hs n')⟩

/-- A run of leaves without its first leaf, grown by a radius that is no number. -/
theorem run_of_wellFormed_five :
    let calls : List (Call String) :=
      [.ofLeaves "run" ⟨1⟩ ⟨0x1fffffffffffffff⟩, .ofList "leaf" [⟨1⟩, ⟨1⟩],
        .difference "rest" "run" "leaf", .growByRadius "rest" ⟨0 / 0⟩ 3,
        .within "part" "rest" ⟨0x1000000000000000⟩]
    (∀ call ∈ calls, call.WellFormed) ∧
      ∃ s, start.run calls = .ok s ∧
        (∀ n, (s n).isNormal? = .ok true ∧ ∀ c ∈ (s n).cells, c.isValid = true) ∧
        ∀ n, ∃ k, (s n).leafCount? = .ok k := by
  intro calls
  have h : ∀ call ∈ calls, call.WellFormed := by decide
  obtain ⟨s, hrun, hnormal, _, _, _, hcount⟩ := run_of_wellFormed calls h
  exact ⟨h, s, hrun, hnormal, hcount⟩

end Session

end QuadSphere
