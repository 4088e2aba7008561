import Mathlib.Data.FinEnum
import Mathlib.Data.Set.Card
import Mathlib.Order.Interval.Finset.Nat
import QuadSphere.Cover.Membership
import QuadSphere.Proofs.Algebra
import QuadSphere.Proofs.Squares

/-!
# The number of leaves

The range of a cell holds as many leaves as its marker says.  The ranges in a canonical cover lie
apart, so the sum of the markers is the number of leaves of the whole cover; and since they lie in
order, the sum up to a cell is at most half of where its range begins, which fits into a word.

All cells together have so few leaves that the counts of two covers can be added.  Since the counts
are numbers of leaves, the laws of counting hold for the results of union, intersection and
difference, whatever cells these consist of.

* `ncard_odd`: how many odd words there are between two even numbers.
* `foldlM_sum?_spec`: the sum over a list of cells.
* `leafCount?_eq_ncard`: the sum over a canonical cover is the number of its leaves.
* `leafCounts_add_up`: the counts of a union, an intersection and a difference.
-/

namespace QuadSphere

open Cell

theorem ncard_odd {a b : Nat} (hb : 2 * b ≤ 2 ^ 64) :
    {x : UInt64 | x.toNat % 2 = 1 ∧ 2 * a < x.toNat ∧ x.toNat < 2 * b}.ncard = b - a := by
  have hword : ∀ n ∈ (Finset.Ico a b : Set Nat), (UInt64.ofNat (2 * n + 1)).toNat = 2 * n + 1 := by
    intro n hn
    rw [Finset.coe_Ico, Set.mem_Ico] at hn
    exact UInt64.toNat_ofNat_of_lt' (by rw [UInt64.size]; omega)
  have himage : {x : UInt64 | x.toNat % 2 = 1 ∧ 2 * a < x.toNat ∧ x.toNat < 2 * b} =
      (fun n => UInt64.ofNat (2 * n + 1)) '' (Finset.Ico a b : Set Nat) := by
    ext x
    constructor
    · rintro ⟨hodd, hlo, hhi⟩
      have hmem : x.toNat / 2 ∈ (Finset.Ico a b : Set Nat) := by
        rw [Finset.coe_Ico, Set.mem_Ico]
        omega
      refine ⟨x.toNat / 2, hmem, UInt64.toNat_inj.mp ?_⟩
      dsimp only
      rw [hword _ hmem]
      omega
    · rintro ⟨n, hn, rfl⟩
      have := hword n hn
      rw [Finset.coe_Ico, Set.mem_Ico] at hn
      rw [Set.mem_ofPred_eq]
      dsimp only
      omega
  have hinj : Set.InjOn (fun n => UInt64.ofNat (2 * n + 1)) (Finset.Ico a b : Set Nat) := by
    intro m hm n hn h
    have := congrArg UInt64.toNat h
    dsimp only at this
    rw [hword m hm, hword n hn] at this
    omega
  rw [himage, hinj.ncard_image, Set.ncard_coe_finset, Nat.card_Ico]

namespace Cell

variable {c : Cell}

theorem ncard_hasLeaf (h : c ≠ null) : {x | c.HasLeaf x}.ncard = c.marker.toNat := by
  obtain ⟨k, q, hat⟩ := exists_at h
  have hstop := hat.stop_eq
  have hle := hat.stop_le
  have hleaf : {x | c.HasLeaf x} = {x : UInt64 |
      x.toNat % 2 = 1 ∧ 2 * (q * 2 ^ k) < x.toNat ∧ x.toNat < 2 * (q * 2 ^ k + 2 ^ k)} := by
    ext x
    rw [Set.mem_ofPred_eq, hasLeaf_iff h, hat.start_eq, hstop, Nat.mul_add]
    rfl
  rw [hleaf, ncard_odd (by omega), hat.marker_eq, Nat.add_sub_cancel_left]

theorem toNat_markerAt_level (hc : c.isValid = true) :
    (markerAt c.level).toNat = c.marker.toNat := by
  obtain ⟨m, q, hm, hat, _⟩ := isValid_iff.mp hc
  rw [toNat_markerAt, hat.marker_eq, hat.level_eq, leafLevel]
  congr 1
  omega

end Cell

namespace Cover

variable {A : Cover}

/-- The sum over cells side by side counts their leaves and is at most half of where they end. -/
theorem foldlM_sum?_spec {cells : List Cell} (hv : ∀ c ∈ cells, c.isValid = true)
    (hs : Separated cells) {n : UInt64} (hn : ∀ c ∈ cells, 2 * n.toNat ≤ c.start) :
    ∃ k, cells.foldlM (fun n c => sum? n (markerAt c.level)) n = .ok k ∧
      k.toNat = n.toNat + {x | HasLeaf cells x}.ncard := by
  induction cells generalizing n with
  | nil =>
    refine ⟨n, rfl, ?_⟩
    simp [hasLeaf_nil]
  | cons c cells ih =>
    obtain ⟨hc, hvs⟩ := List.forall_mem_cons.mp hv
    obtain ⟨hcb, _⟩ := List.pairwise_cons.mp hs.pairwise
    have hmarker := toNat_markerAt_level hc
    have hbounds := range_bounds hs.head
    have hsum := start_add_marker hs.head
    have hstop := word_add_marker c
    have hstart := hn c List.mem_cons_self
    have hfit : n.toNat + (markerAt c.level).toNat < UInt64.size := by
      rw [UInt64.size]
      omega
    have hnext : (n + markerAt c.level).toNat = n.toNat + c.marker.toNat := by
      rw [UInt64.toNat_add, Nat.mod_eq_of_lt hfit, hmarker]
    obtain ⟨k, hk, hcount⟩ := ih hvs hs.tail (n := n + markerAt c.level) fun d hd => by
      have hbefore := hcb d hd
      rw [Cell.Before] at hbefore
      omega
    have hapart : Disjoint {x | c.HasLeaf x} {x | HasLeaf cells x} := by
      rw [Set.disjoint_left]
      rintro x hx ⟨d, hd, hdx⟩
      exact (hcb d hd).apart hs.head (hs.tail.ne_null d hd) x hx hdx
    have hunion : {x | HasLeaf (c :: cells) x} = {x | c.HasLeaf x} ∪ {x | HasLeaf cells x} :=
      Set.ext (hasLeaf_cons c cells)
    refine ⟨k, ?_, ?_⟩
    · rw [List.foldlM_cons, sum?_eq_ok hfit, ok_bind, hk]
    · rw [hcount, hnext, hunion, Set.ncard_union_eq hapart, ncard_hasLeaf hs.head, Nat.add_assoc]

theorem leafCount?_eq_ncard (hA : IsCanonical A.cells) :
    ∃ k, A.leafCount? = .ok k ∧ k.toNat = {x | HasLeaf A.cells x}.ncard := by
  obtain ⟨k, hk, hcount⟩ := foldlM_sum?_spec (n := 0) hA.valid hA.separated (by simp)
  exact ⟨k, hk, by rw [hcount, UInt64.toNat_zero, Nat.zero_add]⟩

/-! ## Counts of several covers -/

theorem ncard_hasLeaf_le {cells : List Cell} (hv : ∀ c ∈ cells, c.isValid = true) :
    {x | HasLeaf cells x}.ncard ≤ faceCount * 4 ^ leafLevel := by
  have hodd := ncard_odd (a := 0) (b := faceCount * 4 ^ leafLevel) (by decide)
  rw [Nat.sub_zero] at hodd
  rw [← hodd]
  refine Set.ncard_le_ncard ?_ (Set.toFinite _)
  rintro x ⟨c, hc, hx⟩
  obtain ⟨m, q, _, hat, hstop⟩ := isValid_iff.mp (hv c hc)
  obtain ⟨hx1, hx2, hx3⟩ := (hasLeaf_iff hat.ne_null).mp hx
  have hall : 2 * (faceCount * 4 ^ leafLevel) = 6 * 2 ^ 61 := by decide
  exact ⟨hx1, by omega, by omega⟩

theorem Yields.leafCount? {r : Except Fault Cover} {P : UInt64 → Prop} (h : Yields r P) :
    ∃ k, (do (← r).leafCount?) = .ok k ∧ k.toNat = {x | P x}.ncard := by
  obtain ⟨C, rfl, hcan, hleaf⟩ := h
  obtain ⟨k, hk, hcount⟩ := leafCount?_eq_ncard hcan
  refine ⟨k, hk, ?_⟩
  rw [hcount]
  congr 1
  exact Set.ext hleaf

/-- **Leaf counts are exact and add up.**  The power of four that is counted for a cell is the
number of its leaves, and the sum for a normal cover is the number of leaves of the cover; no sum is
too large for a word.  The counts of a union and of an intersection are together those of the two
covers, and a difference has as many leaves as the intersection leaves over. -/
theorem leafCounts_add_up (A B : Cover) (hA : ∀ c ∈ A.cells, c.isValid = true)
    (hB : ∀ c ∈ B.cells, c.isValid = true) (hnA : A.isNormal? = .ok true)
    (hnB : B.isNormal? = .ok true) :
    (∀ c ∈ A.cells, ∃ n, markerAt? c.level = .ok n ∧ n.toNat = {x | c.HasLeaf x}.ncard) ∧
    ∃ a b u i d : UInt64, A.leafCount? = .ok a ∧ B.leafCount? = .ok b ∧
      (do (← A.union B).leafCount?) = .ok u ∧ (do (← A.intersection B).leafCount?) = .ok i ∧
      (do (← A.difference B).leafCount?) = .ok d ∧
      a.toNat = {x | HasLeaf A.cells x}.ncard ∧
      a.toNat + b.toNat < UInt64.size ∧ u.toNat + i.toNat = a.toNat + b.toNat ∧
      i ≤ a ∧ d = a - i := by
  have hcanA : IsCanonical A.cells := isCanonical_iff.mpr ⟨hA, hnA⟩
  have hcanB : IsCanonical B.cells := isCanonical_iff.mpr ⟨hB, hnB⟩
  obtain ⟨a, ha, hcountA⟩ := leafCount?_eq_ncard hcanA
  obtain ⟨b, hb, hcountB⟩ := leafCount?_eq_ncard hcanB
  obtain ⟨u, hu, hcountU⟩ := (yields_union hcanA hcanB).leafCount?
  obtain ⟨i, hi, hcountI⟩ := (yields_intersection hcanA hcanB).leafCount?
  obtain ⟨d, hd, hcountD⟩ := (yields_difference hcanA hcanB).leafCount?
  have hleA := ncard_hasLeaf_le hA
  have hleB := ncard_hasLeaf_le hB
  have hsum : u.toNat + i.toNat = a.toNat + b.toNat := by
    rw [hcountU, hcountI, hcountA, hcountB]
    exact Set.ncard_union_add_ncard_inter _ _
  have hparts : i.toNat + d.toNat = a.toNat := by
    rw [hcountI, hcountD, hcountA]
    exact Set.ncard_inter_add_ncard_sdiff_eq_ncard _ _
  have hword : 2 * (faceCount * 4 ^ leafLevel) < UInt64.size := by decide
  have hle : i ≤ a := UInt64.le_iff_toNat_le.mpr (by omega)
  refine ⟨fun c hc => ?_, a, b, u, i, d, ha, hb, hu, hi, hd, hcountA, by omega, hsum, hle, ?_⟩
  · refine ⟨markerAt c.level, ?_, ?_⟩
    · rw [markerAt?, requireLevel, if_pos (level_le c)]
      rfl
    · rw [toNat_markerAt_level (hA c hc), ncard_hasLeaf (ne_null_of_isValid (hA c hc))]
  · apply UInt64.toNat_inj.mp
    rw [UInt64.toNat_sub_of_le _ _ hle]
    omega

/-- Three children of a cell, and the fourth one with a part of the second. -/
theorem leafCounts_add_up_children :
    let A : Cover := ⟨[⟨0x4900000000000000⟩, ⟨0x4b00000000000000⟩, ⟨0x4d00000000000000⟩]⟩
    let B : Cover := ⟨[⟨0x4b40000000000000⟩, ⟨0x4f00000000000000⟩]⟩
    (∀ C ∈ [A, B], (∀ c ∈ C.cells, c.isValid = true) ∧ C.isNormal? = .ok true) ∧
      {x | HasLeaf A.cells x}.ncard = 3 * 4 ^ 28 ∧
      ∃ u i d : UInt64, (do (← A.union B).leafCount?) = .ok u ∧
        (do (← A.intersection B).leafCount?) = .ok i ∧
        (do (← A.difference B).leafCount?) = .ok d ∧
        u.toNat + i.toNat = 4 ^ 29 + 4 ^ 27 ∧ d.toNat + i.toNat = 3 * 4 ^ 28 := by
  intro A B
  have hA : ∀ c ∈ A.cells, c.isValid = true := by decide
  have hB : ∀ c ∈ B.cells, c.isValid = true := by decide
  have hcountA : A.leafCount? = .ok 0x0300000000000000 := by decide +kernel
  have hcountB : B.leafCount? = .ok 0x0140000000000000 := by decide +kernel
  obtain ⟨_, a, b, u, i, d, ha, hb, hu, hi, hd, hncard, _, hsum, hle, hdiff⟩ :=
    leafCounts_add_up A B hA hB rfl rfl
  obtain rfl : (0x0300000000000000 : UInt64) = a := Except.ok.inj (hcountA.symm.trans ha)
  obtain rfl : (0x0140000000000000 : UInt64) = b := Except.ok.inj (hcountB.symm.trans hb)
  refine ⟨?_, hncard.symm, u, i, d, hu, hi, hd, hsum, ?_⟩
  · intro C hC
    simp only [List.mem_cons, List.not_mem_nil, or_false] at hC
    rcases hC with rfl | rfl
    · exact ⟨hA, rfl⟩
    · exact ⟨hB, rfl⟩
  · rw [hdiff, UInt64.toNat_sub_of_le _ _ hle, Nat.sub_add_cancel (UInt64.le_iff_toNat_le.mp hle)]
    rfl

end Cover

end QuadSphere
