import QuadSphere.Cover.LeafRun
import QuadSphere.Proofs.Canonical
import QuadSphere.Proofs.Descendants

/-!
# Tiles

A run of leaves goes from an even number `lo` to an even number `hi`, and `IsLargest lo hi c` says
that `c` is the largest cell that begins where the run begins and does not reach beyond its end.
`Tiled hi lo cells` says that the cells lie side by side through the whole run, each one the largest
where it begins.  Such a list is canonical (`Tiled.isCanonical`): the children of a cell are never
all in it, since the first of them would not be the largest.

* `largestTile_spec`: the climb or the descent from any cell at the beginning of the run ends with
  the largest cell.
* `largestTile_of_valid`: the largest tile before a cell or before the end of a level.
* `tiles_spec`: the tiles of a run.
-/

namespace QuadSphere

open Cell

variable {c d p limit : Cell} {cells : List Cell} {lo hi m q e : Nat}

/-! ## The largest cell -/

/-- The largest cell that begins at `lo` and does not reach beyond `hi`. -/
structure IsLargest (lo hi : Nat) (c : Cell) : Prop where
  valid : c.isValid = true
  start_eq : c.start = lo
  stop_le : c.stop ≤ hi
  largest : ∀ d : Cell, d.isValid = true → d.start = lo → d.stop ≤ hi → d.stop ≤ c.stop

namespace Cell

theorem At.stop_eq_start_add (h : c.At (2 * m) q) : c.stop = c.start + 2 * 4 ^ m := by
  rw [h.stop_eq, h.start_eq, Nat.pow_mul]

/-- A larger cell that begins where a cell begins has the parent of that cell within it. -/
theorem parent_within (hc : c.isValid = true) (hd : d.isValid = true) (hstart : d.start = c.start)
    (hlt : c.stop < d.stop) :
    c.parent.isValid = true ∧ c.parent.cutsLeft = c.cutsLeft + 1 ∧ c.parent.start = c.start ∧
      c.parent.stop ≤ d.stop := by
  obtain ⟨m, q, hm, hat, hstop⟩ := isValid_iff.mp hc
  obtain ⟨n, r, hn, hdat, hdstop⟩ := isValid_iff.mp hd
  have hmn : m < n := by
    rw [hat.stop_eq_start_add, hdat.stop_eq_start_add, hstart] at hlt
    exact (Nat.pow_lt_pow_iff_right (by omega : 1 < 4)).mp (by omega)
  obtain ⟨t, rfl⟩ : ∃ t, n = t + 1 + m := ⟨n - 1 - m, by omega⟩
  have hpos : 0 < 2 ^ (2 * m) := Nat.two_pow_pos _
  have hq : q = 4 * (r * 4 ^ t) := by
    rw [hat.start_eq, hdat.start_eq, show 2 * (t + 1 + m) = 2 * t + 2 + 2 * m by ring, Nat.pow_add,
      Nat.pow_add, Nat.pow_mul, ← Nat.mul_assoc r] at hstart
    have := Nat.eq_of_mul_eq_mul_right hpos (Nat.eq_of_mul_eq_mul_left (by omega) hstart)
    rw [← this]
    ring
  have hpar : c.parent.At (2 * (m + 1)) (r * 4 ^ t) := by
    have := hat.parent (by omega)
    rwa [hq, Nat.mul_div_cancel_left _ (by omega)] at this
  have hsame : c.parent.start = c.start := by
    rw [hpar.start_eq, hat.start_eq, hq, show 2 * (m + 1) = 2 + 2 * m by ring, Nat.pow_add]
    ring
  have hle : c.parent.stop ≤ d.stop := by
    rw [hpar.stop_eq_start_add, hdat.stop_eq_start_add, hsame, hstart]
    have := Nat.pow_le_pow_right (by omega : 0 < 4) (show m + 1 ≤ t + 1 + m by omega)
    omega
  refine ⟨isValid_iff.mpr ⟨m + 1, _, by omega, hpar, by omega⟩, ?_, hsame, hle⟩
  rw [hpar.cutsLeft_eq, hat.cutsLeft_eq]

theorem isLargest_of_parent (hc : c.isValid = true) (hstop : c.stop ≤ hi)
    (hno : c.parent.isValid = true → c.parent.cutsLeft = c.cutsLeft + 1 →
      c.parent.start = c.start → hi < c.parent.stop) : IsLargest c.start hi c := by
  refine ⟨hc, rfl, hstop, fun d hd hstart hle => ?_⟩
  by_contra hlt
  obtain ⟨hv, hcut, hsame, hwithin⟩ := parent_within hc hd hstart (Nat.lt_of_not_le hlt)
  have := hno hv hcut hsame
  omega

/-- A cell that begins before the limit ends before the limit begins, unless it covers the limit; so
it is enough to compare its last leaf with the word of the limit. -/
theorem lastLeaf_lt_iff (hc : c ≠ null) (hlimit : limit ≠ null) (hstart : c.start < limit.start) :
    c.lastLeaf < limit ↔ c.stop ≤ limit.start := by
  have hlast := toNat_lastLeaf hc
  have hb := range_bounds hlimit
  rw [lt_iff]
  rcases covers_or_before hc hlimit with h | h | h | h
  · have := h.2
    omega
  · have := h.1
    omega
  · rw [Before] at h
    omega
  · have := start_le_stop limit
    rw [Before] at h
    omega

theorem growBefore_spec (hc : c.isValid = true) (hlimit : limit ≠ null)
    (hstop : c.stop ≤ limit.start) :
    IsLargest c.start limit.start (growBefore limit c.level c) := by
  induction hl : c.level generalizing c with
  | zero =>
    have hsum := level_add_cutsLeft hc
    rw [growBefore]
    refine isLargest_of_parent hc hstop fun hv hcut _ => ?_
    have := cutsLeft_le hv
    omega
  | succ l ih =>
    obtain ⟨hv, hlevel⟩ := isValid_parent hc (by omega)
    have hb := range_bounds (ne_null_of_isValid hc)
    have hpne := ne_null_of_isValid hv
    have hfits : c.parent.firstLeaf = c.firstLeaf ∧ c.parent.lastLeaf < limit ↔
        c.parent.start = c.start ∧ c.parent.stop ≤ limit.start := by
      rw [firstLeaf_eq_iff hpne (ne_null_of_isValid hc)]
      exact and_congr_right fun hsame => lastLeaf_lt_iff hpne hlimit (by omega)
    simp only [growBefore, hfits]
    by_cases hfit : c.parent.start = c.start ∧ c.parent.stop ≤ limit.start
    · rw [if_pos hfit, ← hfit.1]
      exact ih hv hfit.2 (by omega)
    · rw [if_neg hfit]
      refine isLargest_of_parent hc hstop fun _ _ hsame => ?_
      omega

theorem start_child (hc : c.isValid = true) (hl : ¬c.isLeaf = true) :
    (c.child 0).start = c.start := by
  obtain ⟨m, q, hm, hat, _⟩ := exists_at_of_not_isLeaf hc hl
  have hbounds := hat.child_bounds (i := 0) (by omega)
  omega

theorem shrinkBefore_spec (hc : c.isValid = true) (hlimit : limit ≠ null)
    (hstart : c.start < limit.start) (hstop : limit.start < c.stop) :
    ∃ d, shrinkBefore limit c.cutsLeft c = .ok d ∧ IsLargest c.start limit.start d := by
  induction hn : c.cutsLeft generalizing c with
  | zero =>
    -- the range of a leaf is too short for the limit to begin in it
    obtain ⟨m, q, hm, hat, _⟩ := isValid_iff.mp hc
    have hb := range_bounds hlimit
    have hsize := hat.stop_eq_start_add
    have hzero : m = 0 := hat.cutsLeft_eq.symm.trans hn
    have hq := hat.start_eq
    rw [hzero] at hsize
    omega
  | succ n ih =>
    have hl : ¬c.isLeaf = true := by
      rw [isLeaf_iff_cutsLeft hc]
      omega
    have hv := isValid_child hc hl (show 0 < 4 by omega)
    have hfirst := start_child hc hl
    have hcut := cutsLeft_child hc hl (show 0 < 4 by omega)
    have hfits := lastLeaf_lt_iff (ne_null_of_isValid hv) hlimit (by omega)
    rw [shrinkBefore]
    by_cases hfit : (c.child 0).stop ≤ limit.start
    · refine ⟨c.child 0, if_pos (hfits.mpr hfit), ?_⟩
      have hlargest := isLargest_of_parent hv hfit fun _ _ _ => by
        rw [parent_child hc hl (by omega)]
        exact hstop
      rw [hfirst] at hlargest
      exact hlargest
    · obtain ⟨d, hd, hlargest⟩ := ih hv (by omega) (by omega) (by omega)
      refine ⟨d, ?_, hfirst ▸ hlargest⟩
      rw [if_neg (mt hfits.mp hfit), hd]

theorem At.isValid_of_start_lt (h : c.At (2 * m) q) (hm : m ≤ leafLevel)
    (hstart : c.start < 6 * 2 ^ 61) : c.isValid = true := by
  rw [h.isValid_iff_lt hm]
  rw [leafLevel] at hm ⊢
  obtain ⟨t, ht⟩ : ∃ t, 30 = m + t := ⟨30 - m, by omega⟩
  rw [h.start_eq, show 61 = 1 + 2 * m + 2 * t by omega, Nat.pow_add, Nat.pow_add, Nat.pow_one,
    Nat.pow_mul 2 2 t, show 6 * (2 * 2 ^ (2 * m) * (2 ^ 2) ^ t) = 2 * (6 * 4 ^ t * 2 ^ (2 * m)) by
      rw [show 2 ^ 2 = 4 from rfl]; ring] at hstart
  have := Nat.lt_of_mul_lt_mul_right (Nat.lt_of_mul_lt_mul_left hstart)
  rwa [ht, Nat.add_sub_cancel_left]

/-- **The largest tile**, from any cell at the beginning of a run, or the limit where there is no
run left. -/
theorem largestTile_spec (hc : c ≠ null) (hlimit : limit ≠ null)
    (hv : c.start < limit.start → c.isValid = true) :
    (limit.start ≤ c.start → c.largestTile limit = .ok limit) ∧
      (c.start < limit.start → ∃ d, c.largestTile limit = .ok d ∧
        IsLargest c.start limit.start d) := by
  have hempty : limit.firstLeaf ≤ c.firstLeaf ↔ limit.start ≤ c.start := by
    rw [le_iff, toNat_firstLeaf hc, toNat_firstLeaf hlimit]
    omega
  simp only [largestTile, requireRange_eq_ok hc, requireRange_eq_ok hlimit, ok_bind, pure_eq_ok,
    hempty]
  constructor
  · intro h
    rw [if_pos h]
  · intro h
    have hreach : limit ≤ c.lastLeaf ↔ ¬c.stop ≤ limit.start := by
      rw [← lastLeaf_lt_iff hc hlimit h, le_iff, lt_iff]
      omega
    rw [if_neg (by omega)]
    simp only [hreach]
    by_cases hfit : c.stop ≤ limit.start
    · rw [if_neg (not_not_intro hfit)]
      exact ⟨_, rfl, growBefore_spec (hv h) hlimit hfit⟩
    · rw [if_pos hfit]
      exact shrinkBefore_spec (hv h) hlimit h (Nat.lt_of_not_le hfit)

theorem ne_null_of_limit (h : limit.isValid = true ∨ ∃ l ≤ leafLevel, end? l = .ok limit) :
    limit ≠ null := by
  rcases h with hv | ⟨l, hl, hend⟩
  · exact ne_null_of_isValid hv
  · obtain ⟨_, stop, _, hstop, _, hat⟩ := exists_whole_run hl
    rw [← Except.ok.inj (hstop.symm.trans hend)]
    exact hat.ne_null

/-- **The largest tile before a limit.**  Where the limit begins behind the beginning of the cell,
the tile begins with the cell and ends before the limit does begin, and it contains every other cell
that does so.  It is never missing, whether the cell is too large, too small or fits. -/
theorem largestTile_of_valid (c limit : Cell) (hc : c.isValid = true)
    (hlimit : limit.isValid = true ∨ ∃ l ≤ leafLevel, end? l = .ok limit) :
    (limit.firstLeaf ≤ c.firstLeaf → c.largestTile limit = .ok limit) ∧
      (c.firstLeaf < limit.firstLeaf → ∃ t, c.largestTile limit = .ok t ∧ t.isValid = true ∧
        t.firstLeaf = c.firstLeaf ∧ t.lastLeaf < limit.firstLeaf ∧
        ∀ d : Cell, d.isValid = true → d.firstLeaf = c.firstLeaf →
          d.lastLeaf < limit.firstLeaf → t.contains? d = .ok true) := by
  have hc0 := ne_null_of_isValid hc
  have hl0 := ne_null_of_limit hlimit
  have hfirst := firstLeaf_lt_firstLeaf_iff hc0 hl0
  obtain ⟨hempty, hrun⟩ := largestTile_spec hc0 hl0 fun _ => hc
  constructor
  · intro h
    rw [le_iff] at h
    rw [lt_iff] at hfirst
    exact hempty (by omega)
  · intro h
    obtain ⟨t, ht, hlargest⟩ := hrun (hfirst.mp h)
    have ht0 := ne_null_of_isValid hlargest.valid
    refine ⟨t, ht, hlargest.valid, (firstLeaf_eq_iff ht0 hc0).mpr hlargest.start_eq,
      (lastLeaf_lt_firstLeaf_iff ht0 hl0).mpr hlargest.stop_le, fun d hd hstart hstop => ?_⟩
    have hd0 := ne_null_of_isValid hd
    rw [firstLeaf_eq_iff hd0 hc0] at hstart
    rw [lastLeaf_lt_firstLeaf_iff hd0 hl0] at hstop
    rw [contains?_eq_ok ht0, (contains_iff ht0 hd0).mpr
      ⟨(hlargest.start_eq.trans hstart.symm).le, hlargest.largest d hd hstart hstop⟩]

/-- The way up from the first leaf of a face before the end of a level, and the way down from a face
before the second of its children. -/
theorem largestTile_of_valid_face :
    let c : Cell := ⟨0x2000000000000001⟩
    let limit : Cell := ⟨0xc100000000000000⟩
    let c' : Cell := ⟨0x1000000000000000⟩
    let limit' : Cell := ⟨0x0c00000000000000⟩
    ((c.isValid = true ∧ end? 2 = .ok limit) ∧ c'.isValid = true ∧ limit'.isValid = true) ∧
      c.largestTile limit = .ok ⟨0x3000000000000000⟩ ∧
      (∀ d : Cell, d.isValid = true → d.firstLeaf = c.firstLeaf → d.lastLeaf < limit.firstLeaf →
        (⟨0x3000000000000000⟩ : Cell).contains? d = .ok true) ∧
      c'.largestTile limit' = .ok (c'.child 0) ∧ limit'.largestTile c' = .ok c' := by
  intro c limit c' limit'
  have hvalid : (c.isValid = true ∧ end? 2 = .ok limit) ∧ c'.isValid = true ∧
      limit'.isValid = true := by decide
  obtain ⟨⟨hc, hend⟩, hc', hlimit'⟩ := hvalid
  obtain ⟨t, ht, _, _, _, hlargest⟩ :=
    (largestTile_of_valid c limit hc (Or.inr ⟨2, by decide, hend⟩)).2 (by decide)
  have hface : c.largestTile limit = .ok ⟨0x3000000000000000⟩ := by decide +kernel
  obtain rfl := Except.ok.inj (hface.symm.trans ht)
  obtain ⟨hempty, _⟩ := largestTile_of_valid limit' c' hlimit' (Or.inl hc')
  exact ⟨⟨⟨hc, hend⟩, hc', hlimit'⟩, hface, hlargest, by decide +kernel, hempty (by decide)⟩

end Cell

/-! ## Runs of tiles -/

/-- The cells lie side by side from `lo` to `hi`, each the largest one where it begins. -/
inductive Tiled (hi : Nat) : Nat → List Cell → Prop
  | nil : Tiled hi hi []
  | cons {c : Cell} {cells : List Cell} (hc : IsLargest c.start hi c)
      (hcells : Tiled hi c.stop cells) : Tiled hi c.start (c :: cells)

namespace Tiled

theorem forall_mem (h : Tiled hi lo cells) :
    ∀ c ∈ cells, IsLargest c.start hi c ∧ lo ≤ c.start := by
  induction h with
  | nil => simp
  | @cons c cells hc _ ih =>
    intro d hd
    rcases List.mem_cons.mp hd with rfl | hd
    · exact ⟨hc, Nat.le_refl _⟩
    · have := start_le_stop c
      obtain ⟨hlargest, hle⟩ := ih d hd
      exact ⟨hlargest, by omega⟩

theorem separated (h : Tiled hi lo cells) : Separated cells := by
  induction h with
  | nil => exact ⟨by simp, .nil⟩
  | @cons c cells hc hcells ih =>
    have hbehind : ∀ d ∈ cells, c.Before d := fun d hd => (hcells.forall_mem d hd).2
    exact ⟨List.forall_mem_cons.mpr ⟨ne_null_of_isValid hc.valid, ih.ne_null⟩,
      List.pairwise_cons.mpr ⟨hbehind, ih.pairwise⟩⟩

/-- **Tiles are canonical.**  The first child of a cell with all its children among the tiles would
not be the largest one. -/
theorem isCanonical (h : Tiled hi lo cells) : IsCanonical cells := by
  refine ⟨fun c hc => (h.forall_mem c hc).1.valid, h.separated.isNormal fun p hp hl => ?_⟩
  by_contra hall
  push Not at hall
  obtain ⟨m, q, _, hat, _⟩ := exists_at_of_not_isLeaf hp hl
  obtain ⟨hstart, hstop, hsize⟩ := hat.child_bounds (i := 0) (by omega)
  obtain ⟨_, hend, _⟩ := hat.child_bounds (i := 3) (by omega)
  have hfirst := (h.forall_mem _ (hall 0 (by omega))).1
  have hlast := (h.forall_mem _ (hall 3 (by omega))).1.stop_le
  have := hfirst.largest p hp (by omega) (by omega)
  have := Nat.two_pow_pos (2 * m)
  omega

theorem hasLeaf_iff (h : Tiled hi lo cells) (hhi : hi % 2 = 0) (x : UInt64) :
    HasLeaf cells x ↔ x.toNat % 2 = 1 ∧ lo < x.toNat ∧ x.toNat < hi := by
  induction h with
  | nil =>
    refine iff_of_false (hasLeaf_nil x) ?_
    omega
  | @cons c cells hc hcells ih =>
    have hb := range_bounds (ne_null_of_isValid hc.valid)
    have hle := hc.stop_le
    rw [hasLeaf_cons, Cell.hasLeaf_iff (ne_null_of_isValid hc.valid), ih]
    omega

end Tiled

namespace Cover

theorem tiles_spec (hat : c.At (2 * m) q) (hm : m ≤ leafLevel) (hlimit : limit.At 0 e)
    (he : 2 * e ≤ 6 * 2 ^ 61) (hstart : c.start ≤ 2 * e) :
    ∃ cells, tiles limit c = .ok cells ∧ Tiled (2 * e) c.start cells := by
  -- the induction is on the length of the run that is left
  induction hn : 2 * e - c.start using Nat.strong_induction_on generalizing c m q with
  | _ n ih =>
    have hlstart : limit.start = 2 * e := by
      rw [hlimit.start_eq, Nat.pow_zero, Nat.mul_one]
    obtain ⟨hempty, hrun⟩ := largestTile_spec hat.ne_null hlimit.ne_null fun hlt =>
      hat.isValid_of_start_lt hm (by omega)
    rw [hlstart] at hempty hrun
    rw [tiles]
    rcases Nat.lt_or_ge c.start (2 * e) with hlt | hge
    · obtain ⟨d, hd, hlargest⟩ := hrun hlt
      obtain ⟨k, r, hk, hdat, _⟩ := isValid_iff.mp hlargest.valid
      have hb := range_bounds hdat.ne_null
      have hnext := hdat.next hlargest.valid
      have hbehind : d.next.start = d.stop := by
        rw [hnext.start_eq, hdat.stop_eq]
        ring
      have hne : d ≠ limit := by
        rintro rfl
        have := hlargest.start_eq
        omega
      have hstep : c.firstLeaf.word < d.next.firstLeaf.word := by
        have hfirst := toNat_firstLeaf hat.ne_null
        have hnfirst := toNat_firstLeaf hnext.ne_null
        have := hlargest.start_eq
        rw [UInt64.lt_iff_toNat_lt]
        omega
      have hle := hlargest.stop_le
      have hbegin := hlargest.start_eq
      obtain ⟨cells, hcells, htiled⟩ := ih _ (by omega) hnext hk (by omega) rfl
      rw [hbehind] at htiled
      rw [← hbegin] at hlargest
      refine ⟨d :: cells, ?_, hbegin ▸ .cons hlargest htiled⟩
      rw [hd]
      simp only [if_neg hne, if_pos hstep, hcells]
      rfl
    · rw [hempty hge]
      refine ⟨[], by simp, ?_⟩
      rw [Nat.le_antisymm hstart hge]
      exact .nil

end Cover

end QuadSphere
