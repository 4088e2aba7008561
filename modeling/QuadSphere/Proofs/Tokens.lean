import Mathlib.Data.List.DropRight
import QuadSphere.Cell.Token
import QuadSphere.Proofs.Range

/-!
# Tokens

Sixteen digits write a word, four bits each, so the digits of a multiple of `16 ^ j` end with `j`
zeros (`digits_mul`), and a word whose lowest bit stands in place `k` is an odd multiple of `2 ^ k`
and has `k / 4` of them.  These are the zeros that a token leaves out, and reading puts back as many
as are missing to sixteen.  Digits of either case are read, so a number has several spellings;
written again it has the one in lower case that does not end with a zero.

* `exists_value?`, `value?_digits`: digits as they are read, and as they are written.
* `exists_token_eq`: the digits of a word without the zeros at the end.
* `ofToken_of_value?`: what the digits of a number are read as.
* `tokens_round_trip`: every word is read back, and every text is a spelling or is refused.
-/

namespace QuadSphere

namespace Hex

/-- The characters that are hexadecimal digits. -/
def alphabet : List Char :=
  "0123456789abcdefABCDEF".toList

variable {cs : List Char} {ch : Char} {j k n v : Nat}

/-! ## Digits that are read -/

theorem exists_digitValue? (h : ch ∈ alphabet) :
    ∃ v < 16, digitValue? ch = some v ∧ digit v = ch.toLower := by
  have hall : alphabet.all fun ch =>
      (digitValue? ch).any fun v => v < 16 && digit v == ch.toLower := by decide
  obtain ⟨v, hread, hv⟩ := (Option.any_eq_true _ _).mp (List.all_eq_true.mp hall ch h)
  simp only [Bool.and_eq_true, decide_eq_true_eq, beq_iff_eq] at hv
  exact ⟨v, hv.1, hread, hv.2⟩

theorem toLower_eq_zero_iff (h : ch ∈ alphabet) : ch.toLower = '0' ↔ ch = '0' := by
  have hall : alphabet.all fun ch => decide (ch.toLower = '0' ↔ ch = '0') := by decide
  exact of_decide_eq_true (List.all_eq_true.mp hall ch h)

theorem mem_alphabet_of_digitValue? (h : digitValue? ch = some v) : ch ∈ alphabet := by
  -- no digit is behind `f`, so the characters up to it are all that have to be looked at
  have hupto : ∀ n < 103, digitValue? (Char.ofNat n) ≠ none → Char.ofNat n ∈ alphabet := by decide
  have hread := hupto ch.toNat
  rw [Char.ofNat_toNat, h] at hread
  refine hread ?_ (Option.some_ne_none v)
  by_contra hbehind
  have hnot : ∀ d : Char, d.toNat < 103 → ¬ch ≤ d := fun d hd hle =>
    hbehind (Nat.lt_of_le_of_lt hle hd)
  simp [digitValue?, hnot] at h

theorem value?_concat (cs : List Char) (ch : Char) :
    value? (cs ++ [ch]) = (value? cs).bind fun n => (digitValue? ch).map (16 * n + ·) := by
  simp [value?, List.foldlM_append]

theorem mem_alphabet_of_value? (h : value? cs = some n) : ∀ ch ∈ cs, ch ∈ alphabet := by
  induction cs using List.reverseRecOn generalizing n with
  | nil => simp
  | append_singleton cs d ih =>
    rw [value?_concat, Option.bind_eq_some_iff] at h
    obtain ⟨m, hm, hd⟩ := h
    obtain ⟨v, hv, _⟩ := Option.map_eq_some_iff.mp hd
    intro ch hch
    rcases List.mem_append.mp hch with hch | hch
    · exact ih hm ch hch
    · rw [List.mem_singleton.mp hch]
      exact mem_alphabet_of_digitValue? hv

/-- **Digits of either case are read** as the number that is written with them in lower case. -/
theorem exists_value? (h : ∀ ch ∈ cs, ch ∈ alphabet) :
    ∃ n < 16 ^ cs.length, value? cs = some n ∧ digits cs.length n = cs.map Char.toLower := by
  induction cs using List.reverseRecOn with
  | nil => exact ⟨0, by decide, rfl, rfl⟩
  | append_singleton cs d ih =>
    obtain ⟨hcs, hd⟩ := List.forall_mem_append.mp h
    obtain ⟨n, hn, hread, hwritten⟩ := ih hcs
    obtain ⟨v, hv, hdv, hlower⟩ := exists_digitValue? (hd d (List.mem_singleton_self d))
    refine ⟨16 * n + v, ?_, ?_, ?_⟩
    · rw [List.length_append, List.length_singleton, Nat.pow_succ]
      omega
    · rw [value?_concat, hread, Option.bind_some, hdv]
      rfl
    · rw [List.length_append, List.length_singleton, digits, show (16 * n + v) / 16 = n by omega,
        show (16 * n + v) % 16 = v by omega, hwritten, hlower, List.map_append]
      rfl

/-! ## Digits that are written -/

theorem value?_digits (h : n < 16 ^ k) : value? (digits k n) = some n := by
  induction k generalizing n with
  | zero =>
    obtain rfl : n = 0 := by simpa using h
    rfl
  | succ k ih =>
    rw [Nat.pow_succ] at h
    rw [digits, value?_concat, ih (by omega), Option.bind_some,
      digitValue?_digit _ (Nat.mod_lt _ (by omega)), Option.map_some, Nat.div_add_mod]

theorem digits_mul (k j n : Nat) :
    digits (k + j) (n * 16 ^ j) = digits k n ++ List.replicate j '0' := by
  induction j with
  | zero => simp
  | succ j ih =>
    rw [← Nat.add_assoc, digits, Nat.pow_succ, ← Nat.mul_assoc, Nat.mul_div_cancel _ (by omega),
      Nat.mul_mod_left, ih, List.append_assoc, List.replicate_succ']
    rfl

theorem word_eq {w : UInt64} (hk : k + j = 16) (h : w.toNat = n * 16 ^ j) :
    word w = digits k n ++ List.replicate j '0' := by
  have hdigits := digits_mul k j n
  rw [hk, ← h] at hdigits
  exact hdigits

theorem digits_zero (k : Nat) : digits k 0 = List.replicate k '0' := by
  simpa [digits] using digits_mul 0 k 0

theorem digits_inj {m : Nat} (hm : m < 16 ^ k) (hn : n < 16 ^ k) (h : digits k m = digits k n) :
    m = n := by
  have hread := value?_digits hm
  rw [h, value?_digits hn] at hread
  exact (Option.some.inj hread).symm

theorem eq_zero_iff (h : ∀ ch ∈ cs, ch ∈ alphabet) (hread : value? cs = some n) :
    n = 0 ↔ cs.all (· = '0') = true := by
  obtain ⟨m, hm, hread', hlower⟩ := exists_value? h
  obtain rfl : n = m := Option.some.inj (hread.symm.trans hread')
  calc n = 0 ↔ digits cs.length n = digits cs.length 0 :=
        ⟨congrArg _, digits_inj hm (Nat.pow_pos (by omega))⟩
    _ ↔ cs.map Char.toLower = List.replicate cs.length '0' := by rw [hlower, digits_zero]
    _ ↔ ∀ ch ∈ cs, ch.toLower = '0' := by
        rw [List.eq_replicate_iff, List.length_map, and_iff_right rfl, List.forall_mem_map]
    _ ↔ ∀ ch ∈ cs, ch = '0' := forall₂_congr fun ch hch => toLower_eq_zero_iff (h ch hch)
    _ ↔ cs.all (· = '0') = true := by simp only [List.all_eq_true, decide_eq_true_eq]

theorem rdropWhile_append_replicate (cs : List Char) (j : Nat) :
    (cs ++ List.replicate j '0').rdropWhile (· = '0') = cs.rdropWhile (· = '0') := by
  induction j with
  | zero => simp
  | succ j ih =>
    rw [List.replicate_succ', ← List.append_assoc, List.rdropWhile_concat_pos _ _ _ (by simp), ih]

/-- The last digit is not a zero, so none is left out. -/
theorem rdropWhile_digits (h : n % 16 ≠ 0) :
    (digits (k + 1) n).rdropWhile (· = '0') = digits (k + 1) n := by
  have hdigit : ∀ v < 16, v ≠ 0 → digit v ≠ '0' := by decide
  refine List.rdropWhile_concat_neg _ _ _ ?_
  simpa using hdigit _ (Nat.mod_lt n (by omega)) h

end Hex

namespace Cell

variable {c : Cell} {t : String} {n : Nat}

/-! ## What is written -/

/-- **The digits of a word** without the zeros at the end, of which there is one for every four
zeros below the marker. -/
theorem exists_token_eq (h : c ≠ null) :
    ∃ k j m, k + 1 + j = 16 ∧ m < 16 ^ (k + 1) ∧ m % 16 ≠ 0 ∧ c.word.toNat = m * 16 ^ j ∧
      c.token = String.ofList (Hex.digits (k + 1) m) := by
  obtain ⟨i, q, hat⟩ := exists_at h
  have hi := hat.lt
  obtain ⟨k, hk⟩ : ∃ k, k + 1 + i / 4 = 16 := ⟨15 - i / 4, by omega⟩
  have hword : c.word.toNat = (2 * q + 1) * 2 ^ (i % 4) * 16 ^ (i / 4) := by
    rw [hat, Nat.mul_assoc, show 16 ^ (i / 4) = 2 ^ (4 * (i / 4)) from (Nat.pow_mul 2 4 _).symm,
      ← Nat.pow_add, Nat.mod_add_div]
  generalize hm : (2 * q + 1) * 2 ^ (i % 4) = m at hword
  have hlast : m % 16 ≠ 0 := by
    have hr : i % 4 < 4 := Nat.mod_lt _ (by omega)
    rw [← hm]
    generalize i % 4 = r at hr
    interval_cases r <;> omega
  have hlt : m < 16 ^ (k + 1) := by
    have hall := c.word.toNat_lt
    have hwidth : 2 ^ 64 = 16 ^ (k + 1) * 16 ^ (i / 4) := by rw [← Nat.pow_add, hk]; rfl
    rw [hword, hwidth] at hall
    exact Nat.lt_of_mul_lt_mul_right hall
  refine ⟨k, i / 4, m, hk, hlt, hlast, hword, ?_⟩
  rw [token, if_neg (word_ne_zero h), hat.trailingZeros_eq, Hex.word_eq hk hword,
    List.take_left' (by rw [Hex.length_digits]; omega)]

theorem token_eq (h : c ≠ null) :
    c.token = String.ofList ((Hex.word c.word).rdropWhile (· = '0')) := by
  obtain ⟨k, j, m, hk, _, hlast, hword, htoken⟩ := exists_token_eq h
  rw [htoken, Hex.word_eq hk hword, Hex.rdropWhile_append_replicate, Hex.rdropWhile_digits hlast]

/-! ## What is read -/

theorem ofToken_of_value? (h : Hex.value? t.toList = some n) (hlt : n < 16 ^ t.length)
    (hpos : 1 ≤ t.length) (hlen : t.length ≤ 16) :
    ∃ c, ofToken t = .ok c ∧ c.word.toNat = n * 16 ^ (16 - t.length) := by
  have hX : t ≠ "X" := by
    rintro rfl
    exact Option.some_ne_none n h.symm
  refine ⟨⟨UInt64.ofNat (n <<< (4 * (16 - t.length)))⟩, ?_, ?_⟩
  · rw [ofToken, if_neg hX]
    simp only [h, String.length_toList, hpos, hlen, and_self, if_true]
  · have hfit : n * 16 ^ (16 - t.length) < UInt64.size := by
      calc n * 16 ^ (16 - t.length) < 16 ^ t.length * 16 ^ (16 - t.length) :=
            Nat.mul_lt_mul_of_pos_right hlt (Nat.pow_pos (by omega))
        _ = UInt64.size := by rw [← Nat.pow_add, Nat.add_sub_cancel' hlen]
    rw [Nat.shiftLeft_eq, Nat.pow_mul]
    exact UInt64.toNat_ofNat_of_lt' hfit

/-- A text that tokens are read from: the letter `X`, or one to sixteen hexadecimal digits. -/
def IsToken (t : String) : Prop :=
  t = "X" ∨ 1 ≤ t.length ∧ t.length ≤ 16 ∧ t.toList ⊆ Hex.alphabet

instance (t : String) : Decidable (IsToken t) :=
  inferInstanceAs (Decidable (_ ∨ _ ∧ _ ∧ _))

/-- The spelling of a token that is written: lower case, without the zeros at the end, and `X` where
nothing else would be left. -/
def spelling (t : String) : String :=
  if t = "X" ∨ t.toList.all (· = '0') then "X"
  else String.ofList ((t.toList.map Char.toLower).rdropWhile (· = '0'))

theorem ofToken_token (c : Cell) : ofToken c.token = .ok c := by
  by_cases h : c = null
  · subst h
    rfl
  · obtain ⟨k, j, m, hk, hm, _, hword, htoken⟩ := exists_token_eq h
    have hlen : c.token.length = k + 1 := by
      rw [htoken, String.length_ofList, Hex.length_digits]
    have hread : Hex.value? c.token.toList = some m := by
      rw [htoken, String.toList_ofList, Hex.value?_digits hm]
    obtain ⟨d, hd, hdw⟩ := ofToken_of_value? hread (by rw [hlen]; exact hm) (by omega) (by omega)
    rw [hd]
    congr 1
    apply ext_toNat
    rw [hdw, hword, hlen, show 16 - (k + 1) = j by omega]

/-- **What is read from a token is written in its spelling.** -/
theorem token_of_isToken (h : IsToken t) : ∃ c, ofToken t = .ok c ∧ c.token = spelling t := by
  rcases h with rfl | ⟨hpos, hlen, hdigits⟩
  · exact ⟨null, rfl, rfl⟩
  obtain ⟨n, hn, hread, hlower⟩ := Hex.exists_value? hdigits
  rw [String.length_toList] at hn hlower
  obtain ⟨c, hc, hword⟩ := ofToken_of_value? hread hn hpos hlen
  have hzero := Hex.eq_zero_iff hdigits hread
  have hnull : c = null ↔ n = 0 := by
    have hpow : 16 ^ (16 - t.length) ≠ 0 := Nat.pow_pos (by omega) |>.ne'
    constructor
    · rintro rfl
      exact (Nat.mul_eq_zero.mp hword.symm).resolve_right hpow
    · rintro rfl
      exact ext_toNat (hword.trans (Nat.zero_mul _))
  refine ⟨c, hc, ?_⟩
  by_cases h0 : c = null
  · rw [spelling, if_pos (Or.inr (hzero.mp (hnull.mp h0))), h0]
    rfl
  · have hkeep : ¬(t = "X" ∨ t.toList.all (· = '0') = true) := by
      rintro (rfl | hall)
      · exact Option.some_ne_none n hread.symm
      · exact h0 (hnull.mpr (hzero.mpr hall))
    rw [spelling, if_neg hkeep, token_eq h0, Hex.word_eq (Nat.add_sub_cancel' hlen) hword,
      Hex.rdropWhile_append_replicate, hlower]

theorem ofToken_of_not_isToken (h : ¬IsToken t) : ofToken t = .error (.invalidToken t) := by
  rw [IsToken, not_or] at h
  obtain ⟨hX, hdigits⟩ := h
  rw [ofToken, if_neg hX]
  dsimp only
  cases hread : Hex.value? t.toList with
  | none => rfl
  | some n =>
    refine if_neg fun hlen => hdigits ?_
    rw [String.length_toList] at hlen
    exact ⟨hlen.1, hlen.2, Hex.mem_alphabet_of_value? hread⟩

/-- **Tokens and words.**  Every word, whether it is a cell or not, is read back from its token.  A
text is read if it is the letter `X` or has one to sixteen digits, and is refused, with the text
itself, if not; and what is read is written again in the spelling of the text. -/
theorem tokens_round_trip :
    (∀ c : Cell, ofToken c.token = .ok c) ∧
    ∀ t : String, ((∃ c, ofToken t = .ok c) ↔ IsToken t) ∧
      (¬IsToken t → ofToken t = .error (.invalidToken t)) ∧
      ∀ c, ofToken t = .ok c → c.token = spelling t := by
  refine ⟨ofToken_token, fun t => ⟨⟨?_, ?_⟩, ofToken_of_not_isToken, ?_⟩⟩
  · rintro ⟨c, hc⟩
    by_contra hnot
    rw [ofToken_of_not_isToken hnot] at hc
    cases hc
  · intro h
    obtain ⟨c, hc, _⟩ := token_of_isToken h
    exact ⟨c, hc⟩
  · intro c hc
    by_cases h : IsToken t
    · obtain ⟨d, hd, htoken⟩ := token_of_isToken h
      obtain rfl : c = d := Except.ok.inj (hc.symm.trans hd)
      exact htoken
    · rw [ofToken_of_not_isToken h] at hc
      cases hc

/-- A spelling with capitals and with zeros on both sides, and a text with a sign. -/
theorem tokens_round_trip_capitals :
    IsToken "07F0" ∧ ¬IsToken "+7" ∧
      (∃ c, ofToken "07F0" = .ok c ∧ c.token = "07f" ∧ ofToken "07f" = .ok c) ∧
      ofToken "+7" = .error (.invalidToken "+7") := by
  obtain ⟨hback, hread⟩ := tokens_round_trip
  have hyes : IsToken "07F0" := by decide
  have hno : ¬IsToken "+7" := by decide
  obtain ⟨c, hc⟩ := (hread "07F0").1.mpr hyes
  have htoken : c.token = "07f" := ((hread "07F0").2.2 c hc).trans (by decide)
  exact ⟨hyes, hno, ⟨c, hc, htoken, htoken ▸ hback c⟩, (hread "+7").2.1 hno⟩

end Cell

end QuadSphere
