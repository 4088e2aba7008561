import QuadSphere.Cell.Basic
import QuadSphere.Json.Reader

/-!
# Cells in JSON

A cell is the number that its word is, whether or not the word is valid.  A number is written in
decimal digits, the first of which is a zero for zero alone, so that it reads back.
-/

namespace QuadSphere

namespace Json

theorem isDigit_of_mem_toDigits {n : Nat} {c : Char} (h : c ∈ Nat.toDigits 10 n) :
    c.isDigit = true :=
  Nat.isDigit_of_mem_toDigits (by decide) (by decide) h

theorem toDigits_ne_cons {n : Nat} {c : Char} {ds : List Char} (hc : c.isDigit = false) :
    Nat.toDigits 10 n ≠ c :: ds := fun h =>
  Bool.false_ne_true (hc.symm.trans (isDigit_of_mem_toDigits (h ▸ List.mem_cons_self)))

theorem eq_zero_of_toDigits {n : Nat} {ds : List Char} (h : Nat.toDigits 10 n = '0' :: ds) :
    n = 0 := by
  induction n using Nat.strongRecOn generalizing ds with
  | _ n ih =>
    by_cases hlt : n < 10
    · rw [Nat.toDigits_of_lt_base hlt] at h
      rw [← Nat.toNat_digitChar_sub_48_of_lt_ten hlt, (List.cons.inj h).1]
      rfl
    · rw [Nat.toDigits_of_base_le (by decide) (Nat.le_of_not_lt hlt)] at h
      cases hq : Nat.toDigits 10 (n / 10) with
      | nil => exact absurd hq Nat.toDigits_ne_nil
      | cons c cs =>
        rw [hq, List.cons_append] at h
        obtain ⟨rfl, -⟩ := List.cons.inj h
        have := ih (n / 10) (by omega) hq
        omega

theorem natBelow?_toDigits {n bound : Nat} (h : n < bound) :
    (Value.number (Nat.toDigits 10 n)).natBelow? bound = some n := by
  have hall : (Nat.toDigits 10 n).all Char.isDigit = true :=
    List.all_eq_true.mpr fun _ => isDigit_of_mem_toDigits
  have hvalue : (Nat.toDigits 10 n).foldl (fun n c => 10 * n + (c.toNat - 48)) 0 = n :=
    Nat.ofDigitChars_ten_toDigits
  rw [Value.natBelow?, if_pos hall, hvalue]
  exact if_pos h

theorem digits?_toDigits (n : Nat) :
    digits? (Nat.toDigits 10 n) = some (Nat.toDigits 10 n, []) := by
  have hdigits : ∀ c ∈ Nat.toDigits 10 n, c.isDigit = true := fun _ => isDigit_of_mem_toDigits
  have htake : (Nat.toDigits 10 n ++ []).takeWhile Char.isDigit = Nat.toDigits 10 n ++ [] :=
    List.takeWhile_append_of_pos hdigits
  have hdrop : (Nat.toDigits 10 n ++ []).dropWhile Char.isDigit = [] :=
    List.dropWhile_append_of_pos hdigits
  rw [List.append_nil] at htake hdrop
  rw [digits?, htake, hdrop]
  split
  · exact absurd ‹_› Nat.toDigits_ne_nil
  · rfl

theorem integer?_toDigits (n : Nat) :
    integer? (Nat.toDigits 10 n) = some (Nat.toDigits 10 n, []) := by
  by_cases hn : n = 0
  · rw [hn]
    rfl
  · rw [integer?, digits?_toDigits]
    exact fun ds hds => hn (eq_zero_of_toDigits hds)

theorem number?_toDigits (n : Nat) :
    number? (Nat.toDigits 10 n) = some (Nat.toDigits 10 n, []) := by
  rw [number?, integer?_toDigits]
  · simp [fraction?, exponent?]
  · exact fun ds => toDigits_ne_cons rfl

theorem skipBlanks_toDigits (n : Nat) : skipBlanks (Nat.toDigits 10 n) = Nat.toDigits 10 n := by
  cases h : Nat.toDigits 10 n with
  | nil => rfl
  | cons c cs =>
    refine List.dropWhile_cons_of_neg fun hblank => ?_
    simp only [isBlank, Bool.or_eq_true, decide_eq_true_eq] at hblank
    rcases hblank with ((rfl | rfl) | rfl) | rfl <;> exact toDigits_ne_cons rfl h

theorem value?_toDigits (depth n : Nat) :
    value? (depth + 1) (Nat.toDigits 10 n) = some (.number (Nat.toDigits 10 n), []) := by
  rw [value?, skipBlanks_toDigits]
  -- All values but numbers start with a character that is no digit.
  split
  case h_7 => rw [number?_toDigits]; rfl
  all_goals exact absurd ‹_› (toDigits_ne_cons rfl)

theorem parse?_toString (n : Nat) : parse? (toString n) = some (.number (Nat.toDigits 10 n)) := by
  rw [parse?, Nat.toString_eq_ofList_toDigits, String.toList_ofList, value?_toDigits]
  rfl

end Json

namespace Cell

def toJson (c : Cell) : String :=
  toString c.word.toNat

def ofJson? (s : String) : Option Cell := do
  let v ← Json.parse? s
  return ⟨UInt64.ofNat (← v.natBelow? UInt64.size)⟩

/-- **A cell reads back from what is written for it**, whether or not it is valid. -/
theorem ofJson?_toJson (c : Cell) : ofJson? c.toJson = some c := by
  have hword := Json.natBelow?_toDigits c.word.toNat_lt_size
  rw [ofJson?, toJson, Json.parse?_toString]
  simp [hword]

end Cell

end QuadSphere
