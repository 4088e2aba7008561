/-!
# Hexadecimal digits

`digits k n` writes the low `k` digits of `n`, most significant first, in lower case.
`value?` reads digits of either case.
-/

namespace QuadSphere.Hex

/-- Digits from ten on are the lower-case letters `a` to `f`. -/
def digit (n : Nat) : Char :=
  if n < 10 then Char.ofNat (48 + n) else Char.ofNat (87 + n)

def digits : Nat → Nat → List Char
  | 0, _ => []
  | k + 1, n => digits k (n / 16) ++ [digit (n % 16)]

def digitValue? (c : Char) : Option Nat :=
  if '0' ≤ c ∧ c ≤ '9' then some (c.toNat - 48)
  else if 'a' ≤ c ∧ c ≤ 'f' then some (c.toNat - 87)
  else if 'A' ≤ c ∧ c ≤ 'F' then some (c.toNat - 55)
  else none

/-- The number that the digits write, if all of them are digits; no digit at all writes zero. -/
def value? (cs : List Char) : Option Nat :=
  cs.foldlM (fun n c => (digitValue? c).map (16 * n + ·)) 0

/-- All sixteen digits of a word. -/
def word (w : UInt64) : List Char :=
  digits 16 w.toNat

theorem length_digits (k n : Nat) : (digits k n).length = k := by
  induction k generalizing n with
  | zero => rfl
  | succ k ih => simp [digits, ih]

theorem digitValue?_digit : ∀ n < 16, digitValue? (digit n) = some n := by
  decide

theorem digit_eq_digitChar : ∀ n < 16, digit n = Nat.digitChar n := by
  decide

/-- Numbers that are written with one digit each can be read back. -/
theorem map_digitValue?_map_digit {ns : List Nat} (h : ∀ n ∈ ns, n < 16) :
    (ns.map digit).map digitValue? = ns.map some := by
  rw [List.map_map]
  exact List.map_congr_left fun n hn => digitValue?_digit n (h n hn)

theorem map_digit_inj {ns ks : List Nat} (hn : ∀ n ∈ ns, n < 16) (hk : ∀ k ∈ ks, k < 16)
    (h : ns.map digit = ks.map digit) : ns = ks := by
  have hread := congrArg (List.map digitValue?) h
  rw [map_digitValue?_map_digit hn, map_digitValue?_map_digit hk] at hread
  exact List.map_inj_right (fun _ _ => Option.some.inj) |>.mp hread

end QuadSphere.Hex
