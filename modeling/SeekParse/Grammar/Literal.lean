/-!
# Integer literals

A literal is a run of decimal digits, of any length and with any number of zeros in front. It stands
for its value if that fits in 64 bits, and for nothing otherwise.

The value is built up digit by digit, in a word of that width, and given up as soon as a product or
a sum would exceed the word. Digits only ever make a value larger, so giving up early is giving up
exactly when the whole run does not fit (`ofDigits?_eq`), and no word ever wraps.
-/

namespace SeekParse

namespace Literal

/-- Whether a byte is a decimal digit. -/
def isDigit (byte : UInt8) : Bool := 0x30 ≤ byte && byte ≤ 0x39

/-- What a digit counts. -/
def digitValue (byte : UInt8) : Nat := byte.toNat - 0x30

/-- The width of a literal. -/
def bits : Nat := 64

/-- The largest value that a literal can have. -/
def largest : Nat := Nat.pow 2 bits - 1

/-- The value of a run of digits, however large. -/
def value (digits : List UInt8) : Nat :=
  digits.foldl (fun v digit => v * 10 + digitValue digit) 0

/-- The product of two words, if that is a word. -/
def mul? (a b : UInt64) : Option UInt64 :=
  if a.toNat * b.toNat ≤ largest then some (a * b) else none

/-- The sum of two words, if that is a word. -/
def add? (a b : UInt64) : Option UInt64 :=
  if a.toNat + b.toNat ≤ largest then some (a + b) else none

/-- One more digit after a value, if nothing on the way exceeds a word. -/
def push? (v : UInt64) (digit : UInt8) : Option UInt64 :=
  (mul? v 10).bind (add? · (UInt64.ofNat (digitValue digit)))

/-- The value of a run of digits, if it fits. -/
def ofDigits? (digits : List UInt8) : Option UInt64 :=
  digits.foldlM push? 0

theorem largest_eq : largest = 18446744073709551615 := rfl

theorem le_foldl (v : Nat) (digits : List UInt8) :
    v ≤ digits.foldl (fun v digit => v * 10 + digitValue digit) v := by
  induction digits generalizing v with
  | nil => exact Nat.le_refl v
  | cons digit digits ih => exact Nat.le_trans (by omega) (ih (v * 10 + digitValue digit))

/-- What a word stands for is a value that fits. -/
theorem toNat_le_largest (v : UInt64) : v.toNat ≤ largest :=
  Nat.le_of_lt_succ v.toNat_lt

theorem toNat_ofNat_digitValue (digit : UInt8) :
    (UInt64.ofNat (digitValue digit)).toNat = digitValue digit := by
  have hbyte := digit.toNat_lt
  have hsize : 256 ≤ UInt64.size := by decide
  refine UInt64.toNat_ofNat_of_lt' ?_
  rw [digitValue]
  omega

theorem mul?_eq (a b : UInt64) :
    mul? a b =
      if a.toNat * b.toNat ≤ largest then some (UInt64.ofNat (a.toNat * b.toNat)) else none := by
  rw [mul?, UInt64.ofNat_mul, UInt64.ofNat_toNat, UInt64.ofNat_toNat]

theorem add?_eq (a b : UInt64) :
    add? a b =
      if a.toNat + b.toNat ≤ largest then some (UInt64.ofNat (a.toNat + b.toNat)) else none := by
  rw [add?, UInt64.ofNat_add, UInt64.ofNat_toNat, UInt64.ofNat_toNat]

/-- Both checks together are one: what a product exceeds, a sum with it exceeds too. -/
theorem push?_eq (v : UInt64) (digit : UInt8) :
    push? v digit =
      if v.toNat * 10 + digitValue digit ≤ largest then
        some (UInt64.ofNat (v.toNat * 10 + digitValue digit))
      else none := by
  rw [push?, mul?_eq]
  by_cases hmul : v.toNat * 10 ≤ largest
  · have hword : (UInt64.ofNat (v.toNat * 10)).toNat = v.toNat * 10 :=
      UInt64.toNat_ofNat_of_lt' (Nat.lt_succ_of_le hmul)
    rw [if_pos (show v.toNat * (10 : UInt64).toNat ≤ largest from hmul)]
    show add? (UInt64.ofNat (v.toNat * 10)) _ = _
    rw [add?_eq, hword, toNat_ofNat_digitValue]
  · rw [if_neg (show ¬ v.toNat * (10 : UInt64).toNat ≤ largest from hmul),
      if_neg (fun hsum => hmul (Nat.le_trans (Nat.le_add_right _ _) hsum))]
    rfl

/-- To give up at the first digit too many is to give up where the whole run does not fit. -/
theorem foldlM_push? (v : UInt64) (digits : List UInt8) :
    digits.foldlM push? v =
      if digits.foldl (fun v digit => v * 10 + digitValue digit) v.toNat ≤ largest then
        some (UInt64.ofNat (digits.foldl (fun v digit => v * 10 + digitValue digit) v.toNat))
      else none := by
  induction digits generalizing v with
  | nil =>
    rw [List.foldlM_nil, List.foldl_nil, if_pos (toNat_le_largest v), UInt64.ofNat_toNat]
    rfl
  | cons digit digits ih =>
    rw [List.foldlM_cons, List.foldl_cons, push?_eq]
    by_cases h : v.toNat * 10 + digitValue digit ≤ largest
    · have hword : (UInt64.ofNat (v.toNat * 10 + digitValue digit)).toNat
          = v.toNat * 10 + digitValue digit := UInt64.toNat_ofNat_of_lt' (Nat.lt_succ_of_le h)
      rw [if_pos h]
      show digits.foldlM push? (UInt64.ofNat (v.toNat * 10 + digitValue digit)) = _
      rw [ih, hword]
    · have hle := le_foldl (v.toNat * 10 + digitValue digit) digits
      rw [if_neg h, if_neg (fun hf => h (Nat.le_trans hle hf))]
      rfl

/-- A run of digits stands for its value exactly if that fits. -/
theorem ofDigits?_eq (digits : List UInt8) :
    ofDigits? digits =
      if value digits ≤ largest then some (UInt64.ofNat (value digits)) else none :=
  foldlM_push? 0 digits

end Literal

end SeekParse
