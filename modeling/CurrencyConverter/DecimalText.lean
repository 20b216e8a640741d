import Mathlib.Data.Rat.Floor
import Mathlib.Data.List.Basic
import Mathlib.Algebra.Order.Ring.Rat
import Mathlib.Tactic.Positivity

/-! Decimal numerals in text over exact rationals: reading the longest numeral a text
begins with, and writing a number with two decimals. -/
namespace DecimalText

def digitsValue (digits : List Char) : ℕ :=
  digits.foldl (fun n c => 10*n+(c.toNat - '0'.toNat)) 0

def isBlank (c : Char) : Bool := c == ' ' || c == '\t' || c == '\n' || c == '\r'

/-- A leading sign, and the text after it. -/
def sign : List Char → Bool × List Char
  | '-' :: text => (true, text)
  | '+' :: text => (false, text)
  | text => (false, text)

/-- `e` or `E` with signed digits; anything else is an exponent of zero. -/
def exponent : List Char → Bool × ℕ
  | [] => (false, 0)
  | c :: text =>
    -- whatever else follows the mantissa ends the numeral
    if c = 'e' ∨ c = 'E' then
      ((sign text).1, digitsValue ((sign text).2.takeWhile Char.isDigit))
    else (false, 0)

/-- The digits after a decimal point, and the text after them. -/
def fraction : List Char → List Char × List Char
  | '.' :: text => (text.takeWhile Char.isDigit, text.dropWhile Char.isDigit)
  | text => ([], text)

/-- The unsigned numeral at the head of the text; no digits at all read as zero. -/
def magnitude (text : List Char) : ℚ :=
  let whole := text.takeWhile Char.isDigit
  let decimals := fraction (text.dropWhile Char.isDigit)
  let power := exponent decimals.2
  let mantissa : ℚ := digitsValue (whole ++ decimals.1) / 10^decimals.1.length
  if power.1 then mantissa / 10^power.2 else mantissa * 10^power.2

/-- `floatValue`: blanks, an optional sign, then the longest numeral. -/
def floatValue (text : List Char) : ℚ :=
  let signed := sign (text.dropWhile isBlank)
  if signed.1 then -magnitude signed.2 else magnitude signed.2

theorem magnitude_nonneg (text : List Char) : 0 ≤ magnitude text := by
  dsimp only [magnitude]
  split <;> positivity

theorem sign_of_no_minus {text : List Char} (h : '-' ∉ text) : (sign text).1 = false := by
  unfold sign
  split
  · simp at h
  · rfl
  · rfl

/-- Without a minus sign no text reads as a negative number. -/
theorem floatValue_nonneg {text : List Char} (h : '-' ∉ text) : 0 ≤ floatValue text := by
  have hs : (sign (text.dropWhile isBlank)).1 = false := by
    apply sign_of_no_minus
    intro hm
    exact h ((List.dropWhile_sublist _).subset hm)
  simp only [floatValue, hs, Bool.false_eq_true, ↓reduceIte]
  exact magnitude_nonneg _

theorem takeWhile_isDigit_of_none {text : List Char} (h : ∀ c ∈ text, c.isDigit = false) :
    text.takeWhile Char.isDigit = [] := by
  cases text with
  | nil => rfl
  | cons c text => simp [h c List.mem_cons_self]

theorem fraction_of_no_digit {text : List Char} (h : ∀ c ∈ text, c.isDigit = false) :
    (fraction text).1 = [] := by
  unfold fraction
  split
  · apply takeWhile_isDigit_of_none
    intro c hc
    exact h c (List.mem_cons_of_mem _ hc)
  · rfl

theorem sign_subset (text : List Char) : (sign text).2 ⊆ text := by
  unfold sign
  split
  · exact List.subset_cons_self _ _
  · exact List.subset_cons_self _ _
  · exact List.Subset.refl _

/-- A text without digits reads as zero. -/
theorem floatValue_of_no_digit {text : List Char} (h : ∀ c ∈ text, c.isDigit = false) :
    floatValue text = 0 := by
  let rest := (sign (text.dropWhile isBlank)).2
  have hrest : ∀ c ∈ rest, c.isDigit = false := by
    intro c hc
    exact h c ((List.dropWhile_sublist _).subset (sign_subset _ hc))
  have hzero : magnitude rest = 0 := by
    have hw := takeWhile_isDigit_of_none hrest
    have hf : (fraction (rest.dropWhile Char.isDigit)).1 = [] := by
      apply fraction_of_no_digit
      intro c hc
      exact hrest c ((List.dropWhile_sublist _).subset hc)
    simp [magnitude, hw, hf, digitsValue]
  change (if (sign (text.dropWhile isBlank)).1 then -magnitude rest else magnitude rest) = 0
  rw [hzero, neg_zero, ite_self]

/-- Nearest integer, ties to the even one. -/
def roundHalfEven (q : ℚ) : ℤ :=
  let below := ⌊q⌋
  let excess := q-below
  if excess < 1/2 then below
  else if 1/2 < excess then below+1
  else if below%2 = 0 then below
  else below+1

/-- `%.2f`: a negative number keeps its sign even when it rounds to zero. -/
def twoDecimals (q : ℚ) : List Char :=
  let cents := (roundHalfEven (|q| * 100)).toNat
  let digits := Nat.toDigits 10 (cents/100) ++
    ['.', Nat.digitChar (cents/10%10), Nat.digitChar (cents%10)]
  if q < 0 then '-' :: digits else digits

end DecimalText
