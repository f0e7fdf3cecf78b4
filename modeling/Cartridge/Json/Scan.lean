import Cartridge.Error
import Cartridge.Text.Decimal

/-!
# The small parts of a JSON text

A scanner takes a text from where it is and gives what it read and the rest, or says how the text
fails there: it ends too early, or it is malformed.

* `skipBlanks`     the four blanks of the format;
* `expectWord`     the rest of `null`, `true` and `false`;
* `scanString`     the characters of a string, from behind its opening quote;
* `scanNumber`     the parts of a number, `Number`;
* `Number.natural?`    its value, if it is a natural number of 64 bits;
* `Number.isFinite`    whether its value is within the range of double-precision numbers.

Every scanner leaves less text than it found (`length_…`), which is why the readers built from them
come to an end.
-/

namespace Cartridge.Json

open Text (isDigit digitValue ofDecimal)

/-! ## blanks and words -/

def isBlank (c : Char) : Bool := c == ' ' || c == '\n' || c == '\t' || c == '\r'

def skipBlanks (text : List Char) : List Char := text.dropWhile isBlank

theorem length_skipBlanks (text : List Char) : (skipBlanks text).length ≤ text.length :=
  (List.dropWhile_sublist isBlank).length_le

def expectWord : (word text : List Char) → Except LayoutFault (List Char)
  | [], text => .ok text
  | _ :: _, [] => .error .endsEarly
  | w :: word, c :: text => if c = w then expectWord word text else .error .malformed

theorem length_expectWord {word text rest : List Char} (h : expectWord word text = .ok rest) :
    rest.length ≤ text.length := by
  induction word generalizing text with
  | nil => cases h; exact Nat.le_refl _
  | cons w word ih =>
    cases text with
    | nil => cases h
    | cons c text =>
      rw [expectWord] at h
      split at h
      · exact Nat.le_succ_of_le (ih h)
      · cases h

/-! ## strings -/

/-- the number that four hexadecimal digits spell -/
def hex4? (a b c d : Char) : Option Nat := do
  let digit (c : Char) : Option Nat :=
    if isDigit c then some (digitValue c)
    else if 'a' ≤ c ∧ c ≤ 'f' then some (c.toNat - 'a'.toNat + 10)
    else if 'A' ≤ c ∧ c ≤ 'F' then some (c.toNat - 'A'.toNat + 10)
    else none
  return ((16 * (← digit a) + (← digit b)) * 16 + (← digit c)) * 16 + (← digit d)

/-- what a backslash and one more character stand for -/
def simpleEscape? : Char → Option Char
  | '"' => some '"'
  | '\\' => some '\\'
  | '/' => some '/'
  | 'b' => some '\x08'
  | 'f' => some '\x0C'
  | 'n' => some '\n'
  | 'r' => some '\r'
  | 't' => some '\t'
  | _ => none

/-- four digits were expected, and fewer than four characters are left: the text ends early only if
it has fewer than four bytes -/
def shortHexFault (rest : List Char) : LayoutFault :=
  if (rest.map fun c => c.utf8Size).foldr (· + ·) 0 < 4 then .endsEarly else .malformed

/-- the second half of a surrogate pair was expected -/
def pairFault : List Char → LayoutFault
  | [] => .endsEarly
  | ['\\'] => .endsEarly
  | '\\' :: 'u' :: rest => shortHexFault rest
  | _ => .malformed

def isHighSurrogate (n : Nat) : Bool := 0xD800 ≤ n && n ≤ 0xDBFF

def isLowSurrogate (n : Nat) : Bool := 0xDC00 ≤ n && n ≤ 0xDFFF

/-- the characters so far are in `done`, last first -/
def scanString (done : List Char) : List Char → Except LayoutFault (List Char × List Char)
  | [] => .error .endsEarly
  | '"' :: rest => .ok (done.reverse, rest)
  | '\\' :: 'u' :: a :: b :: c :: d :: rest =>
    match hex4? a b c d with
    | none => .error .malformed
    | some high =>
      if isLowSurrogate high then .error .malformed
      else if isHighSurrogate high then
        match rest with
        | '\\' :: 'u' :: e :: f :: g :: h :: rest' =>
          match hex4? e f g h with
          | none => .error .malformed
          | some low =>
            if isLowSurrogate low then
              scanString (Char.ofNat (0x10000 + (high - 0xD800) * 0x400 + (low - 0xDC00)) :: done)
                rest'
            else .error .malformed
        | rest => .error (pairFault rest)
      else scanString (Char.ofNat high :: done) rest
  | '\\' :: 'u' :: rest => .error (shortHexFault rest)
  | ['\\'] => .error .endsEarly
  | '\\' :: c :: rest =>
    match simpleEscape? c with
    | some c => scanString (c :: done) rest
    | none => .error .malformed
  | c :: rest => if c.toNat < 0x20 then .error .malformed else scanString (c :: done) rest

theorem length_scanString {done text : List Char} {r : List Char × List Char}
    (h : scanString done text = .ok r) : r.2.length < text.length := by
  fun_induction scanString done text <;> simp_all <;> grind

/-- a string whose characters do not matter: surrogates need not come in pairs -/
def skipString : List Char → Except LayoutFault (List Char)
  | [] => .error .endsEarly
  | '"' :: rest => .ok rest
  | '\\' :: 'u' :: a :: b :: c :: d :: rest =>
    if (hex4? a b c d).isSome then skipString rest else .error .malformed
  | '\\' :: 'u' :: rest => .error (shortHexFault rest)
  | ['\\'] => .error .endsEarly
  | '\\' :: c :: rest => if (simpleEscape? c).isSome then skipString rest else .error .malformed
  | c :: rest => if c.toNat < 0x20 then .error .malformed else skipString rest

theorem length_skipString {text rest : List Char} (h : skipString text = .ok rest) :
    rest.length < text.length := by
  fun_induction skipString text <;> simp_all <;> grind

/-! ## numbers -/

structure Number where
  negative : Bool
  whole : List Char
  fraction : List Char
  /-- the sign, negative or not, and the digits behind `e` or `E` -/
  exponent : Option (Bool × List Char)
  deriving DecidableEq, Repr

/-- at least one digit; `early` is the fault of a text that ends here -/
def scanDigits (early : LayoutFault) (text : List Char) :
    Except LayoutFault (List Char × List Char) :=
  match text with
  | [] => .error early
  | c :: rest =>
    if isDigit c then .ok (c :: rest.takeWhile isDigit, rest.dropWhile isDigit)
    else .error .malformed

theorem length_scanDigits {early : LayoutFault} {text : List Char} {r : List Char × List Char}
    (h : scanDigits early text = .ok r) : r.2.length < text.length := by
  unfold scanDigits at h
  split at h
  · cases h
  · split at h
    · cases h
      exact Nat.lt_succ_of_le (List.dropWhile_sublist isDigit).length_le
    · cases h

/-- a minus sign, if there is one -/
def scanSign : List Char → Bool × List Char
  | '-' :: rest => (true, rest)
  | rest => (false, rest)

/-- either sign, if there is one -/
def scanEitherSign : List Char → Bool × List Char
  | '+' :: rest => (false, rest)
  | rest => scanSign rest

theorem length_scanSign (text : List Char) : (scanSign text).2.length ≤ text.length := by
  unfold scanSign
  split
  · exact Nat.le_succ _
  · exact Nat.le_refl _

theorem length_scanEitherSign (text : List Char) :
    (scanEitherSign text).2.length ≤ text.length := by
  unfold scanEitherSign
  split
  · exact Nat.le_succ _
  · exact length_scanSign _

/-- no digits when there is no point -/
def scanFraction (early : LayoutFault) : List Char → Except LayoutFault (List Char × List Char)
  | '.' :: rest => scanDigits early rest
  | rest => .ok ([], rest)

theorem length_scanFraction {early : LayoutFault} {text : List Char}
    {r : List Char × List Char} (h : scanFraction early text = .ok r) :
    r.2.length ≤ text.length := by
  unfold scanFraction at h
  split at h
  · exact Nat.le_succ_of_le (Nat.le_of_lt (length_scanDigits h))
  · cases h; exact Nat.le_refl _

def scanExponent (early : LayoutFault) :
    List Char → Except LayoutFault (Option (Bool × List Char) × List Char)
  | [] => .ok (none, [])
  | c :: rest =>
    if c = 'e' ∨ c = 'E' then
      match scanDigits early (scanEitherSign rest).2 with
      | .ok (digits, rest') => .ok (some ((scanEitherSign rest).1, digits), rest')
      | .error fault => .error fault
    else .ok (none, c :: rest)

theorem length_scanExponent {early : LayoutFault} {text : List Char}
    {r : Option (Bool × List Char) × List Char} (h : scanExponent early text = .ok r) :
    r.2.length ≤ text.length := by
  unfold scanExponent at h
  split at h
  · cases h; exact Nat.le_refl _
  · rename_i c rest
    split at h
    · split at h
      · rename_i digits rest' hd
        cases h
        have h1 := length_scanDigits hd
        have h2 := length_scanEitherSign rest
        simp only [List.length_cons] at h1 ⊢
        omega
      · cases h
    · cases h; exact Nat.le_refl _

/-- a number has no needless leading zero -/
def scanNumber (early : LayoutFault) (text : List Char) :
    Except LayoutFault (Number × List Char) :=
  let (negative, unsigned) := scanSign text
  match scanDigits early unsigned with
  | .error fault => .error fault
  | .ok (whole, rest) =>
    if whole.head? = some '0' ∧ 1 < whole.length then .error .malformed
    else match scanFraction early rest with
      | .error fault => .error fault
      | .ok (fraction, rest) =>
        match scanExponent early rest with
        | .error fault => .error fault
        | .ok (exponent, rest) => .ok (⟨negative, whole, fraction, exponent⟩, rest)

theorem length_scanNumber {early : LayoutFault} {text : List Char} {r : Number × List Char}
    (h : scanNumber early text = .ok r) : r.2.length < text.length := by
  unfold scanNumber at h
  simp only at h
  split at h
  · cases h
  rename_i whole rest h1
  split at h
  · cases h
  split at h
  · cases h
  rename_i fraction rest' h2
  split at h
  · cases h
  rename_i exponent rest'' h3
  cases h
  have h0 := length_scanSign text
  have h1 := length_scanDigits h1
  have h2 := length_scanFraction h2
  have h3 := length_scanExponent h3
  simp only at h1 h2 h3 ⊢
  omega

namespace Number

/-- the largest natural number of 64 bits -/
def maxNatural : Nat := 0xFFFFFFFFFFFFFFFF

/-- the value of a number that is neither negative nor written with a point or an exponent -/
def natural? (n : Number) : Option Nat :=
  if n.negative ∨ n.fraction ≠ [] ∨ n.exponent.isSome then none
  else
    let value := ofDecimal n.whole
    if value ≤ maxNatural then some value else none

/-! ### range

The digits that fit into 64 bits make the significand; each further digit before the point counts
as a power of ten.  The number is the significand times a power of ten, both rounded to 53 binary
digits; it is too large when the product rounds past the largest double-precision number. -/

/-- digits before the point: the significand, and how many digits did not fit -/
def wholePart (significand : Nat) : List Char → Nat × Nat
  | [] => (significand, 0)
  | c :: cs =>
    if maxNatural < 10 * significand + digitValue c then (significand, cs.length + 1)
    else wholePart (10 * significand + digitValue c) cs

/-- digits behind the point: the significand, and how many digits went into it -/
def fractionPart (significand used : Nat) : List Char → Nat × Nat
  | [] => (significand, used)
  | c :: cs =>
    if maxNatural < 10 * significand + digitValue c then (significand, used)
    else fractionPart (10 * significand + digitValue c) (used + 1) cs

/-- the nearest number with at most 53 binary digits, of two the one whose last digit is even -/
def round53 (n : Nat) : Nat :=
  let unit := 1 <<< (n.log2 - 52)
  let low := n / unit
  let rest := n % unit
  let up := unit < 2 * rest ∨ (unit = 2 * rest ∧ low % 2 = 1)
  (if up then low + 1 else low) * unit

/-- halfway between the largest double-precision number and the power of two behind it -/
def rangeEnd : Nat := (1 <<< 1024) - (1 <<< 970)

def isFinite (n : Number) : Bool :=
  let (significand, dropped) := wholePart 0 n.whole
  let (significand, used) := fractionPart significand 0 n.fraction
  let power : Int := match n.exponent with
    | none => 0
    | some (negative, digits) => if negative then -(ofDecimal digits : Int) else ofDecimal digits
  let power := power + dropped - used
  if significand = 0 ∨ power < 0 then true
  else if 309 ≤ power then false
  else decide (round53 significand * round53 (Nat.pow 10 power.toNat) < rangeEnd)

end Number

end Cartridge.Json
