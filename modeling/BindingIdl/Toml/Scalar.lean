import BindingIdl.Toml

/-!
# Numbers, booleans and dates in TOML

These values are words without blanks, and each is recognised as a whole: `Value.ofWord?` reads
one. Only a date may be followed by a blank and a time.
-/

namespace BindingIdl.Toml

/-- Characters that words of this kind are made of. -/
def isWordChar (c : Char) : Bool :=
  c.isAlphanum || c = '_' || c = '+' || c = '-' || c = '.' || c = ':'

/-! ## Integers -/

/-- Digits of a base, each underscore between two of them. -/
def isDigitRun (p : Char → Bool) : List Char → Bool
  | [] => false
  | [c] => p c
  | c :: '_' :: rest => p c && isDigitRun p rest
  | c :: rest => p c && isDigitRun p rest

/-- A decimal number without a leading zero. -/
def isDecimal (cs : List Char) : Bool :=
  cs = ['0'] || (isDigitRun Char.isDigit cs && cs.head? ≠ some '0')

def digitValue (c : Char) : Nat :=
  if c.isDigit then c.toNat - '0'.toNat
  else if c.isLower then c.toNat - 'a'.toNat + 10
  else c.toNat - 'A'.toNat + 10

/-- The number that digits of a base write. -/
def numeral (base : Nat) (cs : List Char) : Nat :=
  (cs.filter (· ≠ '_')).foldl (fun n c => base * n + digitValue c) 0

def isDigitOf (base : Nat) (c : Char) : Bool :=
  (c.isDigit || (c.isAlpha && digitValue c < 16)) && digitValue c < base

/-- The sign in front of a number, and the rest. -/
def splitSign : List Char → Option Char × List Char
  | '+' :: rest => (some '+', rest)
  | '-' :: rest => (some '-', rest)
  | cs => (none, cs)

/-- Integers have 64 bits, one of which is the sign. -/
def inRange (n : Int) : Bool := -9223372036854775808 ≤ n && n < 9223372036854775808

def integer? (cs : List Char) : Option Int :=
  let based (base : Nat) (digits : List Char) : Option Int :=
    if isDigitRun (isDigitOf base) digits && inRange (numeral base digits) then
      some (numeral base digits)
    else none
  match cs with
  | '0' :: 'x' :: digits => based 16 digits
  | '0' :: 'o' :: digits => based 8 digits
  | '0' :: 'b' :: digits => based 2 digits
  | _ =>
    let (sign, digits) := splitSign cs
    let n : Int := numeral 10 digits
    let n := if sign = some '-' then -n else n
    if isDecimal digits && inRange n then some n else none

/-! ## Floats -/

/-- Whether `mantissa * 10 ^ exponent` is too large for the floats of 64 bits: it would be rounded
to a power of two beyond the last one. -/
def overflows (mantissa : Nat) (exponent : Int) : Bool :=
  let digits : Int := (toString mantissa).length
  if mantissa = 0 || digits + exponent < 300 then false
  else if digits + exponent > 310 then true
  else
    let bound := Nat.pow 2 1024 - Nat.pow 2 970
    if 0 ≤ exponent then bound ≤ mantissa * Nat.pow 10 exponent.toNat
    else bound * Nat.pow 10 (-exponent).toNat ≤ mantissa

/-- A decimal number with a fraction or an exponent or both. -/
def isDecimalFloat (cs : List Char) : Bool :=
  let (sign, unsigned) := splitSign cs
  let (number, power) := unsigned.span fun c => c ≠ 'e' && c ≠ 'E'
  let (whole, fraction) := number.span (· ≠ '.')
  let (powerSign, powerDigits) := splitSign (power.drop 1)
  let fractionDigits := fraction.drop 1
  let written := isDecimal whole
    && (fraction.isEmpty || isDigitRun Char.isDigit fractionDigits)
    && (power.isEmpty || isDigitRun Char.isDigit powerDigits)
    && !(fraction.isEmpty && power.isEmpty)
  let exponent : Int := numeral 10 powerDigits
  let exponent := if powerSign = some '-' then -exponent else exponent
  let places := (fractionDigits.filter (· ≠ '_')).length
  written
    && (sign = some '-' || !overflows (numeral 10 (whole ++ fractionDigits)) (exponent - places))

def isSpecialFloat (cs : List Char) : Bool :=
  let word := (splitSign cs).2
  word = "inf".toList || word = "nan".toList

/-! ## Dates and times -/

/-- The number that exactly these many digits write. -/
def fixedDigits? (count : Nat) (cs : List Char) : Option Nat :=
  if cs.length = count && cs.all Char.isDigit then some (numeral 10 cs) else none

def daysIn (year month : Nat) : Nat :=
  if month = 2 then
    if year % 4 = 0 && (year % 100 ≠ 0 || year % 400 = 0) then 29 else 28
  else if month ∈ [4, 6, 9, 11] then 30
  else 31

/-- `YYYY-MM-DD`, a day that the calendar has. -/
def isDate (cs : List Char) : Bool :=
  let year := fixedDigits? 4 (cs.take 4)
  let month := fixedDigits? 2 ((cs.drop 5).take 2)
  let day := fixedDigits? 2 (cs.drop 8)
  match year, month, day with
  | some year, some month, some day =>
    cs[4]? = some '-' && cs[7]? = some '-' && 1 ≤ month && month ≤ 12 && 1 ≤ day
      && day ≤ daysIn year month
  | _, _, _ => false

/-- `HH:MM`, with the hour below 24. -/
def isHourMinute (cs : List Char) : Bool :=
  match fixedDigits? 2 (cs.take 2), fixedDigits? 2 (cs.drop 3) with
  | some hour, some minute => cs[2]? = some ':' && hour < 24 && minute < 60
  | _, _ => false

/-- `HH:MM:SS` and a fraction of the second; a minute may have 61 seconds. -/
def isTime (cs : List Char) : Bool :=
  let fraction := cs.drop 8
  match fixedDigits? 2 ((cs.drop 6).take 2) with
  | some second =>
    isHourMinute (cs.take 5) && cs[5]? = some ':' && second ≤ 60
      && (fraction.isEmpty
        || (fraction.head? = some '.' && !(fraction.drop 1).isEmpty
          && (fraction.drop 1).all Char.isDigit))
  | none => false

/-- A time, with or without its distance from universal time. -/
def isZonedTime (cs : List Char) : Bool :=
  let (time, zone) := cs.span fun c => c.isDigit || c = ':' || c = '.'
  isTime time && match zone with
    | [] => true
    | [c] => c = 'Z' || c = 'z'
    | c :: distance => (c = '+' || c = '-') && isHourMinute distance

def isDateTime (cs : List Char) : Bool :=
  isDate (cs.take 10)
    && (cs.length = 10 || ((cs[10]? = some 'T' || cs[10]? = some 't') && isZonedTime (cs.drop 11)))

/-! ## Words -/

/-- The value that a word is. -/
def Value.ofWord? (word : List Char) : Option Value :=
  let literal := String.ofList word
  if literal = "true" then some (.boolean true)
  else if literal = "false" then some (.boolean false)
  else if isDateTime word || isTime word then some (.datetime literal)
  else if isDecimalFloat word || isSpecialFloat word then some (.float literal)
  else (integer? word).map .integer

/-- Read a word value at the front, and, behind a date and a blank, a time. -/
def Value.readWord (cs : List Char) : Option (Value × List Char) :=
  let (word, rest) := cs.span isWordChar
  let time := (rest.drop 1).takeWhile isWordChar
  if isDate word && rest.head? = some ' ' && !time.isEmpty then
    if isZonedTime time then
      some (.datetime (String.ofList (word ++ ' ' :: time)), rest.drop (1 + time.length))
    else none
  else (Value.ofWord? word).map (·, rest)

end BindingIdl.Toml
