import Dialects.Double.Basic

/-!
# Doubles in decimal

Reading a decimal number as the double nearest to it, and writing a double as the shortest one that is
read as that double again.
-/

namespace Dialects.Double

/-! ## The nearest double

The double nearest to a positive quotient of two naturals, by its magnitude bits. A quotient halfway
between two doubles goes to the one with the even last bit.
-/

/-- The natural number nearest to a quotient, the even one of two that are equally near. -/
def roundQuotient (num den : Nat) : Nat :=
  let q := num / den
  let twice := 2 * (num % den)
  if den < twice || (twice == den && q % 2 == 1) then q + 1 else q

/-- `num / den` divided by two to the `e`, again as a quotient. -/
def scaleDown (num den : Nat) (e : Int) : Nat × Nat :=
  (num * Nat.pow 2 (-e).toNat, den * Nat.pow 2 e.toNat)

/-- The exponent of the last of the 53 binary digits that a quotient is rounded to. Very small
quotients have fewer digits: the last one never goes below two to the -1074. -/
def lastBitExponent (num den : Nat) : Int :=
  let low := (num.log2 : Int) - den.log2 - 53
  let (n, d) := scaleDown num den low
  max (-1074) (if n < d * Nat.pow 2 53 then low else low + 1)

/-- The magnitude bits of the double nearest to a positive quotient. -/
def nearestMagnitude (num den : Nat) : Nat :=
  let e := lastBitExponent num den
  let (n, d) := scaleDown num den e
  min infinityBits ((e + 1074).toNat * Nat.pow 2 52 + roundQuotient n d)

end Dialects.Double

namespace Dialects

/-! ## Decimal numbers

A decimal is a natural coefficient times a power of ten. `Decimal.ofNumeral?` reads one,
`Decimal.text` writes one without an exponent, and `Double.ofDecimal` rounds one to a double.
-/

structure Decimal where
  coefficient : Nat
  exponent : Int
deriving DecidableEq

namespace Decimal

/-! ## Digits -/

/-- The number that a run of digits spells. -/
def digitsValue (digits : List Char) : Nat := Nat.ofDigitChars 10 digits 0

/-- The digits of a number, without leading zeros. -/
def digits (n : Nat) : List Char := Nat.toDigits 10 n

/-- How many digits a number has. -/
def digitCount (n : Nat) : Nat := (digits n).length

/-! ## Reading -/

/-- The number that the digits of an exponent spell. Once it has passed 65535, further digits change
nothing: the number is far out of range by then. -/
def exponentValue (digits : List Char) : Nat :=
  digits.foldl (fun n d => if n < 0x10000 then 10 * n + (d.toNat - '0'.toNat) else n) 0

/-- An exponent after its mark: an optional sign and at least one digit. -/
def signedExponent? (cs : List Char) : Option Int :=
  let (negative, digits) := match cs with
    | '-' :: rest => (true, rest)
    | '+' :: rest => (false, rest)
    | _ => (false, cs)
  if digits.isEmpty || !digits.all Char.isDigit then none
  else some (if negative then -(exponentValue digits : Int) else exponentValue digits)

/-- The exponent part of a numeral, which may be missing. -/
def exponent? : List Char → Option Int
  | [] => some 0
  | c :: rest => if c == 'e' || c == 'E' then signedExponent? rest else none

/-- The digits after the point, if there is a point, and what follows them. -/
def fraction : List Char → List Char × List Char
  | '.' :: rest => (rest.takeWhile Char.isDigit, rest.dropWhile Char.isDigit)
  | rest => ([], rest)

/-- An unsigned numeral: digits with an optional point, at least one digit on one of its sides, and
an optional exponent. -/
def ofNumeral? (cs : List Char) : Option Decimal :=
  let whole := cs.takeWhile Char.isDigit
  let (part, tail) := fraction (cs.dropWhile Char.isDigit)
  if whole.isEmpty && part.isEmpty then none
  else (exponent? tail).map fun e => ⟨digitsValue (whole ++ part), e - part.length⟩

/-! ## Writing -/

/-- The positional numeral of a decimal: a point only where the last place is below one, and then at
least one digit before it. -/
def text (d : Decimal) : List Char :=
  let ds := digits d.coefficient
  if 0 ≤ d.exponent then ds ++ List.replicate d.exponent.toNat '0'
  else
    let places := (-d.exponent).toNat
    let padded := List.replicate (places + 1 - ds.length) '0' ++ ds
    padded.take (padded.length - places) ++ '.' :: padded.drop (padded.length - places)

end Decimal

/-! ## Rounding -/

/-- The magnitude bits of the double nearest to a decimal. Decimals far outside the range of doubles
are settled by their digit count alone. -/
def Decimal.nearestMagnitude (d : Decimal) : Nat :=
  let top := digitCount d.coefficient + d.exponent
  if d.coefficient == 0 || top < -330 then 0
  else if 310 < top then Double.infinityBits
  else Double.nearestMagnitude (d.coefficient * Nat.pow 10 d.exponent.toNat)
    (Nat.pow 10 (-d.exponent).toNat)

def Double.ofDecimal (negative : Bool) (d : Decimal) : Double :=
  ofMagnitude negative d.nearestMagnitude

end Dialects

namespace Dialects.Double

/-! ## Reading doubles

The text of a double is an optional sign before a numeral or one of the words `inf`, `infinity` and
`nan`, in any case.
-/

/-- The double of a text without its sign, with a given one. The word `nan` takes it as a numeral does. -/
def readUnsigned? (negative : Bool) (cs : List Char) : Option Double :=
  let word := String.ofList (cs.map Char.toLower)
  if word == "inf" || word == "infinity" then some (infinity negative)
  else if word == "nan" then some (if negative then nan.neg else nan)
  else (Decimal.ofNumeral? cs).map (ofDecimal negative)

/-- The double that a whole text spells, rounded to the nearest. -/
def read? : List Char → Option Double
  | '-' :: rest => readUnsigned? true rest
  | '+' :: rest => readUnsigned? false rest
  | cs => readUnsigned? false cs

/-! ## The exact value -/

/-- The magnitude of a finite double as a quotient. -/
def quotient (x : Double) : Nat × Nat :=
  let field := x.magnitude / Nat.pow 2 52
  let part := x.magnitude % Nat.pow 2 52
  if field == 0 then (part, Nat.pow 2 1074)
  else if field < 1075 then (part + Nat.pow 2 52, Nat.pow 2 (1075 - field))
  else ((part + Nat.pow 2 52) * Nat.pow 2 (field - 1075), 1)

/-- The magnitude of a finite double as a decimal: dividing by a power of two moves the point as
often and multiplies by as many fives. -/
def exactDecimal (x : Double) : Decimal :=
  let (num, den) := x.quotient
  ⟨num * Nat.pow 5 den.log2, -(den.log2 : Int)⟩

/-! ## Writing doubles

A double is written with the fewest digits that read back to it, and of these the nearest to it.
-/

/-- The number of digits before the point of a positive quotient; below one tenth it is negative and
counts the zeros behind the point. -/
def pointPlace (num den : Nat) : Int :=
  if den ≤ num then Decimal.digitCount (num / den)
  else 1 - (Decimal.digitCount ((den - 1) / num) : Int)

/-- The two decimals with `n` digits around a positive quotient, the nearer one first and of two
equally near ones the upper one. -/
def neighbours (num den n : Nat) : List Decimal :=
  let e := pointPlace num den - n
  let scaledNum := num * Nat.pow 10 (-e).toNat
  let scaledDen := den * Nat.pow 10 e.toNat
  let low := scaledNum / scaledDen
  let below : Decimal := ⟨low, e⟩
  let above : Decimal := if low + 1 == Nat.pow 10 n then ⟨1, e + n⟩ else ⟨low + 1, e⟩
  if 2 * (scaledNum % scaledDen) < scaledDen then [below, above] else [above, below]

/-- The shortest decimal that rounds to the magnitude of a finite double. Seventeen digits are
always enough. -/
def shortest (x : Double) : Decimal :=
  if x.isZero then ⟨0, 0⟩
  else
    let (num, den) := x.quotient
    let candidates := (List.range 17).flatMap fun n => neighbours num den (n + 1)
    (candidates.find? fun d => d.nearestMagnitude == x.magnitude).getD x.exactDecimal

/-- The written form of a double: `NaN`, `inf`, or a numeral without exponent, with a minus sign if
the sign bit is set. -/
def text (x : Double) : List Char :=
  if x.isNaN then "NaN".toList
  else
    let sign := if x.isNegative then ['-'] else []
    sign ++ if x.isFinite then x.shortest.text else "inf".toList

end Dialects.Double
