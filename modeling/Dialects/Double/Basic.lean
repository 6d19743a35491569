/-!
# Doubles

IEEE 754 binary64 numbers, held as their 64 bits. Sign, class and equality are read off the bits.
The arithmetic is that of the machine.
-/

namespace Dialects

structure Double where
  bits : UInt64
deriving DecidableEq

namespace Double

/-! ## Parts of a number -/

/-- The weight of the sign bit. -/
def signWeight : Nat := Nat.pow 2 63

/-- The bits of positive infinity: every exponent bit and no fraction bit. -/
def infinityBits : Nat := 0x7FF * Nat.pow 2 52

def isNegative (x : Double) : Bool := signWeight ≤ x.bits.toNat

/-- The bits below the sign. Read as a number, they order the magnitudes. -/
def magnitude (x : Double) : Nat := x.bits.toNat % signWeight

def isNaN (x : Double) : Bool := infinityBits < x.magnitude

def isFinite (x : Double) : Bool := x.magnitude < infinityBits

def isZero (x : Double) : Bool := x.magnitude == 0

/-- The number with a given sign and magnitude. -/
def ofMagnitude (negative : Bool) (magnitude : Nat) : Double :=
  ⟨UInt64.ofNat (magnitude + if negative then signWeight else 0)⟩

/-- The quiet NaN with an empty payload and no sign. -/
def nan : Double := ⟨0x7FF8000000000000⟩

def infinity (negative : Bool) : Double := ofMagnitude negative infinityBits

/-! ## Equality -/

/-- Equality of numbers: a NaN equals nothing, and the two zeros are equal. -/
def equal (x y : Double) : Bool :=
  !x.isNaN && !y.isNaN && (x.bits == y.bits || (x.isZero && y.isZero))

/-! ## Arithmetic -/

def toFloat (x : Double) : Float := Float.ofBits x.bits

def ofFloat (f : Float) : Double := ⟨f.toBits⟩

def add (x y : Double) : Double := ofFloat (x.toFloat + y.toFloat)

def sub (x y : Double) : Double := ofFloat (x.toFloat - y.toFloat)

def mul (x y : Double) : Double := ofFloat (x.toFloat * y.toFloat)

def div (x y : Double) : Double := ofFloat (x.toFloat / y.toFloat)

def pow (x y : Double) : Double := ofFloat (x.toFloat ^ y.toFloat)

/-- Negation flips the sign bit, of a NaN too. -/
def neg (x : Double) : Double := ofMagnitude (!x.isNegative) x.magnitude

end Double

end Dialects
