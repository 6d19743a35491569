import Dialects.Double.Basic
import Dialects.Expr.Scan

/-!
# Tables of operators

A table says what an operand may start with, and which kinds join two operands and how tightly.
-/

namespace Dialects.Expr

/-! ## Operators -/

inductive Operator
  | add
  | sub
  | mul
  | div
  | pow
deriving DecidableEq

/-- The operator that a kind stands for between two operands. -/
def Operator.ofKind? : Kind → Option Operator
  | .plus => some add
  | .dash => some sub
  | .star => some mul
  | .slash => some div
  | .caret => some pow
  | _ => none

def Operator.apply : Operator → Double → Double → Double
  | add => Double.add
  | sub => Double.sub
  | mul => Double.mul
  | div => Double.div
  | pow => Double.pow

/-! ## Binding -/

inductive Associativity
  | left
  | right
deriving DecidableEq

/-- How tightly an operator binds, and which of two equally tight ones binds first. -/
structure Binding where
  power : Nat
  associativity : Associativity
deriving DecidableEq

/-- The least power of the operators that belong to the right operand. -/
def Binding.rightPower (b : Binding) : Nat :=
  match b.associativity with
  | .left => b.power + 1
  | .right => b.power

/-- The power that a sign gives its operand: more than any operator. -/
def signPower : Nat := 100

/-! ## Tables -/

/-- What an operand starts with. -/
inductive Opening
  | number
  | sign
  | group
deriving DecidableEq

structure Table where
  opening : Kind → Option Opening
  binding : Kind → Option Binding

namespace Table

def empty : Table := ⟨fun _ => none, fun _ => none⟩

/-- Lets an operand start with a kind. -/
def withOpening (t : Table) (kind : Kind) (o : Opening) : Table :=
  { t with opening := fun k => if k = kind then some o else t.opening k }

/-- Lets a kind join two operands. -/
def withBinding (t : Table) (kind : Kind) (b : Binding) : Table :=
  { t with binding := fun k => if k = kind then some b else t.binding k }

/-- Adds the rules of arithmetic: sums bind least and powers most, and powers group to the right. -/
def withArithmetic (t : Table) : Table :=
  let t := t.withBinding .plus ⟨10, .left⟩
  let t := t.withBinding .dash ⟨10, .left⟩
  let t := t.withBinding .star ⟨20, .left⟩
  let t := t.withBinding .slash ⟨20, .left⟩
  let t := t.withBinding .caret ⟨30, .right⟩
  let t := t.withOpening .number .number
  let t := t.withOpening .plus .sign
  let t := t.withOpening .dash .sign
  t.withOpening .openParen .group

/-- The rules of arithmetic. -/
def arithmetic : Table := empty.withArithmetic

end Table

end Dialects.Expr
