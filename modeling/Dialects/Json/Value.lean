import Dialects.Double.Basic

/-!
# JSON values

Values with their views and their equality. Objects keep their members in the order in which the keys
came first, and two objects are equal if they hold equal values under the same keys, in whatever order.
-/

namespace Dialects

/-! ## Entries

Values by name, in the order in which the names came first. They behave as an insertion-ordered map is
documented to: setting a name that is there replaces its value in place, and setting a new one
appends it.
-/

abbrev Entries (α : Type) := List (String × α)

namespace Entries

variable {α : Type}

/-- Sets the value of a name. -/
def insert (name : String) (value : α) : Entries α → Entries α
  | [] => [(name, value)]
  | (n, v) :: rest => if n = name then (name, value) :: rest else (n, v) :: insert name value rest

def get? (name : String) : Entries α → Option α
  | [] => none
  | (n, v) :: rest => if n = name then some v else get? name rest

def names (entries : Entries α) : List String := entries.map Prod.fst

theorem get?_insert (name other : String) (value : α) (entries : Entries α) :
    get? other (insert name value entries) =
      if other = name then some value else get? other entries := by
  induction entries with
  | nil => simp [insert, get?, eq_comm]
  | cons entry rest ih =>
    by_cases h : entry.1 = name
    · by_cases ho : other = name <;> simp_all [insert, get?, eq_comm]
    · by_cases ho : entry.1 = other <;> simp_all [insert, get?]

theorem names_insert (name : String) (value : α) (entries : Entries α) :
    names (insert name value entries) =
      if name ∈ names entries then names entries else names entries ++ [name] := by
  induction entries with
  | nil => simp [insert, names]
  | cons entry rest ih =>
    simp only [names] at ih ⊢
    by_cases h : entry.1 = name
    · simp [insert, h]
    · by_cases hm : name ∈ rest.map Prod.fst <;> simp_all [insert, Ne.symm h]

end Entries

end Dialects

namespace Dialects.Json

inductive Value
  | null
  | boolean (value : Bool)
  | number (value : Double)
  | string (value : String)
  | array (items : List Value)
  | object (members : List (String × Value))

namespace Value

/-! ## Views -/

def isNull : Value → Bool
  | null => true
  | _ => false

def asBoolean? : Value → Option Bool
  | boolean value => some value
  | _ => none

def asNumber? : Value → Option Double
  | number value => some value
  | _ => none

def asString? : Value → Option String
  | string value => some value
  | _ => none

def asArray? : Value → Option (List Value)
  | array items => some items
  | _ => none

def asObject? : Value → Option (Entries Value)
  | object members => some members
  | _ => none

/-- The value of a key, if this is an object that has it. -/
def get? (v : Value) (key : String) : Option Value := v.asObject?.bind (Entries.get? key)

/-- The item at an index, if this is an array that has it. -/
def item? (v : Value) (index : Nat) : Option Value := v.asArray?.bind (·[index]?)

/-! ## Equality -/

mutual

/-- Equality of values. Numbers are compared as numbers, so that a NaN differs from itself. -/
def equal : Value → Value → Bool
  | null, null => true
  | boolean a, boolean b => a == b
  | number a, number b => a.equal b
  | string a, string b => a == b
  | array as, array bs => equalItems as bs
  | object as, object bs => as.length == bs.length && equalMembers as bs
  | _, _ => false

def equalItems : List Value → List Value → Bool
  | [], [] => true
  | a :: as, b :: bs => equal a b && equalItems as bs
  | _, _ => false

/-- Whether each member has an equal one among others. -/
def equalMembers : List (String × Value) → List (String × Value) → Bool
  | [], _ => true
  | (key, a) :: as, bs =>
    (match Entries.get? key bs with
      | some b => equal a b
      | none => false) && equalMembers as bs

end

end Value

end Dialects.Json
