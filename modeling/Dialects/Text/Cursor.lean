/-!
# Places in a text

Positions in a text are byte offsets into its UTF-8 form. A cursor moves on by whole characters, and
over the blanks between tokens.
-/

namespace Dialects.Text

/-! ## Byte lengths -/

/-- The number of bytes that a text takes in UTF-8. -/
def byteLength : List Char → Nat
  | [] => 0
  | c :: cs => c.utf8Size + byteLength cs

@[simp] theorem byteLength_nil : byteLength [] = 0 := rfl

@[simp] theorem byteLength_cons (c : Char) (cs : List Char) :
    byteLength (c :: cs) = c.utf8Size + byteLength cs := rfl

@[simp] theorem byteLength_append (cs ds : List Char) :
    byteLength (cs ++ ds) = byteLength cs + byteLength ds := by
  induction cs with
  | nil => simp
  | cons c cs ih => simp [ih, Nat.add_assoc]

/-- The characters from a byte offset on, or nothing if the offset is past the end or inside a
character. -/
def dropBytes? : Nat → List Char → Option (List Char)
  | n, [] => if n = 0 then some [] else none
  | n, c :: cs =>
    if n = 0 then some (c :: cs)
    else if c.utf8Size ≤ n then dropBytes? (n - c.utf8Size) cs
    else none

/-! ## Blanks

The characters that separate tokens: those with the Unicode property White_Space.
-/

/-- Whether a character has the property White_Space. -/
def isBlank (c : Char) : Bool :=
  let n := c.toNat
  (0x9 ≤ n && n ≤ 0xD) || n == 0x20 || n == 0x85 || n == 0xA0 || n == 0x1680 ||
    (0x2000 ≤ n && n ≤ 0x200A) || n == 0x2028 || n == 0x2029 || n == 0x202F || n == 0x205F ||
    n == 0x3000

def trimStart (cs : List Char) : List Char := cs.dropWhile isBlank

def trimEnd (cs : List Char) : List Char := (cs.reverse.dropWhile isBlank).reverse

/-- The text without the blanks around it. -/
def trim (cs : List Char) : List Char := trimEnd (trimStart cs)

end Dialects.Text

namespace Dialects

/-! ## Layouts

A tree is written either without blanks or with its parts on lines of their own, two spaces further
in for each level.
-/

inductive Layout
  | compact
  | indented
deriving DecidableEq

/-- A line break in front of something that is nested `depth` deep. -/
def Layout.lineBreak (layout : Layout) (depth : Nat) : List Char :=
  match layout with
  | compact => []
  | indented => '\n' :: List.replicate (2 * depth) ' '

end Dialects

namespace Dialects.Text

/-! ## Cursors

A place in a text: the bytes before it and the characters after it. A cursor moves by whole
characters only, so it never stands inside one.
-/

structure Cursor where
  offset : Nat
  rest : List Char
deriving DecidableEq

namespace Cursor

/-- The place before the first character. -/
def start (source : String) : Cursor := ⟨0, source.toList⟩

/-- The place `k` characters further on, or the end if there are fewer. -/
def advance (c : Cursor) (k : Nat) : Cursor :=
  ⟨c.offset + byteLength (c.rest.take k), c.rest.drop k⟩

/-- The place of the next character that is not a blank. -/
def skipBlanks (c : Cursor) : Cursor := c.advance (c.rest.takeWhile isBlank).length

/-- The place `n` bytes further on, if a character starts or the text ends there. -/
def advanceBytes? (c : Cursor) (n : Nat) : Option Cursor :=
  (dropBytes? n c.rest).map fun rest => ⟨c.offset + n, rest⟩

@[simp] theorem advance_zero (c : Cursor) : c.advance 0 = c := by simp [advance]

@[simp] theorem rest_advance (c : Cursor) (k : Nat) : (c.advance k).rest = c.rest.drop k := rfl

theorem offset_add_byteLength_advance (c : Cursor) (k : Nat) :
    (c.advance k).offset + byteLength (c.advance k).rest = c.offset + byteLength c.rest := by
  have h := byteLength_append (c.rest.take k) (c.rest.drop k)
  rw [List.take_append_drop] at h
  simp only [advance]
  omega

theorem rest_skipBlanks (c : Cursor) : c.skipBlanks.rest = c.rest.dropWhile isBlank := by
  simp only [skipBlanks, rest_advance]
  induction c.rest with
  | nil => rfl
  | cons d ds ih => by_cases h : isBlank d <;> simp [h, ih]

end Cursor

end Dialects.Text
