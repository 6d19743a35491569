import Dialects.Proofs.Located

/-!
# Texts cut at byte offsets

A text can be cut at a byte offset unless the offset is behind the end or inside a character. Where a
cursor stands the text can be cut, and cuts at the offsets of cursors give what lies between these.
-/

namespace Dialects.Text

/-! ## Cuts -/

/-- The characters that take so many bytes in front of a text, or nothing if there are none that
do. -/
def takeBytes? : Nat → List Char → Option (List Char)
  | n, [] => if n = 0 then some [] else none
  | n, c :: cs =>
    if n = 0 then some []
    else if c.utf8Size ≤ n then (takeBytes? (n - c.utf8Size) cs).map (c :: ·)
    else none

/-- The characters between two byte offsets, or nothing if the text cannot be cut at both, or the second
is in front of the first. -/
def slice? (text : List Char) (start stop : Nat) : Option (List Char) :=
  if start ≤ stop then (dropBytes? start text).bind (takeBytes? (stop - start)) else none

/-- The character at a byte offset, if the text can be cut there and does not end. -/
def peek? (text : List Char) (position : Nat) : Option (Option Char) :=
  (dropBytes? position text).map List.head?

/-- The byte offset of the next character that is not a blank, at most so many characters on. -/
def skipBlanks? (text : List Char) : Nat → Nat → Option Nat
  | 0, _ => none
  | n + 1, position => do
    match ← peek? text position with
    | some c => if isBlank c then skipBlanks? text n (position + c.utf8Size) else some position
    | none => some position

theorem takeBytes?_byteLength (before after : List Char) :
    takeBytes? (byteLength before) (before ++ after) = some before := by
  induction before with
  | nil => cases after <;> simp [takeBytes?]
  | cons c before ih =>
    have hpos := c.utf8Size_pos
    rw [byteLength_cons, List.cons_append, takeBytes?, if_neg (by omega), if_pos (by omega),
      Nat.add_sub_cancel_left, ih, Option.map_some]

theorem exists_append_of_takeBytes? {n : Nat} {cs ds : List Char} (h : takeBytes? n cs = some ds) :
    ∃ rest, cs = ds ++ rest := by
  induction cs generalizing n ds with
  | nil =>
    rw [takeBytes?] at h
    split_ifs at h
    obtain rfl := Option.some.inj h
    exact ⟨[], rfl⟩
  | cons c cs ih =>
    rw [takeBytes?] at h
    split_ifs at h
    · obtain rfl := Option.some.inj h
      exact ⟨c :: cs, rfl⟩
    · obtain ⟨es, hes, rfl⟩ := Option.map_eq_some_iff.mp h
      obtain ⟨rest, rfl⟩ := ih hes
      exact ⟨rest, rfl⟩

theorem exists_append_of_dropBytes? {n : Nat} {cs ds : List Char} (h : dropBytes? n cs = some ds) :
    ∃ before, cs = before ++ ds ∧ byteLength before = n := by
  induction cs generalizing n with
  | nil =>
    rw [dropBytes?] at h
    split_ifs at h with hn
    obtain rfl := Option.some.inj h
    exact ⟨[], rfl, hn.symm⟩
  | cons c cs ih =>
    rw [dropBytes?] at h
    split_ifs at h with hn hle
    · obtain rfl := Option.some.inj h
      exact ⟨[], rfl, hn.symm⟩
    · obtain ⟨before, rfl, hlength⟩ := ih h
      exact ⟨c :: before, rfl, by rw [byteLength_cons]; omega⟩

theorem utf8ByteSize_ofList (cs : List Char) : (String.ofList cs).utf8ByteSize = byteLength cs := by
  rw [String.utf8ByteSize_ofList]
  induction cs with
  | nil => rfl
  | cons c cs ih => rw [String.utf8Len_cons, ih, byteLength_cons, Nat.add_comm]

theorem isValid_iff_dropBytes? {source : String} {n : Nat} :
    (⟨n⟩ : String.Pos.Raw).IsValid source ↔ ∃ rest, dropBytes? n source.toList = some rest := by
  rw [String.Pos.Raw.isValid_iff_exists_append]
  constructor
  · rintro ⟨before, after, rfl, hn⟩
    have hn : n = byteLength before.toList := by
      rw [← utf8ByteSize_ofList, String.ofList_toList]
      exact congrArg String.Pos.Raw.byteIdx hn
    exact ⟨after.toList, by rw [hn, String.toList_append, dropBytes?_byteLength]⟩
  · rintro ⟨rest, h⟩
    obtain ⟨before, hsource, hn⟩ := exists_append_of_dropBytes? h
    refine ⟨String.ofList before, String.ofList rest, ?_, ?_⟩
    · rw [← String.ofList_append, ← hsource, String.ofList_toList]
    · rw [← hn, ← utf8ByteSize_ofList]
      rfl

/-! ## Cuts at cursors -/

namespace Cursor

variable {c : Cursor} {source : String}

theorem advance_advance (c : Cursor) (j k : Nat) : (c.advance j).advance k = c.advance (j + k) := by
  simp only [advance, List.drop_drop, List.take_add, byteLength_append, Nat.add_assoc]

theorem offset_advance_of_append {cs ds : List Char} (h : c.rest = cs ++ ds) :
    (c.advance cs.length).offset = c.offset + byteLength cs := by
  simp [advance, h]

theorem offset_advance_of_cons {d : Char} {ds : List Char} (h : c.rest = d :: ds) :
    (c.advance 1).offset = c.offset + d.utf8Size :=
  @offset_advance_of_append c [d] ds h

theorem skipBlanks_advance_one {d : Char} {ds : List Char} (h : c.rest = d :: ds) (hd : isBlank d) :
    (c.advance 1).skipBlanks = c.skipBlanks := by
  obtain ⟨offset, rest⟩ := c
  obtain rfl : rest = [d] ++ ds := h
  rw [skipBlanks_append_skipBlanks (by simpa using hd)]
  rfl

theorem StandsIn.isValid (h : c.StandsIn source) : (⟨c.offset⟩ : String.Pos.Raw).IsValid source :=
  isValid_iff_dropBytes?.mpr ⟨c.rest, h.dropBytes?_eq⟩

theorem StandsIn.length_le (h : c.StandsIn source) : c.rest.length ≤ source.toList.length := by
  obtain ⟨before, hsource, -⟩ := h
  simp [hsource]

theorem StandsIn.peek?_eq (h : c.StandsIn source) :
    peek? source.toList c.offset = some c.rest.head? := by
  rw [peek?, h.dropBytes?_eq, Option.map_some]

theorem StandsIn.slice?_eq (h : c.StandsIn source) (k : Nat) :
    slice? source.toList c.offset (c.advance k).offset = some (c.rest.take k) := by
  have htake := takeBytes?_byteLength (c.rest.take k) (c.rest.drop k)
  rw [List.take_append_drop] at htake
  rw [slice?, Cursor.advance, if_pos (Nat.le_add_right _ _), h.dropBytes?_eq, Option.bind_some,
    Nat.add_sub_cancel_left, htake]

theorem StandsIn.skipBlanks?_eq (h : c.StandsIn source) {n : Nat} (hn : c.rest.length < n) :
    skipBlanks? source.toList n c.offset = some c.skipBlanks.offset := by
  induction n generalizing c with
  | zero => simp at hn
  | succ n ih =>
    rw [skipBlanks?, h.peek?_eq]
    cases hrest : c.rest with
    | nil => rw [skipBlanks_of_stops (by simp [hrest])]; rfl
    | cons d ds =>
      have hoffset := offset_advance_of_cons hrest
      cases hd : isBlank d with
      | false => rw [skipBlanks_of_stops (by simp [hrest, hd])]; simp [hd]
      | true =>
        have hlength : (c.advance 1).rest.length < n := by
          rw [rest_advance, hrest]
          simpa [hrest] using hn
        simp [hd, ← hoffset, ih (h.advance 1) hlength,
          skipBlanks_advance_one hrest hd]

end Cursor

end Dialects.Text
