import Dialects.Proofs.Text
import Dialects.Diagnostic

/-!
# Lines of a text

The line of an offset is told by the newlines around the offset: as many stand in front of it as there
are lines in front of the line, which runs from behind the last of these through the next one.
-/

namespace Dialects.Text

/-! ## Around an element of a list -/

section

variable {α : Type} [DecidableEq α] {a : α} {xs ys : List α}

/-- What stands behind the last of an element. -/
def behindLast (a : α) (xs : List α) : List α := xs.rtakeWhile (· ≠ a)

/-- What stands up to the first of an element, and with it if there is one. -/
def throughFirst (a : α) : List α → List α
  | [] => []
  | x :: xs => if x = a then [x] else x :: throughFirst a xs

theorem behindLast_append_of_notMem (xs : List α) (h : a ∉ ys) :
    behindLast a (xs ++ ys) = behindLast a xs ++ ys := by
  have hys : ∀ y ∈ ys.reverse, decide (y ≠ a) := by
    intro y hy
    exact decide_eq_true fun heq => h (heq ▸ List.mem_reverse.mp hy)
  rw [behindLast, behindLast, List.rtakeWhile, List.rtakeWhile, List.reverse_append,
    List.takeWhile_append_of_pos hys, List.reverse_append, List.reverse_reverse]

theorem behindLast_concat_self (xs : List α) : behindLast a (xs ++ [a]) = [] := by
  simp [behindLast, List.rtakeWhile]

theorem behindLast_append_cons_self (xs ys : List α) :
    behindLast a (xs ++ a :: ys) = behindLast a ys := by
  rw [behindLast, behindLast, List.rtakeWhile, List.rtakeWhile, List.reverse_append,
    List.reverse_cons, List.append_assoc, List.singleton_append, takeWhile_append_cons (by simp)]

theorem behindLast_of_notMem (h : a ∉ xs) : behindLast a xs = xs :=
  behindLast_append_of_notMem [] h

theorem notMem_behindLast (a : α) (xs : List α) : a ∉ behindLast a xs := by
  intro h
  simpa using List.mem_rtakeWhile_imp h

theorem throughFirst_append_of_notMem (h : a ∉ xs) (ys : List α) :
    throughFirst a (xs ++ ys) = xs ++ throughFirst a ys := by
  induction xs with
  | nil => rfl
  | cons x xs ih =>
    obtain ⟨hx, hxs⟩ := List.ne_and_not_mem_of_not_mem_cons h
    rw [List.cons_append, throughFirst, if_neg (Ne.symm hx), ih hxs, List.cons_append]

theorem throughFirst_cons_self (xs : List α) : throughFirst a (a :: xs) = [a] := by
  simp [throughFirst]

theorem throughFirst_of_notMem (h : a ∉ xs) : throughFirst a xs = xs := by
  simpa [throughFirst] using throughFirst_append_of_notMem h []

end

/-! ## Lines as characters -/

theorem lines_append_newline {cs : List Char} (h : '\n' ∉ cs) (rest : List Char) :
    lines (cs ++ '\n' :: rest) = (cs ++ ['\n']) :: lines rest := by
  induction cs with
  | nil => simp [lines]
  | cons c cs ih =>
    obtain ⟨hc, hcs⟩ := List.ne_and_not_mem_of_not_mem_cons h
    simp [lines, Ne.symm hc, ih hcs]

theorem lines_of_notMem {cs : List Char} (h : '\n' ∉ cs) (hne : cs ≠ []) : lines cs = [cs] := by
  induction cs with
  | nil => exact absurd rfl hne
  | cons c cs ih =>
    obtain ⟨hc, hcs⟩ := List.ne_and_not_mem_of_not_mem_cons h
    cases cs with
    | nil => simp [lines, Ne.symm hc]
    | cons d ds => rw [lines, if_neg (by simpa using Ne.symm hc), ih hcs (by simp)]

/-- Whether a text starts with a character of more than some bytes, unless none are asked for. -/
def Covers (k : Nat) (cs : List Char) : Prop := k = 0 ∨ ∃ c rest, cs = c :: rest ∧ k < c.utf8Size

theorem Covers.lt_byteLength {k : Nat} {cs : List Char} (h : Covers k cs) (hne : cs ≠ []) :
    k < byteLength cs := by
  obtain ⟨c, rest, rfl⟩ := List.exists_cons_of_ne_nil hne
  have hpos := c.utf8Size_pos
  rw [byteLength_cons]
  obtain rfl | ⟨d, rest', heq, hlt⟩ := h
  · omega
  · obtain ⟨rfl, rfl⟩ := List.cons.inj heq
    omega

theorem Covers.le_byteLength {k : Nat} {cs : List Char} (h : Covers k cs) : k ≤ byteLength cs := by
  by_cases hne : cs = []
  · subst hne
    obtain rfl | ⟨c, rest, heq, -⟩ := h
    · rfl
    · simp at heq
  · exact (h.lt_byteLength hne).le

theorem Covers.of_append {k : Nat} {cs ds : List Char} (h : Covers k (cs ++ ds)) (hne : cs ≠ []) :
    Covers k cs := by
  obtain ⟨c, cs, rfl⟩ := List.exists_cons_of_ne_nil hne
  obtain h | ⟨d, rest, heq, hlt⟩ := h
  · exact .inl h
  · exact .inr ⟨c, cs, rfl, (List.cons.inj heq).1 ▸ hlt⟩

namespace Line

theorem locate_append_newline (number : Nat) {cs : List Char} (h : '\n' ∉ cs) (offset : Nat)
    (rest : List Char) :
    locate number (byteLength cs + 1 + offset) (lines (cs ++ '\n' :: rest)) =
      locate (number + 1) offset (lines rest) := by
  have hlength : byteLength (cs ++ ['\n']) = byteLength cs + 1 := by
    rw [byteLength_append]
    rfl
  rw [lines_append_newline h, locate, hlength, if_neg (by omega), if_neg (by simp),
    Nat.add_sub_cancel_left]

theorem locate_of_notMem (number : Nat) {before after : List Char} {k : Nat} (h : '\n' ∉ before)
    (hk : Covers k after) :
    locate number (byteLength before + k) (lines (before ++ after)) =
      ⟨number, before ++ throughFirst '\n' after, byteLength before + k⟩ := by
  by_cases hnewline : '\n' ∈ after
  · obtain ⟨inner, rest, rfl, hinner⟩ := List.eq_append_cons_of_mem hnewline
    have hline : '\n' ∉ before ++ inner := by simp [h, hinner]
    have hsplit : inner ++ '\n' :: rest = (inner ++ ['\n']) ++ rest := by simp
    have hlt := (Covers.of_append (hsplit ▸ hk) (by simp)).lt_byteLength (by simp)
    rw [← List.append_assoc, lines_append_newline hline, locate, List.append_assoc,
      byteLength_append, if_pos (by omega), throughFirst_append_of_notMem hinner,
      throughFirst_cons_self]
  · have hline : '\n' ∉ before ++ after := by simp [h, hnewline]
    rw [throughFirst_of_notMem hnewline]
    by_cases hafter : after = []
    · -- The end of the text lies in its last line.
      subst hafter
      obtain rfl := Nat.le_zero.mp hk.le_byteLength
      by_cases hbefore : before = []
      · subst hbefore
        rfl
      · have hlast : before.getLast? ≠ some '\n' := fun hlast => h (List.mem_of_getLast? hlast)
        rw [List.append_nil, lines_of_notMem h hbefore, locate, if_neg (by omega),
          if_pos (by simpa using hlast), Nat.add_zero]
    · have hlt := hk.lt_byteLength hafter
      rw [lines_of_notMem hline (by simp [hafter]), locate, byteLength_append, if_pos (by omega)]

theorem locate_lines (number : Nat) (before : List Char) {after : List Char} {k : Nat}
    (hk : Covers k after) :
    locate number (byteLength before + k) (lines (before ++ after)) =
      ⟨number + before.count '\n', behindLast '\n' before ++ throughFirst '\n' after,
        byteLength (behindLast '\n' before) + k⟩ := by
  induction hn : before.length using Nat.strong_induction_on generalizing number before with
  | _ n ih =>
    by_cases hnewline : '\n' ∈ before
    · -- One line lies in front of the offset.
      obtain ⟨inner, rest, rfl, hinner⟩ := List.eq_append_cons_of_mem hnewline
      have hoffset : byteLength (inner ++ '\n' :: rest) + k =
          byteLength inner + 1 + (byteLength rest + k) := by
        have hone : '\n'.utf8Size = 1 := rfl
        rw [byteLength_append, byteLength_cons]
        omega
      have hlast : behindLast '\n' (inner ++ '\n' :: rest) = behindLast '\n' rest :=
        behindLast_append_cons_self inner rest
      have hcount : (inner ++ '\n' :: rest).count '\n' = 1 + rest.count '\n' := by
        rw [List.count_append, List.count_eq_zero.mpr hinner, List.count_cons_self]
        omega
      rw [hoffset, List.append_assoc, List.cons_append, locate_append_newline number hinner,
        ih rest.length (by simp [← hn]; omega) (number + 1) rest rfl, hlast, hcount, Nat.add_assoc]
    · rw [locate_of_notMem number hnewline hk, behindLast_of_notMem hnewline,
        List.count_eq_zero.mpr hnewline, Nat.add_zero]

theorem ofPosition_byteLength {source : String} {before after : List Char}
    (h : source.toList = before ++ after) :
    ofPosition source (byteLength before) =
      ⟨1 + before.count '\n', behindLast '\n' before ++ throughFirst '\n' after,
        byteLength (behindLast '\n' before)⟩ := by
  have hle : byteLength before ≤ byteLength source.toList := by
    rw [h, byteLength_append]
    exact Nat.le_add_right _ _
  rw [ofPosition, Nat.min_eq_left hle, h]
  exact locate_lines 1 before (.inl rfl)

end Line

/-! ## Lines as bytes -/

/-- The bytes of a text in UTF-8. -/
def bytes (source : String) : List UInt8 := source.toUTF8.data.toList

def newline : UInt8 := 10

theorem bytes_ofList (cs : List Char) :
    bytes (String.ofList cs) = cs.flatMap String.utf8EncodeChar := by
  rw [bytes, String.toUTF8, String.toByteArray_ofList, List.utf8Encode, List.toList_data_toByteArray]

theorem bytes_append (cs ds : List Char) :
    bytes (String.ofList (cs ++ ds)) = bytes (String.ofList cs) ++ bytes (String.ofList ds) := by
  simp only [bytes_ofList, List.flatMap_append]

theorem bytes_cons (c : Char) (cs : List Char) :
    bytes (String.ofList (c :: cs)) = String.utf8EncodeChar c ++ bytes (String.ofList cs) := by
  simp only [bytes_ofList, List.flatMap_cons]

theorem length_bytes (cs : List Char) : (bytes (String.ofList cs)).length = byteLength cs := by
  induction cs with
  | nil => rfl
  | cons c cs ih => rw [bytes_cons, List.length_append, ih, String.length_utf8EncodeChar, byteLength_cons]

theorem newline_notMem_utf8EncodeChar {c : Char} (hc : c ≠ '\n') :
    newline ∉ String.utf8EncodeChar c := by
  have hval : c.toNat ≠ 10 := fun h => hc (Char.toNat_inj.mp h)
  simp only [String.utf8EncodeChar, newline, Char.toNat_val]
  split_ifs with h1 h2 h3 <;> simp [← UInt8.toNat_inj] <;> omega

theorem count_newline_bytes (cs : List Char) :
    (bytes (String.ofList cs)).count newline = cs.count '\n' := by
  induction cs with
  | nil => rfl
  | cons c cs ih =>
    rw [bytes_cons, List.count_append, ih]
    by_cases hc : c = '\n'
    · rw [hc, List.count_cons_self, Nat.add_comm]
      rfl
    · rw [List.count_eq_zero.mpr (newline_notMem_utf8EncodeChar hc), List.count_cons_of_ne hc,
        Nat.zero_add]

theorem behindLast_bytes (cs : List Char) :
    behindLast newline (bytes (String.ofList cs)) = bytes (String.ofList (behindLast '\n' cs)) := by
  induction cs using List.reverseRecOn with
  | nil => rfl
  | append_singleton cs c ih =>
    by_cases hc : c = '\n'
    · have hbytes : bytes (String.ofList ['\n']) = [newline] := rfl
      rw [hc, bytes_append, hbytes, behindLast_concat_self, behindLast_concat_self]
      rfl
    · have hbytes : newline ∉ bytes (String.ofList [c]) := by
        rw [bytes_ofList, List.flatMap_singleton]
        exact newline_notMem_utf8EncodeChar hc
      rw [bytes_append, behindLast_append_of_notMem _ hbytes, ih,
        behindLast_append_of_notMem cs (by simpa using Ne.symm hc), bytes_append]

theorem throughFirst_bytes (cs : List Char) :
    throughFirst newline (bytes (String.ofList cs)) = bytes (String.ofList (throughFirst '\n' cs)) := by
  induction cs with
  | nil => rfl
  | cons c cs ih =>
    rw [bytes_cons]
    by_cases hc : c = '\n'
    · rw [hc, throughFirst_cons_self]
      exact throughFirst_cons_self _
    · rw [throughFirst_append_of_notMem (newline_notMem_utf8EncodeChar hc), ih, throughFirst, if_neg hc,
        bytes_cons]

/-! ## Offsets -/

theorem exists_covers (cs : List Char) {q : Nat} (h : q ≤ byteLength cs) :
    ∃ before after k, cs = before ++ after ∧ q = byteLength before + k ∧ Covers k after := by
  induction cs generalizing q with
  | nil => exact ⟨[], [], 0, rfl, by simpa using h, .inl rfl⟩
  | cons c cs ih =>
    rw [byteLength_cons] at h
    by_cases hq : q < c.utf8Size
    · exact ⟨[], c :: cs, q, rfl, by simp, .inr ⟨c, cs, rfl, hq⟩⟩
    · obtain ⟨before, after, k, rfl, hk, hcovers⟩ := ih (q := q - c.utf8Size) (by omega)
      exact ⟨c :: before, after, k, rfl, by rw [byteLength_cons]; omega, hcovers⟩

theorem Covers.newline_notMem {k : Nat} {cs : List Char} (h : Covers k cs) :
    newline ∉ (bytes (String.ofList cs)).take k := by
  obtain rfl | ⟨c, rest, rfl, hlt⟩ := h
  · simp
  · intro hmem
    rw [bytes_cons, List.take_append_of_le_length (by rw [String.length_utf8EncodeChar]; omega)] at hmem
    by_cases hc : c = '\n'
    · rw [hc] at hlt
      obtain rfl := Nat.lt_one_iff.mp hlt
      simp at hmem
    · exact newline_notMem_utf8EncodeChar hc (List.mem_of_mem_take hmem)

/-- Whether a line is the one of an offset in bytes: as many newlines lie in front of the offset as
lines in front of the line, which runs from behind the last of them through the next one. -/
structure Line.IsAt (bs : List UInt8) (offset : Nat) (line : Line) : Prop where
  number : line.number = 1 + (bs.take offset).count newline
  text : bytes (String.ofList line.text) =
    behindLast newline (bs.take offset) ++ throughFirst newline (bs.drop offset)
  column : line.column = (behindLast newline (bs.take offset)).length

/-- The line of every offset is found: of one inside a character, on a newline or past the end, too. -/
theorem isAt_ofPosition (source : String) (position : Nat) :
    (Line.ofPosition source position).IsAt (bytes source) (min position (bytes source).length) := by
  obtain ⟨cs, rfl⟩ : ∃ cs, source = String.ofList cs := ⟨source.toList, String.ofList_toList.symm⟩
  have hline : Line.ofPosition (String.ofList cs) position =
      Line.locate 1 (min position (byteLength cs)) (lines cs) := by
    rw [Line.ofPosition, String.toList_ofList]
  rw [hline, length_bytes]
  obtain ⟨before, after, k, rfl, hq, hcovers⟩ := exists_covers cs (Nat.min_le_right position _)
  rw [hq, Line.locate_lines 1 before hcovers]
  have htake : (bytes (String.ofList (before ++ after))).take (byteLength before + k) =
      bytes (String.ofList before) ++ (bytes (String.ofList after)).take k := by
    rw [bytes_append, ← length_bytes, List.take_length_add_append]
  have hdrop : (bytes (String.ofList (before ++ after))).drop (byteLength before + k) =
      (bytes (String.ofList after)).drop k := by
    rw [bytes_append, ← length_bytes, List.drop_length_add_append]
  -- The bytes that an offset inside a character leaves behind are no newline.
  have hnone := hcovers.newline_notMem
  refine ⟨?_, ?_, ?_⟩
  · rw [htake, List.count_append, count_newline_bytes, List.count_eq_zero.mpr hnone, Nat.add_zero]
  · rw [htake, hdrop, behindLast_append_of_notMem _ hnone, behindLast_bytes, bytes_append,
      ← throughFirst_bytes, List.append_assoc, ← throughFirst_append_of_notMem hnone,
      List.take_append_drop]
  · have hle : k ≤ (bytes (String.ofList after)).length := by
      rw [length_bytes]
      exact hcovers.le_byteLength
    rw [htake, behindLast_append_of_notMem _ hnone, behindLast_bytes, List.length_append,
      length_bytes, List.length_take, Nat.min_eq_left hle]

end Dialects.Text
