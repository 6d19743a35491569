import Dialects.Diagnostic
import Dialects.Proofs.Line

/-!
# Carets of diagnostics

The caret of a diagnostic stands right below the character that its failure lies at, however the line is
indented and whatever it holds.
-/

namespace Dialects.Diagnostic

open Dialects.Text

variable {d : Char}

/-! ## The shown part of a line -/

theorem newline_notMem_trimEnd (cs : List Char) : '\n' ∉ trimEnd (throughFirst '\n' cs) := by
  intro hmem
  by_cases h : '\n' ∈ cs
  · obtain ⟨inner, rest, rfl, hinner⟩ := List.eq_append_cons_of_mem h
    have htrim : trimEnd (inner ++ ['\n']) = trimEnd inner := by
      have hblank : isBlank '\n' = true := rfl
      simp [trimEnd, hblank]
    rw [throughFirst_append_of_notMem hinner, throughFirst_cons_self, htrim] at hmem
    exact hinner ((trimEnd_prefix_self inner).subset hmem)
  · rw [throughFirst_of_notMem h] at hmem
    exact h ((trimEnd_prefix_self cs).subset hmem)

theorem newline_notMem_toString (n : Nat) : '\n' ∉ (toString n).toList := by
  intro hmem
  have hdigit := Nat.isDigit_of_mem_toDigits (b := 10) (by decide) (by decide)
    (Nat.toList_repr (n := n) ▸ hmem)
  simp [Char.isDigit] at hdigit

theorem indentation_append_cons (hd : isBlank d = false) (start rest : List Char) :
    indentation (start ++ d :: rest) = indentation start := by
  unfold indentation
  apply takeWhile_append_cons
  rw [Bool.or_eq_false_iff, beq_eq_false_iff_ne, beq_eq_false_iff_ne]
  constructor
  · rintro rfl
    simp [isBlank] at hd
  · rintro rfl
    simp [isBlank] at hd

theorem length_indentation_le (cs : List Char) : (indentation cs).length ≤ cs.length :=
  (List.takeWhile_prefix _).length_le

/-- The line of a character that is no blank, which stands behind `start` on that line. -/
def lineOf (number : Nat) (start : List Char) (d : Char) (after : List Char) : Line :=
  ⟨number, start ++ throughFirst '\n' (d :: after), byteLength start⟩

variable {number : Nat} {start after : List Char}

theorem charColumn_lineOf : (lineOf number start d after).charColumn = start.length := by
  unfold lineOf Line.charColumn
  simp only [dropBytes?_byteLength, List.length_append]
  omega

section

variable (hd : isBlank d = false)

include hd

theorem text_lineOf :
    (lineOf number start d after).text = start ++ d :: throughFirst '\n' after := by
  unfold lineOf
  rw [throughFirst, if_neg]
  rintro rfl
  simp [isBlank] at hd

theorem toList_quotation_lineOf : (quotation (lineOf number start d after)).toList =
    (toString number ++ " | ").toList ++ (start.drop (indentation start).length ++
      d :: trimEnd (throughFirst '\n' after)) := by
  unfold quotation
  rw [text_lineOf hd, indentation_append_cons hd,
    List.drop_append_of_le_length (length_indentation_le start), trimEnd_append_cons hd]
  simp [lineOf]

theorem newline_notMem_quotation_lineOf (hstart : '\n' ∉ start) :
    '\n' ∉ (quotation (lineOf number start d after)).toList := by
  intro hmem
  rw [toList_quotation_lineOf hd, String.toList_append, List.append_assoc] at hmem
  rcases List.mem_append.mp hmem with hmem | hmem
  · exact newline_notMem_toString number hmem
  rcases List.mem_append.mp hmem with hmem | hmem
  · simp at hmem
  rcases List.mem_append.mp hmem with hmem | hmem
  · exact hstart (List.mem_of_mem_drop hmem)
  rcases List.mem_cons.mp hmem with rfl | hmem
  · simp [isBlank] at hd
  · exact newline_notMem_trimEnd after hmem

end

/-! ## The last two lines -/

/-- What stands in front of the caret. -/
def pointer (line : Line) : List Char :=
  (bar line ++ " ").toList ++ List.replicate (line.charColumn - (indentation line.text).length) '-'

theorem toList_caret (line : Line) :
    (bar line ++ " " ++ caret line).toList = pointer line ++ ['^'] := by
  unfold pointer caret
  simp

theorem mem_pointer {line : Line} {c : Char} (h : c ∈ pointer line) : c = ' ' ∨ c = '|' ∨ c = '-' := by
  simp [pointer, bar] at h
  tauto

theorem length_pointer (line : Line) : (pointer line).length =
    (toString line.number).length + 3 + (line.charColumn - (indentation line.text).length) := by
  simp [pointer, bar]
  omega

theorem splitOn_render {f : Failure} {source : String} {line : Line}
    (hline : Line.ofPosition source f.position = line) (h : '\n' ∉ (quotation line).toList)
    (sourceName : String) : ∃ above, (render f source sourceName).toList.splitOn '\n' =
      above ++ [(quotation line).toList, pointer line ++ ['^']] := by
  have hcaret : '\n' ∉ pointer line ++ ['^'] := by
    intro hmem
    rcases List.mem_append.mp hmem with hmem | hmem
    · rcases mem_pointer hmem with heq | heq | heq <;> simp at heq
    · simp at hmem
  have hrender : (render f source sourceName).toList =
      (headline f ++ "\n-> " ++ sourceName ++ "\n" ++ bar line).toList ++
        '\n' :: ((quotation line).toList ++ '\n' :: (pointer line ++ ['^'])) := by
    unfold render
    rw [hline, ← toList_caret]
    simp
  refine ⟨(headline f ++ "\n-> " ++ sourceName ++ "\n" ++ bar line).toList.splitOn '\n', ?_⟩
  rw [hrender, List.splitOn_append_cons_self, List.splitOn_append_cons_self_of_not_mem h,
    List.splitOn_eq_singleton hcaret]

/-- Split at its newlines, a diagnostic ends in two lines: one starts with the number of the line that
the failure lies on, and the other ends in a caret, which stands below the character at the failure. -/
theorem caret_below_character {source sourceName : String} {f : Failure} {before after : List Char}
    (hsource : source.toList = before ++ d :: after) (hposition : f.position = byteLength before)
    (hd : isBlank d = false) :
    ∃ above shown pointer,
      (render f source sourceName).toList.splitOn '\n' = above ++ [shown, pointer ++ ['^']] ∧
      '^' ∉ pointer ∧ (toString (1 + before.count '\n') ++ " | ").toList <+: shown ∧
      shown[pointer.length]? = some d := by
  have hline : Line.ofPosition source f.position =
      lineOf (1 + before.count '\n') (behindLast '\n' before) d after := by
    rw [hposition, Line.ofPosition_byteLength hsource]
    rfl
  set number := 1 + before.count '\n'
  set start := behindLast '\n' before
  have hquotation : (quotation (lineOf number start d after)).toList =
      (toString number ++ " | ").toList ++ (start.drop (indentation start).length ++
        d :: trimEnd (throughFirst '\n' after)) := toList_quotation_lineOf hd
  obtain ⟨above, hsplit⟩ := splitOn_render hline
    (newline_notMem_quotation_lineOf hd (notMem_behindLast '\n' before)) sourceName
  refine ⟨above, _, _, hsplit, ?_, ?_, ?_⟩
  · intro hmem
    rcases mem_pointer hmem with heq | heq | heq <;> simp at heq
  · rw [hquotation]
    exact List.prefix_append _ _
  · -- Both lines have three more characters than the number in front of what the indentation leaves.
    have hnumber : (toString number ++ " | ").toList.length = (toString number).length + 3 := by
      rw [String.toList_append, List.length_append, String.length_toList]
      rfl
    have hindex : (pointer (lineOf number start d after)).length =
        (toString number ++ " | ").toList.length + (start.drop (indentation start).length).length := by
      rw [length_pointer, charColumn_lineOf, text_lineOf hd, indentation_append_cons hd, hnumber,
        List.length_drop]
      rfl
    rw [hquotation, hindex, List.getElem?_append_right (Nat.le_add_right _ _), Nat.add_sub_cancel_left,
      List.getElem?_append_right le_rfl, Nat.sub_self]
    rfl

/-- Neither the indentation nor characters of several bytes in front of it move the caret. -/
theorem caret_below_character_behind_tab :
    render ⟨.unterminatedString, 7⟩ "x\n\t é\r☃ \n" "a\nb" =
        "Error: UnterminatedString (Add the closing `\"` to the string)\n-> a\nb\n  |\n2 | é\r☃\n  | --^" ∧
      ∃ above shown pointer, (render ⟨.unterminatedString, 7⟩ "x\n\t é\r☃ \n" "a\nb").toList.splitOn '\n' =
          above ++ [shown, pointer ++ ['^']] ∧
        '^' ∉ pointer ∧ "2 | ".toList <+: shown ∧ shown[pointer.length]? = some '☃' := by
  have hsource : "x\n\t é\r☃ \n".toList = ['x', '\n', '\t', ' ', 'é', '\r'] ++ '☃' :: [' ', '\n'] := rfl
  have hcaret :=
    @caret_below_character '☃' _ "a\nb" ⟨.unterminatedString, 7⟩ _ _ hsource rfl rfl
  exact ⟨by decide +kernel, hcaret⟩

end Dialects.Diagnostic
