import Dialects.Proofs.Markup.Counting
import Dialects.Proofs.Markup.Language
import Dialects.Proofs.Markup.Spelling

/-!
# Written markup read back

The canonical values are exactly those that are read back as they were written.
-/

namespace Dialects.Markup

open Dialects.Text

theorem parse_text_of_apart {v : Value} (hnames : v.Everywhere Value.HasName)
    (htexts : v.Everywhere Value.HasText) (hapart : v.Everywhere Value.LeavesApart)
    (hnested : v.nesting ≤ nestingLimit) (layout : Layout) :
    parse (v.text layout) = .ok v.joined := by
  obtain ⟨ps, htext, hsymbols, hread⟩ :=
    isSpelled hnames htexts hapart layout 0 [] [] (by simp) (.inr isClosed_nil)
  have hscan := Piece.ofSource_text hread
  have hrun := v.derives.readAs (.eof (byteLength (Piece.text ps))) [] (Piece.tokens 0 ps) []
    (by simpa using hnested) (by rw [Piece.map_symbol_tokens, hsymbols])
  rw [List.append_nil] at hrun
  rw [htext, List.nil_append] at hscan
  unfold parse Reader.read Value.text
  rw [hscan, ← List.nil_append (v.write layout 0), ← htext]
  exact hrun

theorem isCanonical_of_parse_text {v : Value} {layout : Layout}
    (h : parse (v.text layout) = .ok v) : v.IsCanonical := by
  have hscan : (Scan.ofSource (v.text layout) : Scan Symbol) =
      Scan.ofCursor ⟨0, v.write layout 0 ++ []⟩ := by
    simp [Scan.ofSource, Value.text, Cursor.start]
  unfold parse Reader.read at h
  rw [hscan] at h
  obtain ⟨hplain, hnested⟩ := isSound_of_run (fun t ht => isPlain_of_mem_upTo ht) h
  have hmade : (State.root v).IsMadeFrom (startsAt ⟨0, v.write layout 0 ++ []⟩) :=
    isMadeFrom_of_run h
  have hadds := addsAtMost hplain layout 0 [] 0
  rw [startsAt_nil, Nat.add_zero] at hadds
  have hsize : (State.root v).size = v.size := rfl
  -- A value of more tokens than there are is ruled out by the one, a smaller one by the other.
  obtain hlt | ⟨heq, hnames, hapart, -⟩ := hadds
  · obtain hmore | ⟨hsame, -⟩ := hmade <;> omega
  · obtain hmore | ⟨-, hdistinct⟩ := hmade
    · omega
    · exact ⟨hnames, hplain.mono fun _ hv => hv.hasText, hapart, hdistinct, by omega⟩

/-- A value is read back as it was written if and only if it is canonical. -/
theorem parse_text_eq_ok_iff (layout : Layout) (v : Value) :
    parse (v.text layout) = .ok v ↔ v.IsCanonical := by
  constructor
  · exact isCanonical_of_parse_text
  · rintro ⟨hnames, htexts, hapart, hdistinct, hnested⟩
    rw [parse_text_of_apart hnames htexts hapart hnested, Value.joined_eq hdistinct]

/-! ## Rewritten texts -/

/-- Whether the name of a tag, if this is one, does not start with a slash. Such a name comes from
a tag with a blank in front of the slash. -/
def Value.HasOpenName : Value → Prop
  | tagged name _ => name.toList.head? ≠ some '/'
  | _ => True

theorem Value.hasName_of_hasOpenName {v : Value} (h : v.HasPlainText ∧ v.HasOpenName) :
    v.HasName := by
  cases v with
  | tagged name children => exact h
  | _ => trivial

theorem Value.HasName.hasOpenName {v : Value} (h : v.HasName) : v.HasOpenName := by
  cases v with
  | tagged name children => exact h.2
  | _ => trivial

/-- What has been read without two leaves next to one another, and without two tags of one name in
one tag, is read back as it was written exactly if no name starts with a slash. -/
theorem parse_text_eq_ok_iff_of_parse {source : String} {v : Value} (h : parse source = .ok v)
    (hapart : v.Everywhere Value.LeavesApart) (hdistinct : v.Everywhere Value.NamesDistinct)
    (layout : Layout) : parse (v.text layout) = .ok v ↔ v.Everywhere Value.HasOpenName := by
  rw [parse_text_eq_ok_iff]
  constructor
  · intro hcanonical
    exact hcanonical.names.mono fun _ hw => hw.hasOpenName
  · intro hopen
    -- Texts that were read are plain, and so are names but for the slash.
    obtain ⟨hplain, hnested⟩ := isSound_of_run (fun t ht => isPlain_of_mem_upTo ht) h
    have hnames := (hplain.and hopen).mono fun _ hw => Value.hasName_of_hasOpenName hw
    exact ⟨hnames, hplain.mono fun _ hw => hw.hasText, hapart, hdistinct, by omega⟩

theorem parse_text_of_slash_inside :
    parse "< a/b >x y</ a/b>" = .ok (.tagged "a/b" [.string "x y"]) ∧
      ∀ layout, parse ((Value.tagged "a/b" [.string "x y"]).text layout) =
        .ok (.tagged "a/b" [.string "x y"]) := by
  have hparse : parse "< a/b >x y</ a/b>" = .ok (.tagged "a/b" [.string "x y"]) := rfl
  have heverywhere (P : Value → Prop) (htag : P (.tagged "a/b" [.string "x y"]))
      (hleaf : P (.string "x y")) : (Value.tagged "a/b" [.string "x y"]).Everywhere P :=
    .tagged htag (List.forall_mem_singleton.mpr (.leaf rfl hleaf))
  refine ⟨hparse, fun layout => ?_⟩
  rw [parse_text_eq_ok_iff_of_parse hparse]
  · exact heverywhere _ (by simp [Value.HasOpenName]) trivial
  · exact heverywhere _ (List.isChain_singleton _) trivial
  · exact heverywhere _ List.nodup_nil trivial

/-- The slash of a name that follows a blank is taken for that of a closing tag once the blank is
gone. -/
theorem exists_parse_text_ne_of_slash :
    ∃ v, parse "< /a>x<//a>" = .ok v ∧ v.Everywhere Value.LeavesApart ∧
      v.Everywhere Value.NamesDistinct ∧ ∀ layout, parse (v.text layout) ≠ .ok v := by
  have hleaf (P : Value → Prop) (h : P (.string "x")) :
      ∀ v ∈ [Value.string "x"], v.Everywhere P := List.forall_mem_singleton.mpr (.leaf rfl h)
  refine ⟨.tagged "/a" [.string "x"], rfl, ?_, ?_, fun layout h => ?_⟩
  · exact .tagged (List.isChain_singleton _) (hleaf _ trivial)
  · exact .tagged List.nodup_nil (hleaf _ trivial)
  · obtain ⟨⟨-, hslash⟩, -⟩ := Value.everywhere_tagged.mp (isCanonical_of_parse_text h).names
    exact hslash rfl

end Dialects.Markup
