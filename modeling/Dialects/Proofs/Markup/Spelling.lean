import Dialects.Proofs.Markup.Document
import Dialects.Proofs.Markup.Orthography

/-!
# Written markup token by token

What the writer puts for a value with plain texts, in which no two leaves are next to one another,
is scanned into the symbols of the value.
-/

namespace Dialects.Markup

open Dialects.Text

/-! ## Spelled symbols -/

/-- Whether a text in front of another is scanned into tokens with given symbols. -/
def Spells (cs : List Char) (ss : List Symbol) (rest : List Char) : Prop :=
  ∃ ps : List (Piece Symbol),
    Piece.text ps = cs ∧ ps.map Piece.symbol = ss ∧ Piece.AllRead ps rest

theorem Spells.append {cs ds rest : List Char} {ss ts : List Symbol}
    (hcs : Spells cs ss (ds ++ rest)) (hds : Spells ds ts rest) :
    Spells (cs ++ ds) (ss ++ ts) rest := by
  obtain ⟨ps, rfl, rfl, hps⟩ := hcs
  obtain ⟨qs, rfl, rfl, hqs⟩ := hds
  exact ⟨ps ++ qs, Piece.text_append ps qs, List.map_append,
    (Piece.allRead_append ps qs rest).mpr ⟨hps, hqs⟩⟩

theorem spells_of_next {s : Symbol} (hs : s ≠ .eof) {blanks : List Char}
    (hblanks : ∀ c ∈ blanks, isBlank c) {spelling rest : List Char}
    (hnext : ∀ offset, ∃ c, next ⟨offset, spelling ++ rest⟩ = (.ok ⟨s, offset⟩, c) ∧
      c.skipBlanks = (⟨offset + byteLength spelling, rest⟩ : Cursor).skipBlanks) :
    Spells (blanks ++ spelling) [s] rest := by
  refine ⟨[⟨blanks, s, spelling⟩], by simp [Piece.chars], rfl, ?_, trivial⟩
  intro offset
  obtain ⟨c, hc, hskip⟩ := hnext (offset + byteLength blanks)
  refine ⟨c, ?_, isEof_eq_false hs, ?_⟩
  · rw [← LawfulLexicon.next_skipBlanks, Piece.text_nil, List.nil_append, Piece.chars,
      List.append_assoc, Cursor.skipBlanks_append_skipBlanks hblanks,
      LawfulLexicon.next_skipBlanks]
    exact hc
  · rw [hskip, Piece.text_nil, List.nil_append, Piece.chars, byteLength_append, Nat.add_assoc]

theorem spells_openMark {name : String} (hname : IsPlain name.toList)
    (hslash : name.toList.head? ≠ some '/') {blanks : List Char}
    (hblanks : ∀ c ∈ blanks, isBlank c) (rest : List Char) :
    Spells (blanks ++ openMark name) [.openTag name] rest := by
  apply spells_of_next (by simp) hblanks
  intro offset
  exact ⟨_, next_openMark hname hslash offset rest, rfl⟩

theorem spells_closeMark {name : String} (hname : IsPlain name.toList) {blanks : List Char}
    (hblanks : ∀ c ∈ blanks, isBlank c) (rest : List Char) :
    Spells (blanks ++ closeMark name) [.closeTag name] rest := by
  apply spells_of_next (by simp) hblanks
  intro offset
  exact ⟨_, next_closeMark hname offset rest, rfl⟩

theorem spells_leafText {v : Value} (hv : v.isTag = false) (h : v.HasPlainText)
    {blanks : List Char} (hblanks : ∀ c ∈ blanks, isBlank c) {rest : List Char}
    (hrest : IsClosed rest) : Spells (blanks ++ v.leafText) [v.leafSymbol] rest := by
  have hplain := Value.isPlain_leafText hv h
  apply spells_of_next (by cases v <;> simp [Value.leafSymbol]) hblanks
  rw [← Value.ofText_leafText hv h]
  exact exists_next_of_isClosed hplain hrest

/-! ## Spelled values -/

theorem isClosed_write {v : Value} (hv : v.isTag) (layout : Layout) (depth : Nat)
    (rest : List Char) : IsClosed (v.write layout depth ++ rest) := by
  cases v with
  | tagged name children =>
    obtain ⟨inner, blanks, -, hwrite⟩ := Value.exists_write_tagged layout depth name children
    rw [hwrite, openMark_eq, List.append_assoc]
    exact isClosed_mark false name.toList _
  | _ => simp [Value.isTag] at hv

/-- Whether a value is scanned into its symbols wherever it stands, a leaf not in front of more of
its line. -/
def Value.IsSpelled (v : Value) : Prop :=
  ∀ (layout : Layout) (depth : Nat) (blanks rest : List Char), (∀ c ∈ blanks, isBlank c) →
    v.isTag ∨ IsClosed rest → Spells (blanks ++ v.write layout depth) v.symbols rest

theorem spells_writeAll {children : List Value} (h : ∀ v ∈ children, v.IsSpelled)
    (hchain : children.IsChain fun a b => a.isTag ∨ b.isTag) (layout : Layout) (depth : Nat)
    {rest : List Char} (hrest : IsClosed rest) :
    Spells (Value.writeAll layout depth children) (children.map Value.symbols).flatten rest := by
  have hbreak : ∀ c ∈ layout.lineBreak depth, isBlank c :=
    fun c hc => isBlank_of_mem_lineBreak hc
  induction children with
  | nil => exact ⟨[], rfl, rfl, trivial⟩
  | cons v vs ih =>
    obtain ⟨hv, hvs⟩ := List.forall_mem_cons.mp h
    have hnext : v.isTag ∨ IsClosed (Value.writeAll layout depth vs ++ rest) := by
      cases vs with
      | nil => exact .inr hrest
      | cons w ws =>
        obtain ⟨hvw, -⟩ := List.isChain_cons_cons.mp hchain
        refine hvw.imp_right fun hw => ?_
        rw [Value.writeAll, List.append_assoc, List.append_assoc, isClosed_append hbreak]
        exact isClosed_write hw layout depth _
    have hfirst := hv layout depth (layout.lineBreak depth) _ hbreak hnext
    have hall := hfirst.append (ih hvs hchain.tail)
    rw [List.append_assoc] at hall
    exact hall

theorem isSpelled {v : Value} (hnames : v.Everywhere Value.HasName)
    (htexts : v.Everywhere Value.HasText) (hapart : v.Everywhere Value.LeavesApart) :
    v.IsSpelled := by
  induction v using Value.induction with
  | leaf v hv =>
    intro layout depth blanks rest hblanks hnext
    have hplain : v.HasPlainText := by
      cases v with
      | tagged name children => simp [Value.isTag] at hv
      | string text =>
        have htext : (Value.string text).HasText := (Value.everywhere_leaf hv).mp htexts
        exact htext
      | _ => trivial
    have hrest : IsClosed rest := hnext.resolve_left (by simp [hv])
    rw [Value.write_leaf hv, Value.symbols, Value.fold_leaf _ _ hv]
    exact spells_leafText hv hplain hblanks hrest
  | tagged name children ih =>
    intro layout depth blanks rest hblanks _
    obtain ⟨⟨hname, hslash⟩, hnames⟩ := Value.everywhere_tagged.mp hnames
    obtain ⟨-, htexts⟩ := Value.everywhere_tagged.mp htexts
    obtain ⟨hchain, hapart⟩ := Value.everywhere_tagged.mp hapart
    obtain ⟨inner, inside, hinside, hwrite⟩ :=
      Value.exists_write_tagged layout depth name children
    -- A leaf in the last place ends at the closing mark.
    have hclosed : IsClosed (inside ++ closeMark name ++ rest) := by
      rw [List.append_assoc, isClosed_append hinside, closeMark_eq]
      exact isClosed_mark true name.toList rest
    have hchildren := spells_writeAll
      (fun v hv => ih v hv (hnames v hv) (htexts v hv) (hapart v hv)) hchain inner (depth + 1)
      hclosed
    have hall := (spells_openMark hname hslash hblanks _).append
      (hchildren.append (spells_closeMark hname hinside rest))
    rw [hwrite, Value.symbols_tagged, ← List.append_assoc]
    exact hall

end Dialects.Markup
