import Dialects.Proofs.Double.ReadBack
import Dialects.Proofs.Json.Orthography
import Dialects.Proofs.Json.Value

/-!
# Written values token by token

What the writer puts for a value is made of pieces, each of which is read back as a symbol of the
value.
-/

namespace Dialects.Json

open Dialects.Text

/-! ## Written JSON symbols

Every symbol that the writer puts into a text is read back as that symbol.
-/

/-- The spelling that the writer gives a symbol. -/
def Symbol.written : Symbol → List Char
  | string text => writeString text
  | symbol => symbol.lexeme.toList

/-- Whether the writer uses a symbol. Its numbers are the texts of finite doubles. -/
def Symbol.IsWritten : Symbol → Prop
  | number literal => ∃ x : Double, x.isFinite ∧ literal = String.ofList x.text
  | eof => False
  | _ => True

/-- Whether a symbol has to be kept apart from letters and digits behind it. -/
def Symbol.isOpenEnded : Symbol → Bool
  | number _ | boolean _ | null => true
  | _ => false

theorem spelledAs_written {s : Symbol} (hs : s.IsWritten) : SpelledAs s.written s := by
  cases s with
  | string text =>
    have htext := SpelledAs.string (spellsText_flatMap text.toList)
    rwa [String.ofList_toList] at htext
  | number literal =>
    obtain ⟨x, hx, rfl⟩ := hs
    have hnumber := isNumberLiteral_of_isNumeral (Decimal.isNumeral_text x.shortest) x.isNegative
    rw [← Double.text_of_finite hx] at hnumber
    simpa [Symbol.written, Symbol.lexeme] using SpelledAs.number hnumber
  | boolean value =>
    cases value <;>
      simpa [Symbol.written, Symbol.lexeme] using SpelledAs.word (by simp [Symbol.ofWord?])
  | null => simpa [Symbol.written, Symbol.lexeme] using SpelledAs.word (by simp [Symbol.ofWord?])
  | eof => exact absurd hs (by simp [Symbol.IsWritten])
  | _ => simpa [Symbol.written, Symbol.lexeme] using SpelledAs.mark (by simp [Symbol.ofChar?])

/-- Whether a number or a word goes on with a character. -/
def goesOn (c : Char) : Bool := c.isAlphanum || c == '_' || c == '.'

theorem goesOn_of_extendsNumber (c : Char) (h : extendsNumber c) : goesOn c := by
  simp only [extendsNumber, Bool.or_eq_true, beq_iff_eq] at h
  obtain ((h | rfl) | rfl) | rfl := h
  · simp [goesOn, Char.isAlphanum, h]
  all_goals rfl

theorem goesOn_of_isWordChar (c : Char) (h : isWordChar c) : goesOn c := by
  simp only [isWordChar] at h
  simp [goesOn, h]

theorem endsBefore_of_stops {s : Symbol} {rest : List Char}
    (hrest : s.isOpenEnded → Stops goesOn rest) : s.EndsBefore rest := by
  cases s with
  | number literal => exact (hrest rfl).mono goesOn_of_extendsNumber
  | boolean value => exact (hrest rfl).mono goesOn_of_isWordChar
  | null => exact (hrest rfl).mono goesOn_of_isWordChar
  | _ => trivial

def Symbol.piece (blanks : List Char) (s : Symbol) : Piece Symbol := ⟨blanks, s, s.written⟩

@[simp] theorem symbol_piece (blanks : List Char) (s : Symbol) : (s.piece blanks).symbol = s := rfl

@[simp] theorem chars_piece (blanks : List Char) (s : Symbol) :
    (s.piece blanks).chars = blanks ++ s.written := rfl

theorem reads_piece {s : Symbol} (hs : s.IsWritten) {blanks rest : List Char}
    (hblanks : ∀ c ∈ blanks, isBlank c) (hrest : s.isOpenEnded → Stops goesOn rest) :
    (s.piece blanks).Reads rest :=
  Piece.reads_of_spells hblanks (spelledAs_written hs) (endsBefore_of_stops hrest)

/-! ## Pieces -/

def keyBlanks : Layout → List Char
  | .compact => []
  | .indented => [' ']

def containerPieces (layout : Layout) (opener closer : Symbol) (depth : Nat) (blanks : List Char) :
    List (List (Piece Symbol)) → List (Piece Symbol)
  | [] => [opener.piece blanks, closer.piece []]
  | part :: parts =>
    opener.piece blanks :: (part ++ (parts.flatMap (Symbol.comma.piece [] :: ·) ++
      [closer.piece (layout.lineBreak depth)]))

/-- The pieces of a value that is nested so deep and stands behind so many blanks. -/
def Value.pieces (layout : Layout) : Value → Nat → List Char → List (Piece Symbol) :=
  Value.fold (fun v _ blanks => [v.scalarSymbol.piece blanks])
    (fun items depth blanks =>
      containerPieces layout .leftBracket .rightBracket depth blanks
        (items.map fun item => item (depth + 1) (layout.lineBreak (depth + 1))))
    (fun members depth blanks =>
      containerPieces layout .leftBrace .rightBrace depth blanks
        (members.map fun m => (Symbol.string m.1).piece (layout.lineBreak (depth + 1)) ::
          Symbol.colon.piece [] :: m.2 (depth + 1) (keyBlanks layout)))

namespace Value

theorem pieces_array (layout : Layout) (items : List Value) (depth : Nat) (blanks : List Char) :
    (array items).pieces layout depth blanks =
      containerPieces layout .leftBracket .rightBracket depth blanks
        (items.map fun v => v.pieces layout (depth + 1) (layout.lineBreak (depth + 1))) := by
  rw [pieces, fold_array, List.map_map]
  rfl

theorem pieces_object (layout : Layout) (members : List (String × Value)) (depth : Nat)
    (blanks : List Char) : (object members).pieces layout depth blanks =
      containerPieces layout .leftBrace .rightBrace depth blanks
        (members.map fun m => (Symbol.string m.1).piece (layout.lineBreak (depth + 1)) ::
          Symbol.colon.piece [] :: m.2.pieces layout (depth + 1) (keyBlanks layout)) := by
  rw [pieces, fold_object, List.map_map]
  rfl

end Value

/-! ## Their symbols -/

theorem map_symbol_containerPieces (layout : Layout) (opener closer : Symbol) (depth : Nat)
    (blanks : List Char) (parts : List (List (Piece Symbol))) :
    (containerPieces layout opener closer depth blanks parts).map Piece.symbol =
      opener :: (separated (parts.map (List.map Piece.symbol)) ++ [closer]) := by
  have hlater : ∀ parts : List (List (Piece Symbol)),
      (parts.flatMap (Symbol.comma.piece [] :: ·)).map Piece.symbol =
        laterParts (parts.map (List.map Piece.symbol)) := by
    intro parts
    rw [laterParts, List.map_flatMap, List.flatMap_map]
    rfl
  cases parts with
  | nil => rfl
  | cons part parts =>
    simp only [containerPieces, List.map_cons, List.map_append, hlater, separated,
      List.append_assoc]
    rfl

theorem Value.map_symbol_pieces (layout : Layout) (v : Value) (depth : Nat) (blanks : List Char) :
    (v.pieces layout depth blanks).map Piece.symbol = v.symbols := by
  induction v using Value.induction generalizing depth blanks with
  | array items ih =>
    rw [pieces_array, map_symbol_containerPieces, symbols_array, List.map_map]
    congr 3
    exact List.map_congr_left fun v hv => ih v hv _ _
  | object members ih =>
    rw [pieces_object, map_symbol_containerPieces, symbols_object, List.map_map]
    congr 3
    refine List.map_congr_left fun m hm => ?_
    simp [ih m hm]
  | _ => rfl

/-! ## Their text -/

theorem text_containerPieces_cons (layout : Layout) (opener closer : Symbol) (depth : Nat)
    (blanks : List Char) (part : List (Piece Symbol)) (parts : List (List (Piece Symbol))) :
    Piece.text (containerPieces layout opener closer depth blanks (part :: parts)) =
      blanks ++ (opener.written ++ (Piece.text part ++
        (parts.flatMap (fun part => ',' :: Piece.text part) ++
          (layout.lineBreak depth ++ closer.written)))) := by
  have hlater : ∀ parts : List (List (Piece Symbol)),
      Piece.text (parts.flatMap (Symbol.comma.piece [] :: ·)) =
        parts.flatMap fun part => ',' :: Piece.text part := by
    intro parts
    induction parts with
    | nil => rfl
    | cons part parts ih =>
      rw [List.flatMap_cons, Piece.text_append, ih, Piece.text_cons]
      rfl
  simp [containerPieces, hlater]

namespace Value

def itemText (layout : Layout) (depth : Nat) (v : Value) : List Char :=
  layout.lineBreak depth ++ v.write layout depth

def memberText (layout : Layout) (depth : Nat) (m : String × Value) : List Char :=
  layout.lineBreak depth ++ (writeString m.1 ++ (keyMark layout ++ m.2.write layout depth))

theorem writeItems_cons (layout : Layout) (depth : Nat) (v : Value) (vs : List Value) :
    writeItems layout depth (v :: vs) =
      itemText layout depth v ++ vs.flatMap fun w => ',' :: itemText layout depth w := by
  induction vs generalizing v with
  | nil => simp [writeItems, itemText, separator]
  | cons w vs ih =>
    rw [writeItems, ih]
    simp [itemText, separator]

theorem writeMembers_cons (layout : Layout) (depth : Nat) (m : String × Value)
    (ms : List (String × Value)) : writeMembers layout depth (m :: ms) =
      memberText layout depth m ++ ms.flatMap fun n => ',' :: memberText layout depth n := by
  induction ms generalizing m with
  | nil => simp [writeMembers, memberText, separator]
  | cons n ms ih =>
    rw [writeMembers, ih]
    simp [memberText, separator]

theorem text_pieces (layout : Layout) (v : Value) (depth : Nat) (blanks : List Char) :
    Piece.text (v.pieces layout depth blanks) = blanks ++ v.write layout depth := by
  induction v using Value.induction generalizing depth blanks with
  | null => simp [pieces, fold, scalarSymbol, Symbol.written, Symbol.lexeme, write]
  | boolean b =>
    cases b <;> simp [pieces, fold, scalarSymbol, Symbol.written, Symbol.lexeme, write]
  | number x =>
    by_cases hx : x.isFinite <;>
      simp [pieces, fold, scalarSymbol, Symbol.written, Symbol.lexeme, write, writeNumber, hx]
  | string text => simp [pieces, fold, scalarSymbol, Symbol.written, write]
  | array items ih =>
    cases items with
    | nil => simp [pieces_array, containerPieces, Symbol.written, Symbol.lexeme, write]
    | cons v vs =>
      have hitem (w : Value) (hw : w ∈ v :: vs) :
          Piece.text (w.pieces layout (depth + 1) (layout.lineBreak (depth + 1))) =
            itemText layout (depth + 1) w := ih w hw _ _
      -- Every item behind the first has a comma in front.
      have hlater : (vs.map fun w => w.pieces layout (depth + 1)
            (layout.lineBreak (depth + 1))).flatMap (fun part => ',' :: Piece.text part) =
          vs.flatMap fun w => ',' :: itemText layout (depth + 1) w := by
        rw [List.flatMap_map]
        exact List.flatMap_congr fun w hw => by rw [hitem w (by simp [hw])]
      rw [pieces_array, List.map_cons, text_containerPieces_cons, hitem v (by simp), hlater, write,
        writeItems_cons]
      simp [Symbol.written, Symbol.lexeme]
  | object members ih =>
    cases members with
    | nil => simp [pieces_object, containerPieces, Symbol.written, Symbol.lexeme, write]
    | cons m ms =>
      have hmember (n : String × Value) (hn : n ∈ m :: ms) :
          Piece.text ((Symbol.string n.1).piece (layout.lineBreak (depth + 1)) ::
            Symbol.colon.piece [] :: n.2.pieces layout (depth + 1) (keyBlanks layout)) =
          memberText layout (depth + 1) n := by
        have hkey : keyMark layout = ':' :: keyBlanks layout := by cases layout <;> rfl
        simp [memberText, ih n hn, hkey, Symbol.written, Symbol.lexeme]
      have hlater : (ms.map fun n => (Symbol.string n.1).piece (layout.lineBreak (depth + 1)) ::
            Symbol.colon.piece [] :: n.2.pieces layout (depth + 1) (keyBlanks layout)).flatMap
              (fun part => ',' :: Piece.text part) =
          ms.flatMap fun n => ',' :: memberText layout (depth + 1) n := by
        rw [List.flatMap_map]
        exact List.flatMap_congr fun n hn => by rw [hmember n (by simp [hn])]
      rw [pieces_object, List.map_cons, text_containerPieces_cons, hmember m (by simp), hlater,
        write, writeMembers_cons]
      simp [Symbol.written, Symbol.lexeme]

end Value

/-! ## Reading them back -/

theorem stops_lineBreak (layout : Layout) (depth : Nat) {rest : List Char}
    (h : Stops goesOn rest) : Stops goesOn (layout.lineBreak depth ++ rest) := by
  cases layout with
  | compact => exact h
  | indented => simp [Layout.lineBreak, goesOn, Char.isAlphanum, Char.isAlpha, Char.isUpper,
      Char.isLower, Char.isDigit]

/-- Whether pieces are read in front of every text that no number or word goes on with. -/
def ReadBefore (ps : List (Piece Symbol)) : Prop :=
  ∀ rest : List Char, Stops goesOn rest → Piece.AllRead ps rest

theorem readBefore_laterParts {parts : List (List (Piece Symbol))}
    (h : ∀ part ∈ parts, ReadBefore part) {rest : List Char} (hrest : Stops goesOn rest) :
    Piece.AllRead (parts.flatMap (Symbol.comma.piece [] :: ·)) rest ∧
      Stops goesOn (Piece.text (parts.flatMap (Symbol.comma.piece [] :: ·)) ++ rest) := by
  induction parts with
  | nil => exact ⟨trivial, hrest⟩
  | cons part parts ih =>
    obtain ⟨hread, hstops⟩ := ih fun p hp => h p (by simp [hp])
    have hpart := h part (by simp) _ hstops
    have hcomma (rest : List Char) : (Symbol.comma.piece []).Reads rest :=
      reads_piece (s := .comma) trivial (by simp) (by simp [Symbol.isOpenEnded])
    rw [List.flatMap_cons, Piece.allRead_append]
    refine ⟨⟨⟨hcomma _, hpart⟩, hread⟩, ?_⟩
    simp [Symbol.written, Symbol.lexeme, goesOn, Char.isAlphanum, Char.isAlpha, Char.isUpper,
      Char.isLower, Char.isDigit]

theorem reads_bracket {s : Symbol} (hs : s.isOpening ∨ s.isClosing) {blanks : List Char}
    (hblanks : ∀ c ∈ blanks, isBlank c) (rest : List Char) : (s.piece blanks).Reads rest := by
  apply reads_piece _ hblanks
  all_goals cases s <;>
    simp_all [Symbol.isOpening, Symbol.isClosing, Symbol.IsWritten, Symbol.isOpenEnded]

theorem stops_closer {s : Symbol} (hs : s.isClosing) (rest : List Char) :
    Stops goesOn (s.written ++ rest) := by
  cases s <;> simp_all [Symbol.isClosing, Symbol.written, Symbol.lexeme, goesOn, Char.isAlphanum,
    Char.isAlpha, Char.isUpper, Char.isLower, Char.isDigit]

theorem readBefore_containerPieces (layout : Layout) {opener closer : Symbol}
    (hopener : opener.isOpening) (hcloser : closer.isClosing) (depth : Nat) {blanks : List Char}
    (hblanks : ∀ c ∈ blanks, isBlank c) {parts : List (List (Piece Symbol))}
    (hparts : ∀ part ∈ parts, ReadBefore part) :
    ReadBefore (containerPieces layout opener closer depth blanks parts) := by
  intro rest _
  cases parts with
  | nil =>
    exact ⟨reads_bracket (.inl hopener) hblanks _, reads_bracket (.inr hcloser) (by simp) _,
      trivial⟩
  | cons part parts =>
    have hend : Stops goesOn (Piece.text [closer.piece (layout.lineBreak depth)] ++ rest) := by
      simpa using stops_lineBreak layout depth (stops_closer hcloser rest)
    have htail : ∀ p ∈ parts, ReadBefore p := fun p hp => hparts p (by simp [hp])
    obtain ⟨hlater, hstops⟩ := readBefore_laterParts htail hend
    have hlast : Piece.AllRead [closer.piece (layout.lineBreak depth)] rest :=
      ⟨reads_bracket (.inr hcloser) (fun c hc => isBlank_of_mem_lineBreak hc) _, trivial⟩
    refine ⟨reads_bracket (.inl hopener) hblanks _, ?_⟩
    rw [Piece.allRead_append, Piece.allRead_append, Piece.text_append, List.append_assoc]
    exact ⟨hparts part (by simp) _ hstops, hlater, hlast⟩

theorem Value.isWritten_scalarSymbol (v : Value) : v.scalarSymbol.IsWritten := by
  cases v with
  | number x =>
    by_cases hx : x.isFinite
    · rw [scalarSymbol, if_pos hx]
      exact ⟨x, hx, rfl⟩
    · rw [scalarSymbol, if_neg hx]
      trivial
  | _ => trivial

theorem isBlank_of_mem_keyBlanks {layout : Layout} {c : Char} (h : c ∈ keyBlanks layout) :
    isBlank c := by
  cases layout with
  | compact => simp [keyBlanks] at h
  | indented =>
    obtain rfl : c = ' ' := by simpa [keyBlanks] using h
    rfl

theorem readBefore_single {s : Symbol} (hs : s.IsWritten) {blanks : List Char}
    (hblanks : ∀ c ∈ blanks, isBlank c) : ReadBefore [s.piece blanks] :=
  fun _ hrest => ⟨reads_piece hs hblanks fun _ => hrest, trivial⟩

theorem Value.readBefore_pieces (layout : Layout) (v : Value) (depth : Nat) {blanks : List Char}
    (hblanks : ∀ c ∈ blanks, isBlank c) : ReadBefore (v.pieces layout depth blanks) := by
  have hbreak (depth : Nat) : ∀ c ∈ layout.lineBreak depth, isBlank c :=
    fun c hc => isBlank_of_mem_lineBreak hc
  induction v using Value.induction generalizing depth blanks with
  | array items ih =>
    rw [pieces_array]
    exact readBefore_containerPieces layout rfl rfl depth hblanks
      (List.forall_mem_map.mpr fun v hv => ih v hv _ (hbreak _))
  | object members ih =>
    rw [pieces_object]
    refine readBefore_containerPieces layout rfl rfl depth hblanks (List.forall_mem_map.mpr ?_)
    intro m hm rest hrest
    refine ⟨reads_piece (s := .string m.1) trivial (hbreak _) ?_,
      reads_piece (s := .colon) trivial (by simp) ?_,
      ih m hm _ (fun c hc => isBlank_of_mem_keyBlanks hc) rest hrest⟩
    · simp [Symbol.isOpenEnded]
    · simp [Symbol.isOpenEnded]
  | _ => exact readBefore_single (isWritten_scalarSymbol _) hblanks

theorem Value.ofSource_text (layout : Layout) (v : Value) :
    (Scan.ofSource (v.text layout) : Scan Symbol) =
      ⟨Piece.tokens 0 (v.pieces layout 0 []),
        .eof (byteLength (Piece.text (v.pieces layout 0 [])))⟩ := by
  have hread : Piece.AllRead (v.pieces layout 0 []) [] :=
    v.readBefore_pieces layout 0 (by simp) [] (by simp)
  have htext : Piece.text (v.pieces layout 0 []) = v.write layout 0 := v.text_pieces layout 0 []
  rw [text, ← htext]
  exact Piece.ofSource_text hread

end Dialects.Json
