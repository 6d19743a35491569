import Dialects.Proofs.Json.Spelling

/-!
# Written JSON read back

A value that is not nested too deep is read back as it was written. One that is fails at the first
bracket for which there is no room.
-/

namespace Dialects.Json

open Dialects.Text (byteLength isBlank isBlank_of_mem_lineBreak)

/-! ## Brackets in a text -/

/-- Where a character stands: outside strings, in one, or behind a backslash in one. -/
inductive Mode
  | outside
  | inside
  | escaped
deriving DecidableEq

def Mode.after : Mode → Char → Mode
  | outside, c => if c = '"' then inside else outside
  | inside, c => if c = '"' then outside else if c = '\\' then escaped else inside
  | escaped, _ => inside

/-- The byte offset of the first bracket outside strings that opens a container for which there is
no room, if `room` more may be opened. -/
def overflow? : Mode → Nat → Nat → List Char → Option Nat
  | _, _, _, [] => none
  | mode, room, offset, c :: cs =>
    if mode = .outside ∧ (c = '[' ∨ c = '\x7b') then
      if room = 0 then some offset else overflow? mode (room - 1) (offset + c.utf8Size) cs
    else if mode = .outside ∧ (c = ']' ∨ c = '\x7d') then
      overflow? mode (room + 1) (offset + c.utf8Size) cs
    else overflow? (mode.after c) room (offset + c.utf8Size) cs

/-- Whether a character means the same outside strings wherever it stands. -/
def isPlain (c : Char) : Bool :=
  c != '"' && c != '[' && c != ']' && c != '\x7b' && c != '\x7d'

theorem overflow?_plain {cs : List Char} (h : ∀ c ∈ cs, isPlain c) (room offset : Nat)
    (rest : List Char) : overflow? .outside room offset (cs ++ rest) =
      overflow? .outside room (offset + byteLength cs) rest := by
  induction cs generalizing offset with
  | nil => simp
  | cons c cs ih =>
    have hc : isPlain c := h c (by simp)
    simp only [isPlain, Bool.and_eq_true, bne_iff_ne, ne_eq] at hc
    rw [List.cons_append, overflow?, if_neg (by simp [hc]), if_neg (by simp [hc]), Mode.after,
      if_neg hc.1.1.1.1, ih fun d hd => h d (by simp [hd])]
    simp [Nat.add_assoc]

theorem overflow?_cons_of_ne {mode : Mode} (h : mode ≠ .outside) (c : Char) (room offset : Nat)
    (cs : List Char) : overflow? mode room offset (c :: cs) =
      overflow? (mode.after c) room (offset + c.utf8Size) cs := by
  rw [overflow?, if_neg (by simp [h]), if_neg (by simp [h])]

theorem overflow?_inside {cs : List Char} (h : ∀ c ∈ cs, c ≠ '"' ∧ c ≠ '\\') (room offset : Nat)
    (rest : List Char) : overflow? .inside room offset (cs ++ rest) =
      overflow? .inside room (offset + byteLength cs) rest := by
  induction cs generalizing offset with
  | nil => simp
  | cons c cs ih =>
    obtain ⟨hquote, hslash⟩ := h c (by simp)
    rw [List.cons_append, overflow?_cons_of_ne (by simp), Mode.after, if_neg hquote,
      if_neg hslash, ih fun d hd => h d (by simp [hd])]
    simp [Nat.add_assoc]

theorem writeChar_cases (c : Char) :
    (c ≠ '"' ∧ c ≠ '\\') ∧ writeChar c = [c] ∨
      ∃ d ds, writeChar c = '\\' :: d :: ds ∧ ∀ e ∈ ds, e ≠ '"' ∧ e ≠ '\\' := by
  have hdigit : ∀ n < 16, Nat.digitChar n ≠ '"' ∧ Nat.digitChar n ≠ '\\' := by decide
  have hdigits : ∀ e ∈ hexDigits4 c.toNat, e ≠ '"' ∧ e ≠ '\\' := by
    intro e he
    obtain ⟨n, hn, rfl⟩ := List.mem_map.mp he
    refine hdigit n ?_
    simp only [List.mem_cons, List.not_mem_nil, or_false] at hn
    omega
  simp only [writeChar, beq_iff_eq]
  split_ifs with hquote hslash
  any_goals exact .inr ⟨_, [], rfl, by simp⟩
  · exact .inr ⟨'u', hexDigits4 c.toNat, rfl, hdigits⟩
  · exact .inl ⟨⟨hquote, hslash⟩, rfl⟩

theorem overflow?_writeChar (c : Char) (room offset : Nat) (rest : List Char) :
    overflow? .inside room offset (writeChar c ++ rest) =
      overflow? .inside room (offset + byteLength (writeChar c)) rest := by
  obtain ⟨hc, hw⟩ | ⟨d, ds, hw, hds⟩ := writeChar_cases c
  · rw [hw]
    exact overflow?_inside (by simpa using hc) room offset rest
  · rw [hw, List.cons_append, List.cons_append, overflow?_cons_of_ne (by simp), Mode.after,
      if_neg (by decide), if_pos rfl, overflow?_cons_of_ne (by simp), Mode.after,
      overflow?_inside hds]
    simp [Nat.add_assoc]

theorem overflow?_writeString (s : String) (room offset : Nat) (rest : List Char) :
    overflow? .outside room offset (writeString s ++ rest) =
      overflow? .outside room (offset + byteLength (writeString s)) rest := by
  have hbody (cs : List Char) (offset : Nat) (rest : List Char) :
      overflow? .inside room offset (cs.flatMap writeChar ++ rest) =
        overflow? .inside room (offset + byteLength (cs.flatMap writeChar)) rest := by
    induction cs generalizing offset with
    | nil => simp
    | cons c cs ih =>
      rw [List.flatMap_cons, List.append_assoc, overflow?_writeChar, ih]
      simp [Nat.add_assoc]
  simp only [writeString, List.cons_append, List.append_assoc, List.nil_append]
  rw [overflow?, if_neg (by decide), if_neg (by decide), Mode.after, if_pos rfl, hbody,
    overflow?_cons_of_ne (by simp), Mode.after, if_pos rfl]
  simp [Nat.add_assoc]

/-! ## Brackets among pieces -/

theorem isPlain_of_isBlank {c : Char} (h : isBlank c) : isPlain c := by
  simp only [isPlain, Bool.and_eq_true, bne_iff_ne, ne_eq]
  refine ⟨⟨⟨⟨?_, ?_⟩, ?_⟩, ?_⟩, ?_⟩ <;> rintro rfl <;> simp [isBlank] at h

theorem isPlain_of_isDigit {c : Char} (h : c.isDigit) : isPlain c := by
  simp only [isPlain, Bool.and_eq_true, bne_iff_ne, ne_eq]
  refine ⟨⟨⟨⟨?_, ?_⟩, ?_⟩, ?_⟩, ?_⟩ <;> rintro rfl <;> simp [Char.isDigit] at h

theorem mem_text_cases {x : Double} (h : x.isFinite) {c : Char} (hc : c ∈ x.text) :
    c = '-' ∨ c = '.' ∨ c.isDigit := by
  obtain ⟨whole, part, hwhole, hpart, htext⟩ := Decimal.isNumeral_text x.shortest
  rw [Double.text_of_finite h, htext] at hc
  rcases List.mem_append.mp hc with hc | hc
  · obtain ⟨-, rfl⟩ : x.isNegative ∧ c = '-' := by simpa using hc
    exact .inl rfl
  rcases List.mem_append.mp hc with hc | hc
  · exact .inr (.inr (hwhole.2 c hc))
  rcases hpart with rfl | ⟨digits, hdigits, rfl⟩
  · simp at hc
  · exact .inr ((List.mem_cons.mp hc).imp_right (hdigits.2 c))

theorem isPlain_of_mem_text {x : Double} (h : x.isFinite) : ∀ c ∈ x.text, isPlain c := by
  intro c hc
  obtain rfl | rfl | hdigit := mem_text_cases h hc
  · rfl
  · rfl
  · exact isPlain_of_isDigit hdigit

theorem overflow?_written {s : Symbol} (hs : s.IsWritten)
    (hneither : s.isOpening = false ∧ s.isClosing = false) (room offset : Nat) (rest : List Char) :
    overflow? .outside room offset (s.written ++ rest) =
      overflow? .outside room (offset + byteLength s.written) rest := by
  cases s with
  | string text => exact overflow?_writeString text room offset rest
  | number literal =>
    obtain ⟨x, hx, rfl⟩ := hs
    refine overflow?_plain ?_ room offset rest
    simpa [Symbol.written, Symbol.lexeme] using isPlain_of_mem_text hx
  | boolean b =>
    refine overflow?_plain ?_ room offset rest
    cases b <;> simp [Symbol.written, Symbol.lexeme, isPlain]
  | eof => exact absurd hs (by simp [Symbol.IsWritten])
  | leftBrace => simp [Symbol.isOpening] at hneither
  | leftBracket => simp [Symbol.isOpening] at hneither
  | rightBrace => simp [Symbol.isClosing] at hneither
  | rightBracket => simp [Symbol.isClosing] at hneither
  | _ =>
    refine overflow?_plain ?_ room offset rest
    simp [Symbol.written, Symbol.lexeme, isPlain]

theorem overflow?_opening {s : Symbol} (hs : s.isOpening) (room offset : Nat) (rest : List Char) :
    overflow? .outside room offset (s.written ++ rest) =
      if room = 0 then some offset
      else overflow? .outside (room - 1) (offset + byteLength s.written) rest := by
  cases s <;> simp_all [Symbol.isOpening, Symbol.written, Symbol.lexeme, overflow?]

theorem overflow?_closing {s : Symbol} (hs : s.isClosing) (room offset : Nat) (rest : List Char) :
    overflow? .outside room offset (s.written ++ rest) =
      overflow? .outside (room + 1) (offset + byteLength s.written) rest := by
  cases s <;> simp_all [Symbol.isClosing, Symbol.written, Symbol.lexeme, overflow?]

def IsWrittenPiece (p : Piece Symbol) : Prop :=
  ∃ blanks s, p = Symbol.piece blanks s ∧ s.IsWritten ∧ ∀ c ∈ blanks, isBlank c

theorem overflow?_text {ps : List (Piece Symbol)} (hps : ∀ p ∈ ps, IsWrittenPiece p)
    (room offset : Nat) (rest : List Char) :
    overflow? .outside room offset (Piece.text ps ++ rest) =
      match roomAfter room (Piece.tokens offset ps) with
      | .error f => some f.position
      | .ok left => overflow? .outside left (offset + byteLength (Piece.text ps)) rest := by
  induction ps generalizing room offset with
  | nil => simp [Piece.tokens, roomAfter]
  | cons p ps ih =>
    obtain ⟨blanks, s, rfl, hs, hblanks⟩ := hps p (by simp)
    have hrest := ih fun q hq => hps q (by simp [hq])
    -- The blanks in front of a symbol open nothing.
    have hskip := overflow?_plain (fun c hc => isPlain_of_isBlank (hblanks c hc)) room offset
      (s.written ++ (Piece.text ps ++ rest))
    have htokens : Piece.tokens offset (s.piece blanks :: ps) =
        ⟨s, offset + byteLength blanks⟩ ::
          Piece.tokens (offset + byteLength blanks + byteLength s.written) ps := by
      rw [Piece.tokens, chars_piece, Text.byteLength_append, ← Nat.add_assoc]
      rfl
    rw [Piece.text_cons, chars_piece, List.append_assoc, List.append_assoc, hskip, htokens,
      roomAfter, Text.byteLength_append, Text.byteLength_append, ← Nat.add_assoc, ← Nat.add_assoc]
    obtain ⟨hopen, hclose⟩ | ⟨hopen, hclose⟩ | hneither := s.opening_or_closing_or_neither
    · rw [overflow?_opening hopen, if_pos hopen]
      split_ifs
      · rfl
      · rw [hrest]
    · rw [overflow?_closing hclose, hrest]
      simp [hopen, hclose]
    · rw [overflow?_written hs hneither, hrest]
      simp [hneither]

theorem isWrittenPiece_containerPieces (layout : Layout) {opener closer : Symbol}
    (hopener : opener.IsWritten) (hcloser : closer.IsWritten) (depth : Nat) {blanks : List Char}
    (hblanks : ∀ c ∈ blanks, isBlank c) {parts : List (List (Piece Symbol))}
    (hparts : ∀ part ∈ parts, ∀ p ∈ part, IsWrittenPiece p) :
    ∀ p ∈ containerPieces layout opener closer depth blanks parts, IsWrittenPiece p := by
  have hopening : IsWrittenPiece (opener.piece blanks) := ⟨blanks, opener, rfl, hopener, hblanks⟩
  have hclosing (depth : Nat) : IsWrittenPiece (closer.piece (layout.lineBreak depth)) :=
    ⟨_, closer, rfl, hcloser, fun c hc => isBlank_of_mem_lineBreak hc⟩
  have hcomma : IsWrittenPiece (Symbol.comma.piece []) := ⟨[], .comma, rfl, trivial, by simp⟩
  cases parts with
  | nil =>
    have hend : IsWrittenPiece (closer.piece []) := ⟨[], closer, rfl, hcloser, by simp⟩
    simp [containerPieces, hopening, hend]
  | cons part parts =>
    intro p hp
    simp only [containerPieces, List.mem_cons, List.mem_append, List.mem_flatMap,
      List.not_mem_nil, or_false] at hp
    obtain rfl | hp | ⟨later, hlater, rfl | hp⟩ | rfl := hp
    · exact hopening
    · exact hparts part (by simp) p hp
    · exact hcomma
    · exact hparts later (by simp [hlater]) p hp
    · exact hclosing depth

theorem Value.isWrittenPiece_pieces (layout : Layout) (v : Value) (depth : Nat) {blanks : List Char}
    (hblanks : ∀ c ∈ blanks, isBlank c) :
    ∀ p ∈ v.pieces layout depth blanks, IsWrittenPiece p := by
  have hbreak (depth : Nat) : ∀ c ∈ layout.lineBreak depth, isBlank c :=
    fun c hc => isBlank_of_mem_lineBreak hc
  induction v using Value.induction generalizing depth blanks with
  | array items ih =>
    rw [pieces_array]
    exact isWrittenPiece_containerPieces layout (by trivial) (by trivial) depth hblanks
      (List.forall_mem_map.mpr fun v hv => ih v hv _ (hbreak _))
  | object members ih =>
    rw [pieces_object]
    refine isWrittenPiece_containerPieces layout (by trivial) (by trivial) depth hblanks
      (List.forall_mem_map.mpr ?_)
    intro m hm p hp
    simp only [List.mem_cons] at hp
    obtain rfl | rfl | hp := hp
    · exact ⟨_, .string m.1, rfl, trivial, hbreak _⟩
    · exact ⟨[], .colon, rfl, trivial, by simp⟩
    · exact ih m hm _ (fun c hc => isBlank_of_mem_keyBlanks hc) p hp
  | _ =>
    intro p hp
    obtain rfl := List.mem_singleton.mp hp
    exact ⟨blanks, _, rfl, isWritten_scalarSymbol _, hblanks⟩

/-! ## Reading back -/

/-- The byte offset of the first bracket of a text that opens a container beyond a limit. -/
def bracketBeyond? (limit : Nat) (text : String) : Option Nat :=
  overflow? .outside limit 0 text.toList

theorem roomAfter_error {room : Nat} {ts : List (Token Symbol)} {f : Failure}
    (h : roomAfter room ts = .error f) : f.cause = .tooDeep nestingLimit := by
  induction ts generalizing room with
  | nil => simp [roomAfter] at h
  | cons t ts ih =>
    rw [roomAfter] at h
    split_ifs at h
    · obtain rfl := Except.error.inj h
      rfl
    all_goals exact ih h

/-- A written value is read back, without the numbers that have no spelling, or else it is refused
at the first bracket beyond the limit. -/
theorem parse_text (layout : Layout) (v : Value) : parse (v.text layout) =
    match roomAfter nestingLimit (Piece.tokens 0 (v.pieces layout 0 [])) with
    | .error f => .error f
    | .ok _ => .ok v.readBack := by
  have hread := v.derives.readAs (.eof (byteLength (Piece.text (v.pieces layout 0 [])))) []
    nestingLimit (Piece.tokens 0 (v.pieces layout 0 [])) [] (Nat.zero_add _)
    (by rw [Piece.map_symbol_tokens, v.map_symbol_pieces])
  rw [List.append_nil] at hread
  have hparse : parse (v.text layout) = reader.run (Scan.ofSource (v.text layout)).ending
    (.ok (.value [])) (Scan.ofSource (v.text layout)).tokens := rfl
  rw [hparse, v.ofSource_text layout]
  exact hread.trans (by cases roomAfter nestingLimit _ <;> rfl)

theorem bracketBeyond?_text (layout : Layout) (v : Value) :
    bracketBeyond? nestingLimit (v.text layout) =
      match roomAfter nestingLimit (Piece.tokens 0 (v.pieces layout 0 [])) with
      | .error f => some f.position
      | .ok _ => none := by
  have htext : (v.text layout).toList = Piece.text (v.pieces layout 0 []) ++ [] := by
    rw [v.text_pieces layout 0 [], Value.text, String.toList_ofList, List.append_nil,
      List.nil_append]
  rw [bracketBeyond?, htext, overflow?_text (v.isWrittenPiece_pieces layout 0 (by simp))]
  cases roomAfter nestingLimit _ <;> rfl

theorem exists_roomAfter_iff (layout : Layout) (v : Value) :
    (∃ left, roomAfter nestingLimit (Piece.tokens 0 (v.pieces layout 0 [])) = .ok left) ↔
      v.nesting ≤ nestingLimit := by
  rw [← nestedWithin_iff, Piece.map_symbol_tokens, v.map_symbol_pieces, v.nestedWithin_symbols]

theorem parse_text_of_nesting_le (layout : Layout) {v : Value} (h : v.UniqueKeys)
    (hn : v.nesting ≤ nestingLimit) : parse (v.text layout) = .ok v.finitePart := by
  obtain ⟨left, hleft⟩ := (exists_roomAfter_iff layout v).mpr hn
  rw [parse_text, hleft, h.readBack_eq]

/-- A value whose objects have no key twice is read back as it was written, but for the numbers that
have no spelling. If it is nested too deep, it is refused at the first bracket beyond the limit. -/
theorem parse_text_of_uniqueKeys (layout : Layout) {v : Value} (h : v.UniqueKeys) :
    (v.nesting ≤ nestingLimit → parse (v.text layout) = .ok v.finitePart) ∧
    (v.nesting ≤ nestingLimit → v.AllFinite → parse (v.text layout) = .ok v) ∧
    (nestingLimit < v.nesting → ∃ position,
      bracketBeyond? nestingLimit (v.text layout) = some position ∧
      parse (v.text layout) = .error ⟨.tooDeep nestingLimit, position⟩) := by
  have hparse := parse_text layout v
  have hbracket := bracketBeyond?_text layout v
  have hshallow := parse_text_of_nesting_le layout h
  refine ⟨hshallow, fun hn hfinite => by rw [hshallow hn, hfinite.finitePart_eq], fun hn => ?_⟩
  cases hleft : roomAfter nestingLimit (Piece.tokens 0 (v.pieces layout 0 [])) with
  | ok left => exact absurd ((exists_roomAfter_iff layout v).mp ⟨left, hleft⟩) (by omega)
  | error f =>
    rw [hleft] at hparse hbracket
    refine ⟨f.position, hbracket, ?_⟩
    rw [hparse, ← roomAfter_error hleft]

def Value.nested : Nat → Value
  | 0 => array []
  | n + 1 => array [nested n]

theorem Value.uniqueKeys_nested (n : Nat) : (nested n).UniqueKeys := by
  induction n with
  | zero => exact .array (by simp)
  | succ n ih => exact .array (by simpa using ih)

theorem Value.nesting_nested (n : Nat) : (nested n).nesting = n + 1 := by
  induction n with
  | zero => rfl
  | succ n ih =>
    have hstep : (nested (n + 1)).nesting = depthOver [(nested n).nesting] := fold_array _ _ _ _
    rw [hstep, ih]
    rfl

/-- Minus zero under a key is read back, and arrays nested one level too deep are refused. -/
theorem parse_text_minus_zero_and_nested :
    parse ((Value.object [("key", .number ⟨0x8000000000000000⟩)]).text .indented) =
      .ok (.object [("key", .number ⟨0x8000000000000000⟩)]) ∧
    ∃ position, bracketBeyond? nestingLimit ((Value.nested 128).text .compact) = some position ∧
      parse ((Value.nested 128).text .compact) = .error ⟨.tooDeep nestingLimit, position⟩ := by
  have hkeys : (Value.object [("key", .number ⟨0x8000000000000000⟩)]).UniqueKeys :=
    .object (by simp [Entries.names]) (by simpa using .number _)
  have hfinite : (Value.object [("key", .number ⟨0x8000000000000000⟩)]).AllFinite :=
    .object (by simpa using .number (by decide))
  exact ⟨(parse_text_of_uniqueKeys .indented hkeys).2.1 (by decide) hfinite,
    (parse_text_of_uniqueKeys .compact (Value.uniqueKeys_nested 128)).2.2
      (by rw [Value.nesting_nested]; decide)⟩

end Dialects.Json
