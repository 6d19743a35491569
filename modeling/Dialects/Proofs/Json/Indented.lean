import Dialects.Proofs.Json.RoundTrip

/-!
# Indented and compact JSON

The indented text of a value is its compact text with blanks outside strings. Each of its lines is
set in by two spaces for each container that stays open.
-/

namespace Dialects.Json

open Dialects.Text (isBlank isBlank_of_isDigit isBlank_of_mem_lineBreak isDigit_iff)

/-! ## Outside strings -/

/-- The characters of a text, each with where it stands. -/
def marked : Mode → List Char → List (Mode × Char)
  | _, [] => []
  | mode, c :: cs => (mode, c) :: marked (mode.after c) cs

/-- Where the character behind a text stands. -/
def modeBehind (cs : List Char) : Mode := cs.foldl Mode.after .outside

def outsideStrings (cs : List Char) : List Char :=
  ((marked .outside cs).filter fun p => p.1 = .outside).map Prod.snd

/-- A text without the blanks that stand outside strings. -/
def withoutBlanks (cs : List Char) : List Char :=
  ((marked .outside cs).filter fun p => !(p.1 = .outside && isBlank p.2)).map Prod.snd

def isOpener (c : Char) : Bool := c = '[' || c = '\x7b'

def isCloser (c : Char) : Bool := c = ']' || c = '\x7d'

/-- How many containers a text opens. -/
def opened (cs : List Char) : Nat := (outsideStrings cs).countP isOpener

/-- How many containers a text closes. -/
def closed (cs : List Char) : Nat := (outsideStrings cs).countP isCloser

theorem marked_append (mode : Mode) (as bs : List Char) :
    marked mode (as ++ bs) = marked mode as ++ marked (as.foldl Mode.after mode) bs := by
  induction as generalizing mode with
  | nil => rfl
  | cons a as ih => simp [marked, ih]

theorem map_snd_marked (mode : Mode) (cs : List Char) : (marked mode cs).map Prod.snd = cs := by
  induction cs generalizing mode with
  | nil => rfl
  | cons c cs ih => simp [marked, ih]

section Append

variable {as : List Char} (h : modeBehind as = .outside) (bs : List Char)
include h

theorem marked_append_of_outside :
    marked .outside (as ++ bs) = marked .outside as ++ marked .outside bs := by
  rw [marked_append, ← modeBehind, h]

theorem modeBehind_append : modeBehind (as ++ bs) = modeBehind bs := by
  rw [modeBehind, List.foldl_append, ← modeBehind, h, modeBehind]

theorem outsideStrings_append :
    outsideStrings (as ++ bs) = outsideStrings as ++ outsideStrings bs := by
  simp [outsideStrings, marked_append_of_outside h]

theorem withoutBlanks_append : withoutBlanks (as ++ bs) = withoutBlanks as ++ withoutBlanks bs := by
  simp [withoutBlanks, marked_append_of_outside h]

theorem opened_append : opened (as ++ bs) = opened as + opened bs := by
  simp [opened, outsideStrings_append h]

theorem closed_append : closed (as ++ bs) = closed as + closed bs := by
  simp [closed, outsideStrings_append h]

end Append

theorem withoutBlanks_eq_self {cs : List Char} (h : ∀ c ∈ outsideStrings cs, isBlank c = false) :
    withoutBlanks cs = cs := by
  have hkept : ∀ p ∈ marked .outside cs, (!(p.1 = .outside && isBlank p.2)) = true := by
    intro p hp
    by_cases hmode : p.1 = .outside
    · have hblank := h p.2 (List.mem_map.mpr ⟨p, by simp [hp, hmode], rfl⟩)
      simp [hblank]
    · simp [hmode]
  rw [withoutBlanks, List.filter_eq_self.mpr hkept, map_snd_marked]

section Unquoted

variable {cs : List Char} (h : '"' ∉ cs)
include h

theorem marked_of_unquoted : marked .outside cs = cs.map (Prod.mk .outside) := by
  induction cs with
  | nil => rfl
  | cons c cs ih =>
    simp only [List.mem_cons, not_or] at h
    rw [marked, Mode.after, if_neg (Ne.symm h.1), ih h.2, List.map_cons]

theorem modeBehind_of_unquoted : modeBehind cs = .outside := by
  induction cs with
  | nil => rfl
  | cons c cs ih =>
    simp only [List.mem_cons, not_or] at h
    rw [modeBehind, List.foldl_cons, Mode.after, if_neg (Ne.symm h.1)]
    exact ih h.2

theorem outsideStrings_of_unquoted : outsideStrings cs = cs := by
  simp [outsideStrings, marked_of_unquoted h, List.filter_map, Function.comp_def]

end Unquoted

section Plain

variable {cs : List Char} (h : ∀ c ∈ cs, isPlain c)
include h

theorem quote_notMem_of_isPlain : '"' ∉ cs := fun hquote => absurd (h _ hquote) (by decide)

theorem opened_closed_of_isPlain : opened cs = 0 ∧ closed cs = 0 := by
  have hbracket : ∀ c ∈ cs, isOpener c = false ∧ isCloser c = false := by
    intro c hc
    have hplain := h c hc
    simp_all [isPlain, isOpener, isCloser]
  rw [opened, closed, outsideStrings_of_unquoted (quote_notMem_of_isPlain h)]
  exact ⟨List.countP_eq_zero.mpr fun c hc => by simp [(hbracket c hc).1],
    List.countP_eq_zero.mpr fun c hc => by simp [(hbracket c hc).2]⟩

end Plain

/-! ## What the writer puts into strings -/

theorem marked_writeChar (c : Char) : (∀ p ∈ marked .inside (writeChar c), p.1 ≠ .outside) ∧
    (writeChar c).foldl Mode.after .inside = .inside := by
  have hplain (cs : List Char) (hcs : ∀ c ∈ cs, c ≠ '"' ∧ c ≠ '\\') :
      (∀ p ∈ marked .inside cs, p.1 ≠ .outside) ∧ cs.foldl Mode.after .inside = .inside := by
    induction cs with
    | nil => simp [marked]
    | cons c cs ih =>
      obtain ⟨hquote, hslash⟩ := hcs c (by simp)
      simpa [marked, Mode.after, hquote, hslash] using ih fun d hd => hcs d (by simp [hd])
  obtain ⟨hc, hw⟩ | ⟨d, ds, hw, hds⟩ := writeChar_cases c
  · rw [hw]
    exact hplain [c] (by simpa using hc)
  · -- What stands behind a backslash is passed over, whatever it is.
    rw [hw]
    simpa [marked, Mode.after] using hplain ds hds

theorem marked_body (cs : List Char) :
    (∀ p ∈ marked .inside (cs.flatMap writeChar), p.1 ≠ .outside) ∧
      (cs.flatMap writeChar).foldl Mode.after .inside = .inside := by
  induction cs with
  | nil => simp [marked]
  | cons c cs ih =>
    obtain ⟨hmarked, hmode⟩ := marked_writeChar c
    rw [List.flatMap_cons, marked_append, List.foldl_append, hmode]
    exact ⟨fun p hp => (List.mem_append.mp hp).elim (hmarked p) (ih.1 p), ih.2⟩

theorem modeBehind_writeString (s : String) : modeBehind (writeString s) = .outside := by
  simp [modeBehind, writeString, Mode.after, (marked_body s.toList).2]

theorem outsideStrings_writeString (s : String) : outsideStrings (writeString s) = ['"'] := by
  obtain ⟨hbody, hmode⟩ := marked_body s.toList
  have hnone : (marked .inside (s.toList.flatMap writeChar)).filter (fun p => p.1 = .outside) =
      [] := by simpa using hbody
  simp [outsideStrings, writeString, marked, Mode.after, marked_append, hmode, hnone]

theorem isControl_of_mem_writeChar {c d : Char} (h : d ∈ writeChar c) : isControl d = false := by
  have hdigit : ∀ n < 16, isControl (Nat.digitChar n) = false := by decide
  have hdigits : ∀ e ∈ hexDigits4 c.toNat, isControl e = false := by
    intro e he
    obtain ⟨n, hn, rfl⟩ := List.mem_map.mp he
    refine hdigit n ?_
    simp only [List.mem_cons, List.not_mem_nil, or_false] at hn
    omega
  -- A control character is escaped by characters that are none.
  simp only [writeChar, beq_iff_eq] at h
  split_ifs at h with _ _ _ _ _ _ _ hcontrol
  any_goals
    simp only [List.mem_cons, List.not_mem_nil, or_false] at h
    obtain rfl | rfl := h <;> rfl
  · obtain rfl | rfl | hd := by simpa using h
    · rfl
    · rfl
    · exact hdigits d hd
  · obtain rfl := List.mem_singleton.mp h
    simpa using hcontrol

/-! ## Written symbols -/

theorem isControl_of_isDigit {c : Char} (h : c.isDigit) : isControl c = false := by
  rw [isDigit_iff] at h
  simp [isControl]
  omega

theorem string_or_forall_mem_written {s : Symbol} (hs : s.IsWritten) :
    (∃ text, s = .string text) ∨
      ∀ c ∈ s.written, c ≠ '"' ∧ isBlank c = false ∧ isControl c = false := by
  cases s with
  | string text => exact .inl ⟨text, rfl⟩
  | eof => exact absurd hs (by simp [Symbol.IsWritten])
  | number literal =>
    obtain ⟨x, hx, rfl⟩ := hs
    refine .inr fun c hc => ?_
    have hmem : c ∈ x.text := by simpa [Symbol.written, Symbol.lexeme] using hc
    -- A number is written in digits, with maybe a sign and a point.
    obtain rfl | rfl | hdigit := mem_text_cases hx hmem
    · decide
    · decide
    · refine ⟨?_, isBlank_of_isDigit hdigit, isControl_of_isDigit hdigit⟩
      rintro rfl
      simp [Char.isDigit] at hdigit
  | boolean b =>
    right
    cases b <;> simp [Symbol.written, Symbol.lexeme] <;> decide
  | _ =>
    right
    simp [Symbol.written, Symbol.lexeme]
    decide

section Written

variable {s : Symbol} (hs : s.IsWritten) {c : Char}
include hs

theorem modeBehind_written : modeBehind s.written = .outside := by
  obtain ⟨text, rfl⟩ | hall := string_or_forall_mem_written hs
  · exact modeBehind_writeString text
  · exact modeBehind_of_unquoted fun h => (hall _ h).1 rfl

theorem isBlank_of_mem_outsideStrings_written (hc : c ∈ outsideStrings s.written) :
    isBlank c = false := by
  obtain ⟨text, rfl⟩ | hall := string_or_forall_mem_written hs
  · obtain rfl : c = '"' := by simpa [Symbol.written, outsideStrings_writeString] using hc
    rfl
  · rw [outsideStrings_of_unquoted fun h => (hall _ h).1 rfl] at hc
    exact (hall c hc).2.1

theorem isControl_of_mem_written (hc : c ∈ s.written) : isControl c = false := by
  obtain ⟨text, rfl⟩ | hall := string_or_forall_mem_written hs
  · obtain rfl | ⟨d, -, hd⟩ | rfl : c = '"' ∨ (∃ d ∈ text.toList, c ∈ writeChar d) ∨ c = '"' := by
      simpa [Symbol.written, writeString] using hc
    · rfl
    · exact isControl_of_mem_writeChar hd
    · rfl
  · exact (hall c hc).2.2

theorem opened_closed_written : opened s.written = (if s.isOpening then 1 else 0) ∧
    closed s.written = if s.isClosing then 1 else 0 := by
  cases s with
  | string text => simp [opened, closed, Symbol.written, outsideStrings_writeString, isOpener,
      isCloser, Symbol.isOpening, Symbol.isClosing]
  | number literal =>
    obtain ⟨x, hx, rfl⟩ := hs
    have hwritten : (Symbol.number (String.ofList x.text)).written = x.text := by
      simp [Symbol.written, Symbol.lexeme]
    rw [hwritten]
    exact opened_closed_of_isPlain (isPlain_of_mem_text hx)
  | eof => exact absurd hs (by simp [Symbol.IsWritten])
  | boolean b => cases b <;> simp [Symbol.written, Symbol.lexeme] <;> decide
  | _ =>
    simp [Symbol.written, Symbol.lexeme]
    decide

theorem exists_written_eq_cons : ∃ c cs, s.written = c :: cs ∧ isBlank c = false ∧
    isCloser c = s.isClosing := by
  obtain ⟨c, cs, hcons⟩ := List.exists_cons_of_ne_nil (spelledAs_written hs).isTrimmed.1
  have hhead : c ∈ outsideStrings s.written := by simp [hcons, outsideStrings, marked]
  refine ⟨c, cs, hcons, isBlank_of_mem_outsideStrings_written hs hhead, ?_⟩
  -- A closing bracket outside strings is a symbol by itself.
  by_cases hclose : s.isClosing
  · have hbracket : s = .rightBrace ∨ s = .rightBracket := by
      cases s <;> simp_all [Symbol.isClosing]
    obtain rfl | rfl := hbracket
    all_goals
      obtain rfl : _ = c := by simpa [Symbol.written, Symbol.lexeme] using congrArg List.head? hcons
      rfl
  · have hnone := (opened_closed_written hs).2
    rw [if_neg hclose, closed, List.countP_eq_zero] at hnone
    simpa [hclose] using hnone c hhead

end Written

/-! ## Compact texts -/

theorem map_piece_containerPieces (opener closer : Symbol) (depth : Nat)
    (parts : List (List Symbol)) :
    containerPieces .compact opener closer depth [] (parts.map (List.map (Symbol.piece []))) =
      (opener :: (separated parts ++ [closer])).map (Symbol.piece []) := by
  cases parts with
  | nil => rfl
  | cons part parts =>
    simp [containerPieces, separated, laterParts, List.flatMap_map, List.map_flatMap,
      Layout.lineBreak]

theorem Value.pieces_compact (v : Value) (depth : Nat) :
    v.pieces .compact depth [] = v.symbols.map (Symbol.piece []) := by
  induction v using Value.induction generalizing depth with
  | array items ih =>
    rw [pieces_array, symbols_array, ← map_piece_containerPieces .leftBracket .rightBracket depth,
      List.map_map]
    congr 1
    exact List.map_congr_left fun v hv => ih v hv _
  | object members ih =>
    rw [pieces_object, symbols_object, ← map_piece_containerPieces .leftBrace .rightBrace depth,
      List.map_map]
    congr 1
    refine List.map_congr_left fun m hm => ?_
    simp [ih m hm, Layout.lineBreak, keyBlanks]
  | _ => rfl

theorem Value.write_compact (v : Value) (depth : Nat) :
    v.write .compact depth = v.symbols.flatMap Symbol.written := by
  have htext := v.text_pieces .compact depth []
  rw [pieces_compact, List.nil_append] at htext
  rw [← htext, Piece.text, List.flatMap_map]
  rfl

theorem Value.isWritten_of_mem_symbols (v : Value) {s : Symbol} (hs : s ∈ v.symbols) :
    s.IsWritten := by
  rw [← v.map_symbol_pieces .compact 0 []] at hs
  obtain ⟨p, hp, rfl⟩ := List.mem_map.mp hs
  obtain ⟨blanks, s, rfl, hs, -⟩ := v.isWrittenPiece_pieces .compact 0 (by simp) p hp
  exact hs

/-! ## Blanks between symbols -/

theorem isWrittenPiece_chars {p : Piece Symbol} (hp : IsWrittenPiece p) :
    modeBehind p.chars = .outside ∧ withoutBlanks p.chars = p.symbol.written ∧
      opened p.chars = (if p.symbol.isOpening then 1 else 0) ∧
      closed p.chars = if p.symbol.isClosing then 1 else 0 := by
  obtain ⟨blanks, s, rfl, hs, hblanks⟩ := hp
  have hplain : ∀ c ∈ blanks, isPlain c := fun c hc => isPlain_of_isBlank (hblanks c hc)
  have hquote := quote_notMem_of_isPlain hplain
  have hmode := modeBehind_of_unquoted hquote
  have hnone : withoutBlanks blanks = [] := by
    simpa [withoutBlanks, marked_of_unquoted hquote, List.filter_map] using hblanks
  obtain ⟨hopened, hclosed⟩ := opened_closed_of_isPlain hplain
  -- The blanks of a piece go, and the symbol stays as it is.
  have hkept := withoutBlanks_eq_self fun c hc => isBlank_of_mem_outsideStrings_written hs hc
  obtain ⟨hopen, hclose⟩ := opened_closed_written hs
  rw [chars_piece, symbol_piece, modeBehind_append hmode, withoutBlanks_append hmode,
    opened_append hmode, closed_append hmode, hnone, hopened, hclosed, hkept, hopen, hclose]
  exact ⟨modeBehind_written hs, List.nil_append _, Nat.zero_add _, Nat.zero_add _⟩

theorem withoutBlanks_text {ps : List (Piece Symbol)} (hps : ∀ p ∈ ps, IsWrittenPiece p) :
    withoutBlanks (Piece.text ps) = (ps.map Piece.symbol).flatMap Symbol.written := by
  induction ps with
  | nil => rfl
  | cons p ps ih =>
    obtain ⟨hmode, hsymbol, -⟩ := isWrittenPiece_chars (hps p (by simp))
    rw [Piece.text_cons, withoutBlanks_append hmode, hsymbol, ih fun q hq => hps q (by simp [hq]),
      List.map_cons, List.flatMap_cons]

theorem isBlank_of_mem_outsideStrings {ss : List Symbol} (hss : ∀ s ∈ ss, s.IsWritten) {c : Char}
    (hc : c ∈ outsideStrings (ss.flatMap Symbol.written)) : isBlank c = false := by
  induction ss with
  | nil => simp [outsideStrings, marked] at hc
  | cons s ss ih =>
    have hs := hss s (by simp)
    rw [List.flatMap_cons, outsideStrings_append (modeBehind_written hs), List.mem_append] at hc
    obtain hc | hc := hc
    · exact isBlank_of_mem_outsideStrings_written hs hc
    · exact ih (fun t ht => hss t (by simp [ht])) hc

/-! ## Lines -/

/-- Whether blanks hold no line break, or are one that is so far in. -/
def SetIn (depth : Nat) (blanks : List Char) : Prop :=
  '\n' ∉ blanks ∨ blanks = Layout.indented.lineBreak depth

/-- Pieces that are set in by the containers that stay open, from so many open ones to so many. A
closing bracket is as far in as the container that it closes. -/
inductive IsIndented : Nat → List (Piece Symbol) → Nat → Prop
  | nil (depth : Nat) : IsIndented depth [] depth
  | opening {depth depth' : Nat} {p : Piece Symbol} {ps : List (Piece Symbol)}
      (hs : p.symbol.isOpening) (hp : SetIn depth p.blanks) (h : IsIndented (depth + 1) ps depth') :
      IsIndented depth (p :: ps) depth'
  | closing {depth depth' : Nat} {p : Piece Symbol} {ps : List (Piece Symbol)}
      (hs : p.symbol.isClosing) (hp : SetIn depth p.blanks) (h : IsIndented depth ps depth') :
      IsIndented (depth + 1) (p :: ps) depth'
  | neither {depth depth' : Nat} {p : Piece Symbol} {ps : List (Piece Symbol)}
      (hs : p.symbol.isOpening = false ∧ p.symbol.isClosing = false) (hp : SetIn depth p.blanks)
      (h : IsIndented depth ps depth') : IsIndented depth (p :: ps) depth'

theorem IsIndented.append {depth depth' depth'' : Nat} {ps qs : List (Piece Symbol)}
    (hps : IsIndented depth ps depth') (hqs : IsIndented depth' qs depth'') :
    IsIndented depth (ps ++ qs) depth'' := by
  induction hps with
  | nil => exact hqs
  | opening hs hp _ ih => exact .opening hs hp (ih hqs)
  | closing hs hp _ ih => exact .closing hs hp (ih hqs)
  | neither hs hp _ ih => exact .neither hs hp (ih hqs)

theorem isIndented_containerPieces {opener closer : Symbol} (hopener : opener.isOpening)
    (hcloser : closer.isClosing) (depth : Nat) {blanks : List Char} (hblanks : SetIn depth blanks)
    {parts : List (List (Piece Symbol))}
    (hparts : ∀ part ∈ parts, IsIndented (depth + 1) part (depth + 1)) :
    IsIndented depth (containerPieces .indented opener closer depth blanks parts) depth := by
  have hclosing {blanks : List Char} (h : SetIn depth blanks) :
      IsIndented (depth + 1) [closer.piece blanks] depth := .closing hcloser h (.nil depth)
  -- The parts behind the first come after commas, which start no line.
  have hlater (parts : List (List (Piece Symbol)))
      (h : ∀ part ∈ parts, IsIndented (depth + 1) part (depth + 1)) :
      IsIndented (depth + 1) (parts.flatMap (Symbol.comma.piece [] :: ·)) (depth + 1) := by
    induction parts with
    | nil => exact .nil _
    | cons part parts ih =>
      have hpart := h part (by simp)
      exact .neither ⟨rfl, rfl⟩ (.inl (by simp [Symbol.piece]))
        (hpart.append (ih fun p hp => h p (by simp [hp])))
  cases parts with
  | nil => exact .opening hopener hblanks (hclosing (.inl (by simp)))
  | cons part parts =>
    exact .opening hopener hblanks <| (hparts part (by simp)).append <|
      (hlater parts fun p hp => hparts p (by simp [hp])).append (hclosing (.inr rfl))

theorem Value.isIndented_pieces (v : Value) (depth : Nat) {blanks : List Char}
    (hblanks : SetIn depth blanks) : IsIndented depth (v.pieces .indented depth blanks) depth := by
  induction v using Value.induction generalizing depth blanks with
  | array items ih =>
    rw [pieces_array]
    exact isIndented_containerPieces rfl rfl depth hblanks
      (List.forall_mem_map.mpr fun v hv => ih v hv _ (.inr rfl))
  | object members ih =>
    rw [pieces_object]
    refine isIndented_containerPieces rfl rfl depth hblanks (List.forall_mem_map.mpr ?_)
    intro m hm
    -- A key starts a line, on which its colon and the beginning of its value stay.
    exact .neither ⟨rfl, rfl⟩ (.inr rfl)
      (.neither ⟨rfl, rfl⟩ (.inl (by simp [Symbol.piece])) (ih m hm _ (.inl (by simp [keyBlanks]))))
  | number x =>
    refine .neither ?_ hblanks (.nil depth)
    rw [symbol_piece, scalarSymbol]
    split_ifs <;> exact ⟨rfl, rfl⟩
  | _ => exact .neither ⟨rfl, rfl⟩ hblanks (.nil depth)

/-- Whether what is behind a line break is set in by two spaces for each container that stays open,
if `depth` more are open than the text in front of it opens. -/
def IsLineAt (depth : Nat) (before after : List Char) : Prop :=
  ∃ k c rest, after = List.replicate (2 * k) ' ' ++ c :: rest ∧ isBlank c = false ∧
    modeBehind before = .outside ∧
    depth + opened before = closed before + k + if isCloser c then 1 else 0

theorem exists_of_append_eq_append_cons {α : Type} {as bs before after : List α} {a : α}
    (h : as ++ bs = before ++ a :: after) :
    (∃ middle, as = before ++ a :: middle ∧ after = middle ++ bs) ∨
      ∃ middle, before = as ++ middle ∧ bs = middle ++ a :: after := by
  obtain ⟨middle, rfl, hbs⟩ | ⟨middle, rfl, hbs⟩ := List.append_eq_append_iff.mp h
  · exact .inr ⟨middle, rfl, hbs⟩
  · cases middle with
    | nil => exact .inr ⟨[], by simp, by simpa using hbs.symm⟩
    | cons b middle =>
      obtain ⟨rfl, rfl⟩ := List.cons.inj hbs
      exact .inl ⟨middle, rfl, rfl⟩

theorem isLineAt_of_blanks {depth k : Nat} {blanks before middle rest : List Char} {s : Symbol}
    (hs : s.IsWritten) (hset : SetIn k blanks) (hdepth : depth = k + if s.isClosing then 1 else 0)
    (h : blanks = before ++ '\n' :: middle) :
    IsLineAt depth before (middle ++ (s.written ++ rest)) := by
  obtain ⟨c, cs, hcons, hblank, hcloser⟩ := exists_written_eq_cons hs
  obtain hnone | hbreak := hset
  · exact absurd (by simp [h]) hnone
  -- The newline is the first character of the line break, and spaces follow.
  obtain ⟨rfl, hmiddle⟩ : before = [] ∧ List.replicate (2 * k) ' ' = middle := by
    rw [hbreak, Layout.lineBreak] at h
    cases before with
    | nil => exact ⟨rfl, (List.cons.inj h).2⟩
    | cons b before =>
      have hmem : '\n' ∈ List.replicate (2 * k) ' ' := by simp [(List.cons.inj h).2]
      exact absurd (List.eq_of_mem_replicate hmem) (by decide)
  refine ⟨k, c, cs ++ rest, by simp [hmiddle, hcons], hblank, rfl, ?_⟩
  simpa [hcloser, opened, closed, outsideStrings, marked] using hdepth

theorem isLineAt_cons {depth depth' k : Nat} {p : Piece Symbol} {text : List Char}
    (hp : IsWrittenPiece p) (hset : SetIn k p.blanks)
    (hdepth : depth = k + if p.symbol.isClosing then 1 else 0)
    (hdepth' : depth + (if p.symbol.isOpening then 1 else 0) =
      depth' + if p.symbol.isClosing then 1 else 0)
    (hrest : ∀ before after, text = before ++ '\n' :: after → IsLineAt depth' before after)
    (before after : List Char) (h : p.chars ++ text = before ++ '\n' :: after) :
    IsLineAt depth before after := by
  obtain ⟨hmode, -, hopened, hclosed⟩ := isWrittenPiece_chars hp
  obtain ⟨middle, hchars, rfl⟩ | ⟨middle, rfl, htext⟩ := exists_of_append_eq_append_cons h
  · -- No symbol holds a line break, so one in the piece is among its blanks.
    obtain ⟨blanks, s, rfl, hs, -⟩ := hp
    rw [chars_piece] at hchars
    obtain ⟨middle, hblanks, rfl⟩ | ⟨middle, -, hwritten⟩ := exists_of_append_eq_append_cons hchars
    · rw [List.append_assoc]
      exact isLineAt_of_blanks hs hset hdepth hblanks
    · have hmem : '\n' ∈ s.written := by simp [hwritten]
      exact absurd (isControl_of_mem_written hs hmem) (by decide)
  · -- A line break behind the piece counts what the piece opens or closes, too.
    obtain ⟨k, c, rest, rfl, hblank, hmiddle, hcount⟩ := hrest middle after htext
    refine ⟨k, c, rest, rfl, hblank, by rw [modeBehind_append hmode, hmiddle], ?_⟩
    rw [opened_append hmode, closed_append hmode, hopened, hclosed]
    omega

theorem IsIndented.isLineAt {depth depth' : Nat} {ps : List (Piece Symbol)}
    (h : IsIndented depth ps depth') (hps : ∀ p ∈ ps, IsWrittenPiece p) (before after : List Char)
    (htext : Piece.text ps = before ++ '\n' :: after) : IsLineAt depth before after := by
  induction h generalizing before after with
  | nil => simp at htext
  | opening hs hset _ ih =>
    have hrest := ih fun q hq => hps q (by simp [hq])
    refine isLineAt_cons (hps _ (by simp)) hset ?_ ?_ hrest _ _ htext
    all_goals simp [hs, not_isClosing_of_isOpening hs]
  | closing hs hset _ ih =>
    have hrest := ih fun q hq => hps q (by simp [hq])
    refine isLineAt_cons (hps _ (by simp)) hset ?_ ?_ hrest _ _ htext
    all_goals simp [hs, not_isOpening_of_isClosing hs]
  | neither hs hset _ ih =>
    have hrest := ih fun q hq => hps q (by simp [hq])
    refine isLineAt_cons (hps _ (by simp)) hset ?_ ?_ hrest _ _ htext
    all_goals simp [hs]

/-- Whether an indented text is a compact one with nothing but lines and blanks outside strings
added. -/
structure IsLayoutOf (indented compact : List Char) : Prop where
  withoutBlanks_eq : withoutBlanks indented = compact
  isBlank_eq : ∀ c ∈ outsideStrings compact, isBlank c = false
  isControl_eq : ∀ c ∈ compact, isControl c = false
  isLineAt : ∀ before after, indented = before ++ '\n' :: after → IsLineAt 0 before after

/-- The indented text of a value is its compact text but for the layout. -/
theorem Value.isLayoutOf_text (v : Value) :
    IsLayoutOf (v.text .indented).toList (v.text .compact).toList := by
  have hcompact : (v.text .compact).toList = v.symbols.flatMap Symbol.written := by
    rw [text, String.toList_ofList, write_compact]
  have hindented : (v.text .indented).toList = Piece.text (v.pieces .indented 0 []) := by
    rw [text, String.toList_ofList, text_pieces, List.nil_append]
  have hpieces : ∀ p ∈ v.pieces .indented 0 [], IsWrittenPiece p :=
    v.isWrittenPiece_pieces .indented 0 (by simp)
  rw [hcompact, hindented]
  refine ⟨?_, ?_, ?_, ?_⟩
  · rw [withoutBlanks_text hpieces, v.map_symbol_pieces]
  · exact fun c => isBlank_of_mem_outsideStrings fun s => v.isWritten_of_mem_symbols
  · intro c hc
    obtain ⟨s, hs, hc⟩ := List.mem_flatMap.mp hc
    exact isControl_of_mem_written (v.isWritten_of_mem_symbols hs) hc
  · exact (v.isIndented_pieces 0 (.inl (by simp))).isLineAt hpieces

example : (Value.array [.null, .object [("\x7b ", .array [])]]).text .indented =
    "[\n  null,\n  \x7b\n    \"\x7b \": []\n  \x7d\n]" := by decide

end Dialects.Json
