import Dialects.Proofs.Markup.Value
import Dialects.Proofs.Scan

/-!
# Markup tokens

A tag is read up to its closing bracket and a leaf up to the next bracket. What is read is plain.
-/

namespace Dialects.Markup

open Dialects.Text

/-! ## Reading a token -/

/-- Whether a symbol other than the end stands for a plain text. -/
def Symbol.IsPlain : Symbol → Prop
  | openTag name => Markup.IsPlain name.toList
  | closeTag name => Markup.IsPlain name.toList
  | string text => Markup.IsPlain text.toList ∧ ofText text.toList = string text
  | eof => False
  | _ => True

theorem isPlain_trim {cs : List Char} (hne : trim cs ≠ []) (h : ∀ c ∈ cs, isBracket c = false) :
    IsPlain (trim cs) :=
  ⟨hne, isTrimmed_trim cs, fun c hc => h c (mem_of_mem_trim hc)⟩

theorem isPlain_ofText {cs : List Char} (h : IsPlain cs) : (Symbol.ofText cs).IsPlain := by
  cases hs : Symbol.ofText cs with
  | string text =>
    obtain rfl : String.ofList cs = text := by
      simp only [Symbol.ofText] at hs
      split_ifs at hs
      exact Symbol.string.inj hs
    simpa [Symbol.IsPlain, hs] using h
  | number literal => trivial
  | boolean value => trivial
  | null => trivial
  | _ =>
    simp only [Symbol.ofText] at hs
    split_ifs at hs

theorem not_isBracket_of_mem_takeWhile {c : Char} {cs : List Char}
    (h : c ∈ cs.takeWhile (!isBracket ·)) : isBracket c = false := by
  simpa using List.mem_takeWhile_imp h

/-! ## Spelled symbols -/

def mark (closing : Bool) (name : List Char) : List Char :=
  '<' :: ((if closing then ['/'] else []) ++ (name ++ ['>']))

def Symbol.ofMark (closing : Bool) (name : List Char) : Symbol :=
  if closing then .closeTag (String.ofList name) else .openTag (String.ofList name)

def Symbol.isMark : Symbol → Bool
  | openTag _ | closeTag _ => true
  | _ => false

/-- How a symbol stands in a text: as a mark with blanks around its name, or as a plain text. -/
inductive SpelledAs : List Char → Symbol → Prop
  | tag (closing : Bool) {raw : List Char} (hraw : ∀ c ∈ raw, isBracket c = false)
    (hslash : closing = false → raw.head? ≠ some '/') (hname : trim raw ≠ []) :
    SpelledAs (mark closing raw) (Symbol.ofMark closing (trim raw))
  | leaf {cs : List Char} (h : IsPlain cs) : SpelledAs cs (Symbol.ofText cs)

theorem length_mark (closing : Bool) (name : List Char) :
    (mark closing name).length = (if closing then 2 else 1) + name.length + 1 := by
  cases closing <;> simp [mark] <;> omega

theorem isMark_ofText (cs : List Char) : (Symbol.ofText cs).isMark = false := by
  unfold Symbol.ofText
  dsimp only
  split_ifs <;> rfl

theorem SpelledAs.ne_nil {cs : List Char} {s : Symbol} (h : SpelledAs cs s) : cs ≠ [] := by
  cases h with
  | tag closing hraw hslash hname => simp [mark]
  | leaf h => exact h.1

theorem SpelledAs.isPlain {cs : List Char} {s : Symbol} (h : SpelledAs cs s) : s.IsPlain := by
  cases h with
  | tag closing hraw hslash hname =>
    have hplain := isPlain_trim hname hraw
    cases closing <;> simpa [Symbol.ofMark, Symbol.IsPlain] using hplain
  | leaf h => exact isPlain_ofText h

/-! ## What is read is spelled -/

theorem exists_closing (cs : List Char) : ∃ (closing : Bool) (body : List Char),
    cs = (if closing then ['/'] else []) ++ body ∧ (closing = false → body.head? ≠ some '/') := by
  by_cases h : cs.head? = some '/'
  · obtain ⟨body, rfl⟩ := List.head?_eq_some_iff.mp h
    exact ⟨true, body, rfl, by simp⟩
  · exact ⟨false, cs, rfl, fun _ => h⟩

theorem nextTag_eq {closing : Bool} {body : List Char}
    (hslash : closing = false → body.head? ≠ some '/') (place : Cursor) :
    nextTag place ((if closing then ['/'] else []) ++ body) =
      if (body.dropWhile (!isBracket ·)).head? = some '>' then
        (if trim (body.takeWhile (!isBracket ·)) = [] then .error ⟨.emptyTagName, place.offset⟩
          else .ok ⟨Symbol.ofMark closing (trim (body.takeWhile (!isBracket ·))), place.offset⟩,
        place.advance (mark closing (body.takeWhile (!isBracket ·))).length)
      else (.error ⟨.unterminatedTag (String.ofList (trim (body.takeWhile (!isBracket ·)))),
          place.offset⟩,
        place.advance ((if closing then 2 else 1) + (body.takeWhile (!isBracket ·)).length)) := by
  have hclosing : (((if closing then ['/'] else []) ++ body).head? == some '/') = closing := by
    cases closing with
    | true => rfl
    | false => simpa using hslash rfl
  have hbody : (if closing then ((if closing then ['/'] else []) ++ body).drop 1
      else (if closing then ['/'] else []) ++ body) = body := by
    cases closing <;> rfl
  simp only [nextTag, hclosing, hbody, drop_length_takeWhile, beq_iff_eq, List.isEmpty_iff,
    length_mark, Symbol.ofMark]
  split_ifs <;> rfl

theorem nextTag_eq_ok {place c : Cursor} {cs : List Char} {t : Token Symbol}
    (hplace : place.rest = '<' :: cs) (h : nextTag place cs = (.ok t, c)) :
    t.position = place.offset ∧ ∃ spelling rest, place.rest = spelling ++ rest ∧
      c = ⟨place.offset + byteLength spelling, rest⟩ ∧ SpelledAs spelling t.symbol ∧
      t.symbol.isMark := by
  obtain ⟨closing, body, rfl, hslash⟩ := exists_closing cs
  rw [nextTag_eq hslash] at h
  split_ifs at h with hend hempty
  · simp at h
  · obtain ⟨rfl, rfl⟩ := by simpa using h
    obtain ⟨rest, hrest⟩ := List.head?_eq_some_iff.mp hend
    have hsplit : place.rest = mark closing (body.takeWhile (!isBracket ·)) ++ rest := by
      have hbody := List.takeWhile_append_dropWhile (p := (!isBracket ·)) (l := body)
      rw [hrest] at hbody
      rw [hplace, mark]
      simp [hbody]
    have hadvance := Cursor.advance_append place.offset
      (mark closing (body.takeWhile (!isBracket ·))) rest
    rw [← hsplit] at hadvance
    refine ⟨rfl, _, rest, hsplit, hadvance, .tag closing
      (fun c hc => not_isBracket_of_mem_takeWhile hc) (fun hopen hhead => hslash hopen ?_) hempty,
      by cases closing <;> rfl⟩
    rw [List.head?_takeWhile] at hhead
    exact (Option.filter_eq_some_iff.mp hhead).1
  all_goals simp at h

theorem next_eq_ok {c c' : Cursor} {t : Token Symbol} (h : next c = (.ok t, c')) :
    t.position = c.skipBlanks.offset ∧
      (t.symbol = .eof ∧ c.skipBlanks.rest = [] ∨
        ∃ spelling behind rest, c.skipBlanks.rest = spelling ++ (behind ++ rest) ∧
          c' = ⟨c.skipBlanks.offset + byteLength (spelling ++ behind), rest⟩ ∧
          SpelledAs spelling t.symbol ∧ (∀ b ∈ behind, isBlank b) ∧
          (t.symbol.isMark = false → Stops (!isBracket ·) rest)) := by
  simp only [next] at h
  split at h
  · rename_i hrest
    obtain ⟨rfl, -⟩ := by simpa using h
    exact ⟨rfl, .inl ⟨rfl, hrest⟩⟩
  · rename_i d rest hrest
    split_ifs at h with hopen hclose
    · obtain rfl : d = '<' := by simpa using hopen
      obtain ⟨hposition, spelling, behind, hsplit, rfl, hspelled, hmark⟩ := nextTag_eq_ok hrest h
      exact ⟨hposition, .inr ⟨spelling, [], behind, hsplit, by simp, hspelled, by simp,
        by simp [hmark]⟩⟩
    · simp at h
    · obtain ⟨rfl, rfl⟩ := by simpa using h
      -- A leaf is what trimming leaves of the text up to the next bracket, which starts with no
      -- blank.
      have hstops := c.stops_skipBlanks
      have hbracket : isBracket d = false := by simp_all [isBracket]
      have htake : c.skipBlanks.rest.takeWhile (!isBracket ·) =
          d :: rest.takeWhile (!isBracket ·) := by
        simp [hrest, hbracket]
      have hfirst : Stops isBlank (c.skipBlanks.rest.takeWhile (!isBracket ·)) := by
        rw [htake]
        rw [hrest] at hstops
        exact hstops
      obtain ⟨behind, hbehind, hblanks⟩ := exists_blanks_of_trim hfirst
      have hne : trim (c.skipBlanks.rest.takeWhile (!isBracket ·)) ≠ [] := by
        rw [htake] at hfirst ⊢
        exact trim_ne_nil List.mem_cons_self (stops_cons.mp hfirst)
      have hsplit := List.takeWhile_append_dropWhile (p := (!isBracket ·)) (l := c.skipBlanks.rest)
      have hadvance := Cursor.advance_append c.skipBlanks.offset
        (c.skipBlanks.rest.takeWhile (!isBracket ·)) (c.skipBlanks.rest.dropWhile (!isBracket ·))
      rw [hsplit] at hadvance
      refine ⟨rfl, .inr ⟨_, behind, c.skipBlanks.rest.dropWhile (!isBracket ·), ?_, ?_,
        .leaf (isPlain_trim hne fun c hc => not_isBracket_of_mem_takeWhile hc), hblanks,
        fun _ => stops_dropWhile _ _⟩⟩
      · rw [← List.append_assoc, ← hbehind, hsplit]
      · rw [← hbehind, ← hadvance]

theorem isEof_eq_false {t : Token Symbol} (h : t.symbol ≠ .eof) : t.isEof = false := by
  unfold Token.isEof Token.kind
  cases ht : t.symbol <;> simp_all [Lexicon.kind, Lexicon.eof, Symbol.kind]

theorem isEof_iff {t : Token Symbol} : t.isEof ↔ t.symbol = .eof := by
  constructor
  · intro h
    by_contra hs
    simp [isEof_eq_false hs] at h
  · intro h
    unfold Token.isEof Token.kind
    rw [h]
    rfl

instance : LawfulLexicon Symbol where
  next_skipBlanks c := by simp [Lexicon.next, next]
  next_end offset := rfl
  length_lt {c c' t} h heof := by
    obtain ⟨-, ⟨hs, -⟩ | ⟨spelling, behind, rest, hrest, rfl, hspelled, -⟩⟩ := next_eq_ok h
    · simp [Token.isEof, Token.kind, Lexicon.kind, Lexicon.eof, hs] at heof
    · have hpos := List.length_pos_of_ne_nil hspelled.ne_nil
      have hle := c.length_rest_skipBlanks_le
      rw [hrest, List.length_append, List.length_append] at hle
      show rest.length < c.rest.length
      omega

theorem isPlain_of_mem_upTo {n : Nat} {c : Cursor} {t : Token Symbol}
    (h : t ∈ (Scan.upTo n c : Scan Symbol).tokens) : t.symbol.IsPlain := by
  induction n generalizing c with
  | zero => simp [Scan.upTo] at h
  | succ n ih =>
    simp only [Scan.upTo] at h
    split at h
    · simp at h
    · rename_i u c' hnext
      split_ifs at h with heof
      · simp at h
      · obtain rfl | h := List.mem_cons.mp h
        · obtain ⟨-, ⟨hs, -⟩ | ⟨_, _, _, -, -, hspelled, -⟩⟩ := next_eq_ok hnext
          · simp [Token.isEof, Token.kind, Lexicon.kind, Lexicon.eof, hs] at heof
          · exact hspelled.isPlain
        · exact ih h

/-! ## Reading known texts -/

theorem stops_of_bracket {d : Char} (h : isBracket d) (rest : List Char) :
    Stops (!isBracket ·) (d :: rest) := by simp [h]

theorem isBlank_of_isBracket {d : Char} (h : isBracket d) : isBlank d = false := by
  simp only [isBracket, Bool.or_eq_true, beq_iff_eq] at h
  rcases h with rfl | rfl <;> rfl

theorem next_bracket (offset : Nat) (cs : List Char) :
    next ⟨offset, '<' :: cs⟩ = nextTag ⟨offset, '<' :: cs⟩ cs := by
  have hskip : (⟨offset, '<' :: cs⟩ : Cursor).skipBlanks = ⟨offset, '<' :: cs⟩ :=
    Cursor.skipBlanks_of_stops (by simp [isBlank])
  simp only [next, hskip]
  rfl

theorem next_mark {name : List Char} (hname : ∀ c ∈ name, isBracket c = false) (closing : Bool)
    (hslash : closing = false → name.head? ≠ some '/') (offset : Nat) (rest : List Char) :
    next ⟨offset, mark closing name ++ rest⟩ =
      (if (trim name).isEmpty then .error ⟨.emptyTagName, offset⟩
        else .ok ⟨if closing then .closeTag (String.ofList (trim name))
          else .openTag (String.ofList (trim name)), offset⟩,
      ⟨offset + byteLength (mark closing name), rest⟩) := by
  -- There is no bracket in the name, so it runs up to the closing one.
  have hraw : (name ++ '>' :: rest).takeWhile (!isBracket ·) = name :=
    takeWhile_append_of_stops (by simpa using hname) (stops_of_bracket rfl rest)
  have hdrop : (name ++ '>' :: rest).dropWhile (!isBracket ·) = '>' :: rest :=
    dropWhile_append_of_stops (by simpa using hname) (stops_of_bracket rfl rest)
  have hmark : mark closing name ++ rest =
      '<' :: ((if closing then ['/'] else []) ++ (name ++ '>' :: rest)) := by simp [mark]
  have hhead : closing = false → (name ++ '>' :: rest).head? ≠ some '/' := by
    intro hopen
    cases name with
    | nil => simp
    | cons c name => exact hslash hopen
  rw [hmark, next_bracket, nextTag_eq hhead, hraw, hdrop, List.head?_cons, if_pos rfl, ← hmark,
    Cursor.advance_append]
  simp only [List.isEmpty_iff, Symbol.ofMark]

theorem next_leaf {d : Char} {cs rest : List Char} (hblank : isBlank d = false)
    (hcs : ∀ c ∈ d :: cs, isBracket c = false) (hrest : Stops (!isBracket ·) rest) (offset : Nat) :
    next ⟨offset, d :: (cs ++ rest)⟩ =
      (.ok ⟨Symbol.ofText (trim (d :: cs)), offset⟩, ⟨offset + byteLength (d :: cs), rest⟩) := by
  have hskip : (⟨offset, d :: (cs ++ rest)⟩ : Cursor).skipBlanks = ⟨offset, d :: (cs ++ rest)⟩ :=
    Cursor.skipBlanks_of_stops (by simpa using hblank)
  have htake : (d :: (cs ++ rest)).takeWhile (!isBracket ·) = d :: cs := by
    rw [← List.cons_append]
    exact takeWhile_append_of_stops (by simpa using hcs) hrest
  have hd : d ≠ '<' ∧ d ≠ '>' := by simpa [isBracket] using hcs d List.mem_cons_self
  have hadvance := Cursor.advance_append offset (d :: cs) rest
  rw [List.cons_append] at hadvance
  simp only [next, hskip, htake, beq_iff_eq, hd, if_false, hadvance]

end Dialects.Markup
