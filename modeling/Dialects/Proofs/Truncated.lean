import Dialects.Proofs.Cut
import Dialects.Proofs.Json.Beginning
import Dialects.Proofs.Json.Orthography
import Dialects.Proofs.Markup.Language
import Dialects.Proofs.Markup.Orthography

/-!
# Truncated documents

A document that was cut off is not taken for a whole one. Numbers and leaves alone are another matter:
each part of a numeral may be a numeral.
-/

namespace Dialects.Json

open Dialects.Text

/-! ## Parts of JSON symbols

No part of a symbol is made of symbols, but for numbers: these may stand where the whole number
stood, and so they leave open what it left open.
-/

theorem next_of_isAlpha {d : Char} (h : d.isAlpha) (offset : Nat) (cs : List Char) :
    next ⟨offset, d :: cs⟩ = nextWord ⟨offset, d :: cs⟩ d := by
  have hletter := isAlpha_iff.mp h
  have hchar : Symbol.ofChar? d = none := by
    simp only [Symbol.ofChar?, beq_iff_eq]
    split_ifs <;> simp_all
  have hdigit : d.isDigit = false := by
    rw [← Bool.not_eq_true, isDigit_iff]
    omega
  have hother : d ≠ '"' ∧ d ≠ '-' ∧ d ≠ '+' := by
    refine ⟨?_, ?_, ?_⟩ <;> rintro rfl <;> simp at hletter
  rw [next_of_stops (isBlank_of_isAlpha h) hchar]
  simp [hdigit, hother, h]

theorem eq_nil_of_ofWord?_append {cs more : List Char} {s s' : Symbol}
    (h : Symbol.ofWord? (String.ofList cs) = some s)
    (h' : Symbol.ofWord? (String.ofList (cs ++ more)) = some s') : more = [] := by
  obtain ⟨rfl, -⟩ | ⟨rfl, -⟩ | ⟨rfl, -⟩ := exists_of_ofWord? h <;>
    obtain ⟨hmore, -⟩ | ⟨hmore, -⟩ | ⟨hmore, -⟩ := exists_of_ofWord? h' <;> simp_all

theorem SpelledAs.exists_eq_number {cs : List Char} {s : Symbol} (h : SpelledAs cs s)
    (hcs : ∀ c ∈ cs, isNumberChar c) : ∃ literal, s = .number literal := by
  cases h with
  | mark h =>
    have hnumber := hcs _ (List.mem_singleton_self _)
    simp only [Symbol.ofChar?, beq_iff_eq] at h
    split_ifs at h <;> subst_vars <;> simp [isNumberChar, extendsNumber, Char.isDigit] at hnumber
  | string h => simpa [isNumberChar, extendsNumber, Char.isDigit] using hcs '"' List.mem_cons_self
  | number h => exact ⟨_, rfl⟩
  | word h =>
    obtain ⟨rfl, -⟩ | ⟨rfl, -⟩ | ⟨rfl, -⟩ := exists_of_ofWord? h <;>
      simp [isNumberChar, extendsNumber, Char.isDigit] at hcs

section

variable {part cut : List Char} {s : Symbol} {offset : Nat}

theorem exists_eq_number_of_next (h : SpelledAs (part ++ cut) s) (hpart : part ≠ []) (hcut : cut ≠ [])
    {t : Token Symbol} {c : Cursor} (hnext : next ⟨offset, part⟩ = (.ok t, c)) :
    IsNumberLiteral (part ++ cut) ∧ ∃ literal, s = .number literal := by
  obtain ⟨d, ds, rfl⟩ := List.exists_cons_of_ne_nil hpart
  generalize hcs : d :: ds ++ cut = cs at h
  cases h with
  | mark h =>
    -- A mark is a single character.
    obtain ⟨-, hnil⟩ := List.cons.inj hcs
    exact absurd (List.append_eq_nil_iff.mp hnil).2 hcut
  | @string body text h =>
    obtain ⟨rfl, hbody⟩ := List.cons.inj hcs
    rw [next_quote, nextString] at hnext
    split at hnext
    · rename_i text' length hstring
      obtain ⟨body', rest, rfl, hbody', -⟩ := string_eq_ok_iff.mp hstring
      have hsplit : body' ++ '"' :: (rest ++ cut) = body ++ '"' :: [] := by simpa using hbody
      -- The part would have the closing quote of the string, behind which nothing is cut off.
      obtain ⟨-, hnil⟩ := hbody'.append_inj h hsplit
      exact absurd (List.append_eq_nil_iff.mp hnil).2 hcut
    · simp at hnext
  | number h => exact ⟨h, _, rfl⟩
  | word h =>
    subst hcs
    have hword : ∀ c ∈ d :: ds, isWordChar c :=
      fun c hc => (isWordChar_of_ofWord? h).2 c (List.mem_append_left _ hc)
    rw [next_of_isAlpha (isAlpha_of_ofWord? h).1, nextWord] at hnext
    simp only [List.takeWhile_eq_self_iff.mpr hword] at hnext
    split at hnext
    · rename_i word hpart
      -- No word goes on as another.
      exact absurd (eq_nil_of_ofWord?_append hpart h) hcut
    · simp at hnext

theorem exists_eq_number_of_mem (h : SpelledAs (part ++ cut) s) (hcut : cut ≠ [])
    {ts : List (Token Symbol)} {position : Nat}
    (hscan : (Scan.ofCursor ⟨offset, part⟩ : Scan Symbol) = ⟨ts, .eof position⟩) {t : Token Symbol}
    (ht : t ∈ ts) : (∃ literal, s = .number literal) ∧ ∃ literal, t.symbol = .number literal := by
  have hpart : part ≠ [] := by
    rintro rfl
    obtain rfl : [] = ts := congrArg Scan.tokens hscan
    simp at ht
  obtain ⟨first, c, hnext, -⟩ := Scan.exists_next_of_eof hscan
  obtain ⟨hliteral, hs⟩ := exists_eq_number_of_next h hpart hcut hnext
  obtain ⟨spelling, hspelled, hmem⟩ := Scan.exists_spells_of_mem hscan ht
  exact ⟨hs, SpelledAs.exists_eq_number hspelled fun c hc =>
    hliteral.isNumberChar c (List.mem_append_left _ (hmem c hc))⟩

end

/-! ## What a cut JSON text leaves open -/

theorem State.level_eq_zero_of_finish {s : State} {position : Nat} {v : Value}
    (h : s.finish position = .ok v) : s.level = 0 := by
  cases s with
  | root w => rfl
  | _ => simp [finish] at h

theorem level_of_step_number {s s' : State} {t : Token Symbol} {literal : String}
    (ht : t.symbol = .number literal) (h : State.step s t = .ok (.ok s')) : s'.level = s.level := by
  simpa [ht, Symbol.isOpening, Symbol.isClosing] using level_of_step h

theorem level_pos_of_run_number {ending : Ending} {s : State} {t : Token Symbol} {literal : String}
    {us : List (Token Symbol)} {v : Value} (ht : t.symbol = .number literal)
    (h : reader.run ending (.ok s) (t :: us) = .ok v) (hv : ∀ x, v ≠ .number x) : 0 < s.level := by
  obtain ⟨s', hstep, hrun⟩ := Reader.exists_step_of_run_cons reader h
  by_contra hlevel
  cases s with
  | value frames =>
    obtain rfl : frames = [] := List.eq_nil_of_length_eq_zero (by simpa [State.level] using hlevel)
    obtain ⟨hs, -⟩ | ⟨hs, -⟩ | ⟨w, hw, rfl⟩ := startValue_eq_ok hstep
    · simp [ht] at hs
    · simp [ht] at hs
    · rw [ht] at hw
      -- Nothing comes behind the whole document.
      cases hw with
      | number hread => exact hv _ (run_root.mp hrun).2.2.symm
  | root w => simp [reader, State.step] at hstep
  | _ => simp [State.level] at hlevel

theorem withstandsCuts {v : Value} (hv : ∀ x, v ≠ .number x) :
    reader.WithstandsCuts v (fun s : Symbol => ∃ literal, s = .number literal) (0 < ·.level) where
  part h hcut hscan t ht := exists_eq_number_of_mem h hcut hscan ht
  goesOn {s s' t position w} hstep hfinish := by
    cases s with
    | root v => simp [reader, State.step] at hstep
    | _ => simp [reader, State.finish] at hfinish
  isOpen_of_run {ending s t ts} ht h := by
    obtain ⟨literal, hliteral⟩ := ht
    exact level_pos_of_run_number hliteral h hv
  isOpen_of_step {s s' t} ht hstep hs := by
    obtain ⟨literal, hliteral⟩ := ht
    rwa [level_of_step_number hliteral hstep]
  finish hs hfinish := hs.ne' (State.level_eq_zero_of_finish hfinish)

end Dialects.Json

namespace Dialects.Markup

open Dialects.Text

/-! ## Parts of markup symbols

A part of a mark is no token, and a part of a leaf is made of leaves, which leave open what the whole
leaf left open.
-/

theorem SpelledAs.mem_of_isMark {cs : List Char} {s : Symbol} (h : SpelledAs cs s) (hs : s.isMark) :
    '<' ∈ cs ∧ '>' ∈ cs := by
  cases h with
  | tag closing hraw hslash hname => simp [mark]
  | leaf h => simp [isMark_ofText] at hs

theorem mem_of_next_bracket {offset : Nat} {cs : List Char} {t : Token Symbol} {c : Cursor}
    (h : next ⟨offset, '<' :: cs⟩ = (.ok t, c)) : '>' ∈ cs := by
  rw [next_bracket] at h
  obtain ⟨-, spelling, rest, hsplit, -, hspelled, hmark⟩ := nextTag_eq_ok rfl h
  have hmem : '>' ∈ '<' :: cs := by
    rw [show '<' :: cs = spelling ++ rest from hsplit]
    exact List.mem_append_left _ (hspelled.mem_of_isMark hmark).2
  simpa using hmem

theorem not_mem_of_mark {closing : Bool} {raw part cut : List Char}
    (hraw : ∀ c ∈ raw, isBracket c = false) (h : mark closing raw = '<' :: part ++ cut)
    (hcut : cut ≠ []) : '>' ∉ part := by
  obtain rfl | ⟨cut, last, rfl⟩ := List.eq_nil_or_concat cut
  · exact absurd rfl hcut
  · have hbody : (if closing then ['/'] else []) ++ raw = part ++ cut := by
      have hsplit : (if closing then ['/'] else []) ++ raw ++ ['>'] = part ++ cut ++ [last] := by
        simpa [mark] using h
      exact (List.append_inj' hsplit rfl).1
    intro hmem
    have hmem : '>' ∈ (if closing then ['/'] else []) ++ raw := by
      rw [hbody]
      exact List.mem_append_left _ hmem
    obtain hslash | hmem := List.mem_append.mp hmem
    · cases closing <;> simp at hslash
    · simpa [isBracket] using hraw _ hmem

theorem isMark_of_mem_part {part cut : List Char} {s : Symbol} (h : SpelledAs (part ++ cut) s)
    (hcut : cut ≠ []) {offset : Nat} {ts : List (Token Symbol)} {position : Nat}
    (hscan : (Scan.ofCursor ⟨offset, part⟩ : Scan Symbol) = ⟨ts, .eof position⟩) {t : Token Symbol}
    (ht : t ∈ ts) : s.isMark = false ∧ t.symbol.isMark = false := by
  generalize hcs : part ++ cut = cs at h
  cases h with
  | tag closing hraw hslash hname =>
    cases part with
    | nil =>
      obtain rfl : [] = ts := congrArg Scan.tokens hscan
      simp at ht
    | cons d ds =>
      obtain ⟨rfl, -⟩ := List.cons.inj hcs
      obtain ⟨first, c, hnext, -⟩ := Scan.exists_next_of_eof hscan
      -- The closing bracket of a mark is its last character, so it has been cut off.
      exact absurd (mem_of_next_bracket hnext) (not_mem_of_mark hraw hcs.symm hcut)
  | leaf hplain =>
    subst hcs
    obtain ⟨spelling, hspelled, hmem⟩ := Scan.exists_spells_of_mem hscan ht
    refine ⟨isMark_ofText _, ?_⟩
    by_contra hmark
    have hopen := (SpelledAs.mem_of_isMark hspelled (by simpa using hmark)).1
    simpa [isBracket] using hplain.2.2 '<' (List.mem_append_left _ (hmem _ hopen))

/-! ## What a cut markup text leaves open -/

theorem exists_place_of_step {s s' : State} {t : Token Symbol} (ht : t.symbol.isMark = false)
    (h : State.step s t = .ok (.ok s')) :
    ∃ tags v, s = .before tags ∧ s' = .place v tags ∧ v.isTag = false := by
  obtain ⟨tags, rfl, hmoves⟩ := moves_of_step h
  cases hmoves with
  | opening hs _ => simp [hs, Symbol.isMark] at ht
  | leaf hleaf => exact ⟨tags, _, rfl, rfl, isTag_of_leaf? hleaf⟩
  | closing hs => simp [hs, Symbol.isMark] at ht

theorem openTags_ne_nil_of_step {s s' : State} {t : Token Symbol} (ht : t.symbol.isMark = false)
    (h : State.step s t = .ok (.ok s')) (hs : s.openTags ≠ []) : s'.openTags ≠ [] := by
  obtain ⟨tags, v, rfl, rfl, -⟩ := exists_place_of_step ht h
  have hnames := State.names_openTags_place v tags
  rw [State.openTags_before] at hs
  intro hnil
  rw [hnil] at hnames
  exact hs (List.map_eq_nil_iff.mp hnames.symm)

theorem State.openTags_eq_nil_of_finish {s : State} {position : Nat} {v : Value}
    (h : s.finish position = .ok v) : s.openTags = [] := by
  cases s with
  | root w => rfl
  | _ => simp [finish] at h

theorem openTags_ne_nil_of_run_leaf {ending : Ending} {s : State} {t : Token Symbol}
    {us : List (Token Symbol)} {v : Value} (ht : t.symbol.isMark = false)
    (h : reader.run ending (.ok s) (t :: us) = .ok v) (hv : v.isTag) : s.openTags ≠ [] := by
  obtain ⟨s', hstep, hrun⟩ := Reader.exists_step_of_run_cons reader h
  obtain ⟨tags, w, rfl, rfl, hw⟩ := exists_place_of_step ht hstep
  rw [State.openTags_before]
  rintro rfl
  -- Nothing comes behind the whole document.
  cases us with
  | nil =>
    obtain ⟨position, rfl⟩ := reader.exists_eof_of_run hrun
    obtain rfl : w = v := Except.ok.inj hrun
    simp [hw] at hv
  | cons u us =>
    obtain ⟨s, hstep, -⟩ := Reader.exists_step_of_run_cons reader hrun
    simp [reader, State.step, State.place] at hstep

theorem withstandsCuts {v : Value} (hv : v.isTag) :
    reader.WithstandsCuts v (·.isMark = false) (·.openTags ≠ []) where
  part h hcut hscan t ht := isMark_of_mem_part h hcut hscan ht
  goesOn {s s' t position w} hstep hfinish := by
    cases s with
    | root v => simp [reader, State.step] at hstep
    | _ => simp [reader, State.finish] at hfinish
  isOpen_of_run ht h := openTags_ne_nil_of_run_leaf ht h hv
  isOpen_of_step ht hstep hs := openTags_ne_nil_of_step ht hstep hs
  finish hs hfinish := hs (State.openTags_eq_nil_of_finish hfinish)

end Dialects.Markup

namespace Dialects

open Dialects.Text

/-! ## Both dialects -/

theorem exists_not_isBlank_of_truncated {source kept : String}
    (hend : Stops isBlank source.toList.reverse) (hkept : kept.toList <+: source.toList)
    (hne : kept ≠ source) :
    ∃ lost, source.toList = kept.toList ++ lost ∧ ∃ c ∈ lost, isBlank c = false := by
  obtain ⟨lost, hlost⟩ := hkept
  refine ⟨lost, hlost.symm, ?_⟩
  obtain rfl | ⟨lost, last, rfl⟩ := List.eq_nil_or_concat lost
  · exact absurd (String.toList_inj.mp (by simpa using hlost)) hne
  · rw [← hlost] at hend
    exact ⟨last, by simp, by simpa using hend⟩

/-- No part of a text, up to where it was cut off, is accepted in place of a JSON document that is more
than a number, or of a markup document with a tag at its root. -/
theorem exists_error_of_truncated {source kept : String}
    (hend : Stops isBlank source.toList.reverse) (hkept : kept.toList <+: source.toList)
    (hne : kept ≠ source) :
    (∀ v, Json.parse source = .ok v → (∀ x, v ≠ .number x) → ∃ f, Json.parse kept = .error f) ∧
    ∀ v, Markup.parse source = .ok v → v.isTag → ∃ f, Markup.parse kept = .error f := by
  obtain ⟨lost, hsource, hlost⟩ := exists_not_isBlank_of_truncated hend hkept hne
  constructor
  · intro v h hv
    cases hparse : Json.parse kept with
    | error f => exact ⟨f, rfl⟩
    | ok w => exact absurd hparse (Reader.read_ne_ok_of_cut (Json.withstandsCuts hv) h hsource hlost w)
  · intro v h hv
    cases hparse : Markup.parse kept with
    | error f => exact ⟨f, rfl⟩
    | ok w =>
      exact absurd hparse (Reader.read_ne_ok_of_cut (Markup.withstandsCuts hv) h hsource hlost w)

/-- A cut inside a string, and one inside the mark that closes a tag. -/
theorem exists_error_of_truncated_string_and_mark :
    (∃ f, Json.parse "[1, \"a" = .error f) ∧ ∃ f, Markup.parse "<a>1</a" = .error f := by
  have hjson : Stops isBlank "[1, \"a\"]".toList.reverse := by simp [isBlank]
  have hmarkup : Stops isBlank "<a>1</a>".toList.reverse := by simp [isBlank]
  exact ⟨(exists_error_of_truncated hjson ⟨"\"]".toList, rfl⟩ (by decide)).1
      (.array [.number ⟨0x3FF0000000000000⟩, .string "a"]) rfl (by simp),
    (exists_error_of_truncated hmarkup ⟨">".toList, rfl⟩ (by decide)).2
      (.tagged "a" [.number 1]) rfl rfl⟩

end Dialects
