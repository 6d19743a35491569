import Dialects.Proofs.Orthography
import Dialects.Proofs.Reader

/-!
# Cut texts

What is left of a text that was cut is read like the whole text up to the token that the cut went
through, or came in front of. Then comes what the scan makes of the part of that token.
-/

namespace Dialects

open Dialects.Text
open Orthography (Spells)

variable {σ κ : Type} [Lexicon σ κ] [DecidableEq κ] [Orthography σ] [LawfulOrthography σ]

/-! ## Cut pieces -/

namespace Piece

theorem allSpelled_append {ps qs : List (Piece σ)} {rest : List Char} :
    AllSpelled (ps ++ qs) rest ↔ AllSpelled ps (text qs ++ rest) ∧ AllSpelled qs rest := by
  induction ps with
  | nil => simp [AllSpelled]
  | cons p ps ih => simp [AllSpelled, ih, and_assoc]

include κ in
theorem AllSpelled.of_isPrefix {ps : List (Piece σ)} {cs ds : List Char} (h : AllSpelled ps ds)
    (hcs : cs <+: ds) : AllSpelled ps cs := by
  induction ps with
  | nil => trivial
  | cons p ps ih =>
    obtain ⟨hblanks, hp, hends, hps⟩ := h
    refine ⟨hblanks, hp, LawfulOrthography.endsBefore_of_isPrefix hends ?_, ih hps⟩
    exact (List.prefix_append_right_inj (text ps)).mpr hcs

theorem AllSpelled.spells {ps : List (Piece σ)} {rest : List Char} (h : AllSpelled ps rest) :
    ∀ p ∈ ps, Spells p.spelling p.symbol := by
  induction ps with
  | nil => simp
  | cons p ps ih => exact List.forall_mem_cons.mpr ⟨h.2.1, ih h.2.2.2⟩

omit [Lexicon σ κ] [DecidableEq κ] [Orthography σ] [LawfulOrthography σ] in
theorem exists_cut {ps : List (Piece σ)} {kept lost : List Char} (h : text ps = kept ++ lost)
    (hlost : lost ≠ []) : ∃ before p after part missing, ps = before ++ p :: after ∧
      kept = text before ++ part ∧ part ++ missing = p.chars ∧ missing ≠ [] := by
  induction ps generalizing kept with
  | nil => exact absurd (List.append_eq_nil_iff.mp h.symm).2 hlost
  | cons p ps ih =>
    rw [text_cons] at h
    obtain ⟨more, rfl, hps⟩ | ⟨missing, hp, hps⟩ := List.append_eq_append_iff.mp h
    · obtain ⟨before, q, after, part, missing, rfl, rfl, hq⟩ := ih hps
      exact ⟨p :: before, q, after, part, missing, rfl, by simp, hq⟩
    · by_cases hmissing : missing = []
      · -- The cut is between this piece and the one behind it.
        have htail : text ps = [] ++ lost := by simpa [hmissing] using hps.symm
        obtain ⟨before, q, after, part, missing', rfl, hnil, hq⟩ := ih htail
        refine ⟨p :: before, q, after, part, missing', rfl, ?_, hq⟩
        rw [text_cons, List.append_assoc, ← hnil, hp, hmissing, List.append_nil, List.append_nil]
      · exact ⟨[], p, ps, kept, missing, rfl, rfl, hp.symm, hmissing⟩

theorem exists_part {p : Piece σ} (hblanks : ∀ c ∈ p.blanks, isBlank c)
    (hspelling : p.spelling ≠ []) {kept missing : List Char} (h : kept ++ missing = p.chars)
    (hmissing : missing ≠ []) (offset : Nat) : ∃ offset' part cut, part ++ cut = p.spelling ∧
      cut ≠ [] ∧ (Scan.ofCursor ⟨offset, kept⟩ : Scan σ) = Scan.ofCursor ⟨offset', part⟩ := by
  obtain ⟨later, hkept, -⟩ | ⟨part, rfl, hsplit⟩ := List.append_eq_append_iff.mp h
  · refine ⟨offset + byteLength kept, [], p.spelling, rfl, hspelling, ?_⟩
    have hkept : ∀ c ∈ kept, isBlank c := fun c hc => hblanks c (by simp [hkept, hc])
    rw [Scan.ofCursor_blanks hkept]
    rfl
  · exact ⟨_, part, missing, hsplit.symm, hmissing, Scan.ofCursor_append_blanks hblanks offset part⟩

end Piece

theorem Scan.exists_pieces {c : Cursor} {ts : List (Token σ)} {position : Nat}
    (h : (Scan.ofCursor c : Scan σ) = ⟨ts, .eof position⟩) :
    ∃ (ps : List (Piece σ)) (blanks : List Char), c.rest = Piece.text ps ++ blanks ∧
      Piece.AllSpelled ps blanks ∧ (∀ b ∈ blanks, isBlank b) ∧ ts = Piece.tokens c.offset ps := by
  obtain ⟨ps, blanks, hrest, hps, hblanks⟩ := Piece.exists_allSpelled h
  have hscan := Piece.ofCursor_text (Piece.allRead_of_allSpelled hps) c.offset
  rw [← hrest, ofCursor_blanks hblanks, List.append_nil, h] at hscan
  exact ⟨ps, blanks, hrest, hps, hblanks, congrArg tokens hscan⟩

theorem Scan.exists_spells_of_mem {c : Cursor} {ts : List (Token σ)} {position : Nat}
    (h : (Scan.ofCursor c : Scan σ) = ⟨ts, .eof position⟩) {t : Token σ} (ht : t ∈ ts) :
    ∃ spelling, Spells spelling t.symbol ∧ ∀ d ∈ spelling, d ∈ c.rest := by
  obtain ⟨ps, blanks, hrest, hps, -, rfl⟩ := exists_pieces h
  have hsymbol := List.mem_map_of_mem (f := Token.symbol) ht
  rw [Piece.map_symbol_tokens] at hsymbol
  obtain ⟨p, hp, hsymbol⟩ := List.mem_map.mp hsymbol
  refine ⟨p.spelling, hsymbol ▸ hps.spells p hp, fun d hd => ?_⟩
  rw [hrest]
  exact List.mem_append_left _ (List.mem_flatMap.mpr ⟨p, hp, List.mem_append_right _ hd⟩)

/-! ## Cut texts -/

theorem Scan.exists_cut {source kept : String} {lost : List Char} {ts : List (Token σ)}
    {position : Nat} (h : (Scan.ofSource source : Scan σ) = ⟨ts, .eof position⟩)
    (hsource : source.toList = kept.toList ++ lost) (hlost : ∃ c ∈ lost, isBlank c = false) :
    ∃ before t after part cut offset, ts = before ++ t :: after ∧ Spells (part ++ cut) t.symbol ∧
      cut ≠ [] ∧ (Scan.ofSource kept : Scan σ) =
        ⟨before ++ (Scan.ofCursor ⟨offset, part⟩ : Scan σ).tokens,
          (Scan.ofCursor ⟨offset, part⟩ : Scan σ).ending⟩ := by
  obtain ⟨c, hc, hblank⟩ := hlost
  obtain ⟨ps, blanks, hrest, hps, hblanks, rfl⟩ := exists_pieces h
  -- More is lost than the blanks at the end.
  obtain ⟨lost, hcut, hne⟩ : ∃ lost, Piece.text ps = kept.toList ++ lost ∧ lost ≠ [] := by
    obtain ⟨more, -, hmore⟩ | ⟨more, hmore, rfl⟩ :=
      List.append_eq_append_iff.mp (hrest.symm.trans hsource)
    · simp [hblanks c (by simp [hmore, hc])] at hblank
    · refine ⟨more, hmore, ?_⟩
      rintro rfl
      simp [hblanks c hc] at hblank
  obtain ⟨before, p, after, part, missing, rfl, hkept, hp, hmissing⟩ := Piece.exists_cut hcut hne
  obtain ⟨hbefore, hpblanks, hspells, -, -⟩ := Piece.allSpelled_append.mp hps
  -- The pieces in front of the cut are read as they were, as what follows them begins alike.
  have hfront : part <+: Piece.text (p :: after) ++ blanks :=
    ⟨missing ++ (Piece.text after ++ blanks), by rw [Piece.text_cons, ← hp]; simp⟩
  have hread := Piece.allRead_of_allSpelled (hbefore.of_isPrefix hfront)
  obtain ⟨offset, part', cut, hpart, hcut, hscan⟩ := Piece.exists_part hpblanks
    (LawfulOrthography.isTrimmed hspells).1 hp hmissing (0 + byteLength (Piece.text before))
  refine ⟨Piece.tokens 0 before, _, _, part', cut, offset, Piece.tokens_append 0 before (p :: after),
    hpart ▸ hspells, hcut, ?_⟩
  rw [ofSource, Cursor.start, hkept, Piece.ofCursor_text hread, hscan]

namespace Reader

variable {τ α : Type} {r : Reader σ τ α}

/-- What is asked of a reader so that no value comes of what is left of the text of a value: tokens in
a part of a symbol are of a kind with it, and such tokens leave open what was open in front of it. -/
structure WithstandsCuts (r : Reader σ τ α) (v : α) (alike : σ → Prop) (isOpen : τ → Prop) :
    Prop where
  part {part cut : List Char} {s : σ} {offset position : Nat} {ts : List (Token σ)} :
    Spells (part ++ cut) s → cut ≠ [] →
    (Scan.ofCursor ⟨offset, part⟩ : Scan σ) = ⟨ts, .eof position⟩ →
    ∀ t ∈ ts, alike s ∧ alike t.symbol
  goesOn {s s' : τ} {t : Token σ} {position : Nat} {w : α} :
    r.step s t = .ok (.ok s') → r.finish s position ≠ .ok w
  isOpen_of_run {ending : Ending} {s : τ} {t : Token σ} {ts : List (Token σ)} :
    alike t.symbol → r.run ending (.ok s) (t :: ts) = .ok v → isOpen s
  isOpen_of_step {s s' : τ} {t : Token σ} :
    alike t.symbol → r.step s t = .ok (.ok s') → isOpen s → isOpen s'
  finish {s : τ} {position : Nat} {w : α} : isOpen s → r.finish s position ≠ .ok w

theorem read_ne_ok_of_cut {alike : σ → Prop} {isOpen : τ → Prop} {source kept : String}
    {lost : List Char} {v : α} (hr : r.WithstandsCuts v alike isOpen)
    (h : r.read (Scan.ofSource source) = .ok v) (hsource : source.toList = kept.toList ++ lost)
    (hlost : ∃ c ∈ lost, isBlank c = false) (w : α) : r.read (Scan.ofSource kept) ≠ .ok w := by
  obtain ⟨position, hending⟩ := r.exists_eof_of_run h
  have hwhole : (Scan.ofSource source : Scan σ) =
      ⟨(Scan.ofSource source : Scan σ).tokens, .eof position⟩ := by rw [← hending]
  obtain ⟨before, t, after, part, cut, offset, htokens, hspells, hcut, hkept⟩ :=
    Scan.exists_cut hwhole hsource hlost
  rw [read, htokens] at h
  -- Up to the token that is cut, both texts are read alike.
  obtain ⟨s, hreach⟩ := Reaches.exists_of_prefix .start h (List.prefix_append _ _)
  rw [List.nil_append] at hreach
  rw [hreach.run_append] at h
  rw [read, hkept, hreach.run_append]
  intro hw
  obtain ⟨position, hending⟩ := r.exists_eof_of_run hw
  have hscan : (Scan.ofCursor ⟨offset, part⟩ : Scan σ) =
      ⟨(Scan.ofCursor ⟨offset, part⟩ : Scan σ).tokens, .eof position⟩ := by rw [← hending]
  have hpart := hr.part hspells hcut hscan
  rw [hending] at hw
  cases htokens : (Scan.ofCursor ⟨offset, part⟩ : Scan σ).tokens with
  | nil =>
    obtain ⟨s', hstep, -⟩ := r.exists_step_of_run_cons h
    rw [htokens] at hw
    exact hr.goesOn hstep hw
  | cons u us =>
    -- Something is open in front of the cut token, and no part of that closes it.
    have hs := hr.isOpen_of_run (hpart u (by simp [htokens])).1 h
    obtain ⟨s', position, hopen, -, hfinish⟩ := r.exists_finish_of_run (fun _ s => isOpen s) []
      (fun u hu _ s s' hs hstep => hr.isOpen_of_step (hpart u hu).2 hstep hs) hs hw
    exact hr.finish hopen hfinish

end Reader

end Dialects
