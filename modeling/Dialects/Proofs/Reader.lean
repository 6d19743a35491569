import Dialects.Scan
import Dialects.Proofs.Scan

/-!
# Runs of a reader

A run goes on step by step, and it gives a value only where every step does and the text ends.
-/

namespace Dialects.Reader

variable {σ τ α : Type} (r : Reader σ τ α)

theorem run_cons_ok {ending : Ending} {s : τ} {t : Token σ} {state : Except Failure τ}
    (h : r.step s t = .ok state) (ts : List (Token σ)) :
    r.run ending (.ok s) (t :: ts) = r.run ending state ts := by
  simp [run, h, bind, Except.bind]

theorem run_cons_error {ending : Ending} {s : τ} {t : Token σ} {f : Failure}
    (h : r.step s t = .error f) (ts : List (Token σ)) :
    r.run ending (.ok s) (t :: ts) = .error f := by
  simp [run, h, bind, Except.bind]

theorem run_error_ne_ok (ending : Ending) (f : Failure) (ts : List (Token σ)) (v : α) :
    r.run ending (.error f) ts ≠ .ok v := by
  cases ts with
  | nil => cases ending <;> simp [run, bind, Except.bind]
  | cons t ts => simp [run, bind, Except.bind]

theorem exists_step_of_run_cons {ending : Ending} {s : τ} {t : Token σ} {ts : List (Token σ)}
    {v : α} (h : r.run ending (.ok s) (t :: ts) = .ok v) :
    ∃ s', r.step s t = .ok (.ok s') ∧ r.run ending (.ok s') ts = .ok v := by
  cases hstep : r.step s t with
  | error f => simp [run_cons_error r hstep] at h
  | ok state =>
    rw [run_cons_ok r hstep] at h
    cases state with
    | error f => exact absurd h (run_error_ne_ok r _ f ts v)
    | ok s' => exact ⟨s', rfl, h⟩

/-- What holds at the start and is kept by each step, of the tokens taken and the state, holds where
a value is given. -/
theorem exists_finish_of_run (inv : List (Token σ) → τ → Prop) {ending : Ending}
    {ts : List (Token σ)} (taken : List (Token σ)) {s : τ} {v : α}
    (hstep : ∀ t ∈ ts, ∀ taken s s', inv taken s → r.step s t = .ok (.ok s') →
      inv (taken ++ [t]) s')
    (hs : inv taken s) (h : r.run ending (.ok s) ts = .ok v) :
    ∃ s' position, inv (taken ++ ts) s' ∧ ending = .eof position ∧
      r.finish s' position = .ok v := by
  induction ts generalizing taken s with
  | nil =>
    cases ending with
    | failed f => simp [run] at h
    | eof position => exact ⟨s, position, by simpa using hs, rfl, h⟩
  | cons t ts ih =>
    obtain ⟨s', ht, hrun⟩ := exists_step_of_run_cons r h
    have hs' := hstep t (by simp) taken s s' hs ht
    obtain ⟨s'', position, hinv, hend⟩ := ih (taken ++ [t]) (fun u hu => hstep u (by simp [hu])) hs' hrun
    exact ⟨s'', position, by simpa using hinv, hend⟩

theorem exists_eof_of_run {ending : Ending} {ts : List (Token σ)} {s : τ} {v : α}
    (h : r.run ending (.ok s) ts = .ok v) : ∃ position, ending = .eof position := by
  obtain ⟨-, position, -, hending, -⟩ :=
    r.exists_finish_of_run (fun _ _ => True) [] (fun _ _ _ _ _ _ _ => trivial) trivial h
  exact ⟨position, hending⟩

theorem read_eq_ok_iff {κ : Type} [Lexicon σ κ] [DecidableEq κ] {source : String} {v : α} :
    r.read (Scan.ofSource source) = .ok v ↔ ∃ tokens position,
      tokenize source = .ok (tokens ++ [(⟨Lexicon.eof, position⟩ : Token σ)]) ∧
      r.run (.eof position) (.ok r.start) tokens = .ok v := by
  simp only [tokenize_eq_ok_iff]
  constructor
  · intro h
    obtain ⟨position, hending⟩ := r.exists_eof_of_run h
    rw [read, hending] at h
    exact ⟨_, position, ⟨_, position, by rw [← hending], rfl⟩, h⟩
  · rintro ⟨tokens, position, ⟨ts, position', hscan, htokens⟩, hrun⟩
    obtain ⟨rfl, hlast⟩ := List.append_inj' htokens rfl
    obtain rfl : position = position' := by simpa using hlast
    rwa [read, hscan]

theorem run_error_ofCursor {κ : Type} [Lexicon σ κ] [DecidableEq κ] [LawfulLexicon σ]
    (c : Text.Cursor) (g : Failure) :
    r.run (Scan.ofCursor c : Scan σ).ending (.error g) (Scan.ofCursor c : Scan σ).tokens =
      match (Lexicon.next (σ := σ) c).1 with
      | .ok _ => .error g
      | .error f => .error f := by
  rw [Scan.ofCursor_eq]
  cases hnext : Lexicon.next (σ := σ) c with
  | mk result c' =>
    cases result with
    | error f => rfl
    | ok t => cases heof : t.isEof <;> simp [heof, run, Scan.cons, bind, Except.bind]

/-! ## States on the way -/

/-- Whether a reading gets to a state by taking tokens. -/
inductive Reaches : List (Token σ) → τ → Prop
  | start : Reaches [] r.start
  | step {ts : List (Token σ)} {s s' : τ} {t : Token σ} (h : Reaches ts s)
    (ht : r.step s t = .ok (.ok s')) : Reaches (ts ++ [t]) s'

variable {r}

theorem Reaches.run_append {ts : List (Token σ)} {s : τ} (h : r.Reaches ts s) (ending : Ending)
    (us : List (Token σ)) : r.run ending (.ok r.start) (ts ++ us) = r.run ending (.ok s) us := by
  induction h generalizing us with
  | start => rfl
  | step h ht ih => rw [List.append_assoc, ih, List.singleton_append, run_cons_ok r ht]

theorem Reaches.eq_start {s : τ} (h : r.Reaches [] s) : s = r.start := by
  generalize hts : ([] : List (Token σ)) = ts at h
  cases h with
  | start => rfl
  | step h ht => simp at hts

theorem Reaches.exists_of_prefix {ending : Ending} {taken ts us : List (Token σ)} {s : τ} {v : α}
    (hs : r.Reaches taken s) (h : r.run ending (.ok s) ts = .ok v) (hus : us <+: ts) :
    ∃ s', r.Reaches (taken ++ us) s' := by
  induction us generalizing taken ts s with
  | nil => exact ⟨s, by simpa using hs⟩
  | cons u us ih =>
    obtain ⟨ts, rfl, htail⟩ := List.cons_prefix_iff.mp hus
    obtain ⟨s', hstep, hrun⟩ := exists_step_of_run_cons r h
    obtain ⟨s'', hreach⟩ := ih (hs.step hstep) hrun htail
    exact ⟨s'', by simpa using hreach⟩

theorem exists_reaches_of_run_error {ending : Ending} {taken ts : List (Token σ)} {s : τ}
    {f : Failure} (hdecoded : ∀ t ∈ ts, ∀ s g, r.step s t ≠ .ok (.error g)) (hs : r.Reaches taken s)
    (h : r.run ending (.ok s) ts = .error f) :
    (∃ us t vs s', ts = us ++ t :: vs ∧ r.Reaches (taken ++ us) s' ∧ r.step s' t = .error f) ∨
      ∃ s', r.Reaches (taken ++ ts) s' ∧
        (ending = .failed f ∨ ∃ position, ending = .eof position ∧ r.finish s' position = .error f) := by
  induction ts generalizing taken s with
  | nil =>
    refine .inr ⟨s, by simpa using hs, ?_⟩
    cases ending with
    | failed g => exact .inl (by simpa [run] using h)
    | eof position => exact .inr ⟨position, rfl, h⟩
  | cons t ts ih =>
    cases hstep : r.step s t with
    | error g =>
      obtain rfl : g = f := by simpa [run_cons_error r hstep] using h
      exact .inl ⟨[], t, ts, s, rfl, by simpa using hs, hstep⟩
    | ok state =>
      cases state with
      | error g => exact absurd hstep (hdecoded t (by simp) s g)
      | ok s' =>
        rw [run_cons_ok r hstep] at h
        obtain ⟨us, u, vs, s'', rfl, hreach, hrefused⟩ | ⟨s'', hreach, hending⟩ :=
          ih (fun u hu => hdecoded u (by simp [hu])) (hs.step hstep) h
        · exact .inl ⟨t :: us, u, vs, s'', rfl, by simpa using hreach, hrefused⟩
        · exact .inr ⟨s'', by simpa using hreach, hending⟩

/-! ## Beginnings of documents -/

variable (r) in
/-- Whether some tokens lead from a state to the end of a document. -/
def CanFinish (s : τ) : Prop := ∃ ts v, r.run (.eof 0) (.ok s) ts = .ok v

theorem canFinish_of_step {s s' : τ} (t : Token σ) (h : r.step s t = .ok (.ok s'))
    (hs' : r.CanFinish s') : r.CanFinish s := by
  obtain ⟨ts, v, hrun⟩ := hs'
  exact ⟨t :: ts, v, (run_cons_ok r h ts).trans hrun⟩

section

variable {document : List σ → Prop} {ts : List (Token σ)} {s : τ}
  (hdocument : ∀ ts : List (Token σ), document (ts.map Token.symbol) ↔
    ∃ v, r.run (.eof 0) (.ok r.start) ts = .ok v)

include hdocument

theorem Reaches.exists_document (h : r.Reaches ts s) (hs : r.CanFinish s) :
    ∃ more, document (ts.map Token.symbol ++ more) := by
  obtain ⟨us, v, hrun⟩ := hs
  refine ⟨us.map Token.symbol, ?_⟩
  rw [← List.map_append, hdocument]
  exact ⟨v, (h.run_append _ us).trans hrun⟩

theorem Reaches.not_exists_document {t : Token σ} {f : Failure} (h : r.Reaches ts s)
    (ht : r.step s t = .error f) : ¬∃ more, document (ts.map Token.symbol ++ [t.symbol] ++ more) := by
  rintro ⟨more, hmore⟩
  have htokens : ts.map Token.symbol ++ [t.symbol] ++ more =
      (ts ++ t :: more.map (⟨·, 0⟩)).map Token.symbol := by
    simp [Function.comp_def]
  rw [htokens, hdocument] at hmore
  obtain ⟨v, hrun⟩ := hmore
  rw [h.run_append, run_cons_error r ht] at hrun
  simp at hrun

theorem Reaches.document_iff (h : r.Reaches ts s) :
    document (ts.map Token.symbol) ↔ ∃ v, r.finish s 0 = .ok v := by
  have hrun := h.run_append (.eof 0) []
  rw [List.append_nil] at hrun
  rw [hdocument, hrun]
  rfl

end

/-! ## Whole texts -/

/-- Where decoding does not fail, a text that is refused has been read up to the failure of the scan,
which is given as it is, or up to a token, which may be the end, that is refused. -/
theorem exists_reaches_of_read_error {κ : Type} [Lexicon σ κ] [DecidableEq κ] [LawfulLexicon σ]
    {source : String} {f : Failure}
    (hdecoded : ∀ t ∈ (Scan.ofSource source : Scan σ).tokens, ∀ s g, r.step s t ≠ .ok (.error g))
    (h : r.read (Scan.ofSource source) = .error f) :
    ∃ (ts : List (Token σ)) (s : τ), r.Reaches ts s ∧
      (nextTokens (ts.length + 1) (Text.Cursor.start source) = ts.map .ok ++ [.error f] ∨
        ∃ t, nextTokens (ts.length + 1) (Text.Cursor.start source) = ts.map .ok ++ [.ok t] ∧
          (t.isEof = false ∧ r.step s t = .error f ∨ t.isEof ∧ r.finish s t.position = .error f)) := by
  have hplain : ∀ t ∈ (Scan.ofSource source : Scan σ).tokens, t.isEof = false :=
    Scan.forall_mem_tokens (fun _ _ _ _ heof => heof) _
  obtain ⟨last, hnext, hlast⟩ := Scan.nextTokens_eq (σ := σ) (Text.Cursor.start source)
  rw [show Scan.ofCursor (Text.Cursor.start source) = Scan.ofSource source from rfl] at hnext hlast
  obtain ⟨us, t, vs, s, hsplit, hreach, hrefused⟩ | ⟨s, hreach, hending⟩ :=
    exists_reaches_of_run_error hdecoded .start h
  · rw [List.nil_append] at hreach
    have htokens : nextTokens (us.length + 1) (Text.Cursor.start source) = us.map .ok ++ [.ok t] := by
      rw [hsplit] at hnext
      rw [← take_nextTokens (by simp : us.length + 1 ≤ (us ++ t :: vs).length + 1), hnext]
      simp [List.take_append]
    exact ⟨us, s, hreach, .inr ⟨t, htokens, .inl ⟨hplain t (by simp [hsplit]), hrefused⟩⟩⟩
  · rw [List.nil_append] at hreach
    refine ⟨_, s, hreach, ?_⟩
    obtain hfailed | ⟨position, hposition, hfinish⟩ := hending
    · simp only [hfailed] at hlast
      exact .inl (hlast ▸ hnext)
    · simp only [hposition] at hlast
      obtain ⟨t, rfl, heof, rfl⟩ := hlast
      exact .inr ⟨t, hnext, .inr ⟨heof, hfinish⟩⟩

end Dialects.Reader
