import Dialects.Proofs.Expr.Located
import Dialects.Proofs.Json.Located
import Dialects.Proofs.Markup.Located

/-!
# Places of failures

A failure points at a character of the text that is no blank. Only where the end itself is refused does
it point there.
-/

namespace Dialects

open Dialects.Text

section

variable {σ κ : Type} [Lexicon σ κ] [DecidableEq κ] {causes : List Cause} {source : String}
  {f : Failure}

/-! ## Failures of scans -/

/-- Whether a failure is that of a token, that of the end for one of some causes, or that of what could
not be made out. -/
inductive Scan.HasFailure (causes : List Cause) (s : Scan σ) (f : Failure) : Prop
  | token {t : Token σ} (ht : t ∈ s.tokens) (h : t.HasFailure f)
  | eof (hs : s.ending = .eof f.position) (hcause : f.cause ∈ causes)
  | failed (hs : s.ending = .failed f)

namespace Reader.FailsInPlace

variable {τ α : Type} {r : Reader σ τ α}

theorem of_run_error (hr : r.FailsInPlace) {ending : Ending} {state : Except Failure τ}
    {ts : List (Token σ)} (h : r.run ending state ts = .error f) :
    state = .error f ∨ Scan.HasFailure [.unexpectedEof] ⟨ts, ending⟩ f := by
  induction ts generalizing state with
  | nil =>
    cases ending with
    | failed g =>
      obtain rfl := Except.error.inj h
      exact .inr (.failed rfl)
    | eof position =>
      cases state with
      | error g => exact .inl (by simpa [run, bind, Except.bind] using h)
      | ok s =>
        obtain rfl := hr.finish h
        exact .inr (.eof rfl (by simp))
  | cons t ts ih =>
    cases state with
    | error g => exact .inl (by simpa [run, bind, Except.bind] using h)
    | ok s =>
      refine .inr ?_
      -- The token is refused, or fails to be decoded, or the failure lies behind it.
      cases hstep : r.step s t with
      | error g =>
        obtain rfl : g = f := by simpa [run_cons_error r hstep] using h
        exact .token List.mem_cons_self (hr.step hstep)
      | ok state =>
        rw [run_cons_ok r hstep] at h
        obtain rfl | hfailure := ih h
        · exact .token List.mem_cons_self (hr.decode hstep)
        · cases hfailure with
          | token hu hfailure => exact .token (List.mem_cons_of_mem t hu) hfailure
          | eof hs hcause => exact .eof hs hcause
          | failed hs => exact .failed hs

theorem of_read_error (hr : r.FailsInPlace) {scan : Scan σ} (h : r.read scan = .error f) :
    scan.HasFailure [.unexpectedEof] f := by
  obtain hstart | hfailure := hr.of_run_error h
  · simp at hstart
  · exact hfailure

end Reader.FailsInPlace

/-! ## Failures in a text -/

/-- Whether a failure points at a character of a text that is no blank, and not for want of more text, or
at the end, which was read as a token, for one of some causes. -/
inductive PointsInto (σ : Type) {κ : outParam Type} [Lexicon σ κ] [DecidableEq κ]
    (causes : List Cause) (source : String) (f : Failure) : Prop
  | character {before after : List Char} {d : Char} (hsource : source.toList = before ++ d :: after)
    (hblank : isBlank d = false) (hposition : f.position = byteLength before)
    (hcause : f.cause ≠ .unexpectedEof)
  | eof {tokens : List (Token σ)}
    (htokens : tokenize source = .ok (tokens ++ [⟨Lexicon.eof, f.position⟩]))
    (hposition : f.position = byteLength source.toList) (hcause : f.cause ∈ causes)

theorem PointsInto.position_le (h : PointsInto σ causes source f) :
    f.position ≤ byteLength source.toList := by
  cases h with
  | character hsource hblank hposition hcause => simp [hsource, hposition]
  | eof htokens hposition hcause => exact hposition.le

theorem Scan.HasFailure.pointsInto [LocatedLexicon σ]
    (h : (ofSource source : Scan σ).HasFailure causes f) : PointsInto σ causes source f := by
  have hlies : (ofSource source : Scan σ).LiesBehind (Cursor.start source) :=
    liesBehind_ofCursor _
  have hcharacter (hpoints : (Cursor.start source).PointsAt f.position)
      (hcause : f.cause ≠ .unexpectedEof) : PointsInto σ causes source f := by
    obtain ⟨before, d, after, hsource, hblank, hposition⟩ := hpoints
    exact .character hsource hblank (by simpa [Cursor.start] using hposition) hcause
  cases h with
  | @token t ht hfailure =>
    have heof : t.isEof = false := forall_mem_tokens (fun _ _ _ _ heof => heof) _ t ht
    exact hcharacter (hfailure.position ▸ hlies.tokens t ht)
      fun hcause => by simp [hfailure.isEof hcause] at heof
  | eof hs hcause =>
    have hposition : f.position = byteLength source.toList := by
      simpa [Cursor.start] using hlies.eof hs
    exact .eof (tokenize_eq_ok_iff.mpr ⟨_, _, by rw [← hs], rfl⟩) hposition hcause
  | failed hs =>
    obtain ⟨hphase, hpoints⟩ := hlies.failed hs
    exact hcharacter hpoints fun hcause => by simp [hcause, Cause.phase] at hphase

end

theorem Expr.hasFailure_of_evaluate {source : String} {f : Failure} (h : evaluate source = .error f) :
    (Scan.ofSource source : Scan Symbol).HasFailure [.unexpectedEof, .tooDeep nestingLimit] f := by
  rw [evaluate, tokenize, Scan.toExcept] at h
  cases hending : (Scan.ofSource source : Scan Symbol).ending with
  | failed g =>
    obtain rfl : g = f := by simpa [hending, bind, Except.bind] using h
    exact .failed hending
  | eof position =>
    simp only [hending, bind, Except.bind] at h
    obtain ⟨t, ht, hfailure⟩ | ⟨rfl, hcause⟩ := hasFailure_of_evaluateTokens h
    · exact .token ht hfailure
    · exact .eof hending hcause

/-- Whether every failure of a reading lies in the text, at one of its characters or at the end. -/
def FailsInside (σ : Type) {κ : outParam Type} [Lexicon σ κ] [DecidableEq κ] (causes : List Cause)
    {α : Type} (read : String → Except Failure α) : Prop :=
  ∀ source f, read source = .error f →
    f.position ≤ byteLength source.toList ∧ PointsInto σ causes source f

theorem failsInside_of_hasFailure {σ κ α : Type} [Lexicon σ κ] [DecidableEq κ] [LocatedLexicon σ]
    {causes : List Cause} {read : String → Except Failure α}
    (h : ∀ {source f}, read source = .error f →
      (Scan.ofSource source : Scan σ).HasFailure causes f) : FailsInside σ causes read :=
  fun _ _ hread => ⟨(h hread).pointsInto.position_le, (h hread).pointsInto⟩

/-- Every failure lies in the text. A document is refused at its end only because it ends too early, and
an expression also if the operand that is due there would be nested too deep. -/
theorem failsInside_of_dialects :
    FailsInside Json.Symbol [.unexpectedEof] Json.parse ∧
      FailsInside Markup.Symbol [.unexpectedEof] Markup.parse ∧
      FailsInside Expr.Symbol [.unexpectedEof, .tooDeep nestingLimit] Expr.evaluate :=
  ⟨failsInside_of_hasFailure Json.failsInPlace.of_read_error,
    failsInside_of_hasFailure Markup.failsInPlace.of_read_error,
    failsInside_of_hasFailure Expr.hasFailure_of_evaluate⟩

/-- An escape that is none, inside a string behind a character of two bytes. -/
theorem pointsInto_of_escape : ∃ (before after : List Char) (d : Char),
    "[\"é\\x\"]".toList = before ++ d :: after ∧ isBlank d = false ∧ byteLength before = 4 := by
  have hparse : Json.parse "[\"é\\x\"]" = .error ⟨.invalidEscape "\\x", 4⟩ := rfl
  obtain ⟨-, hpoints⟩ := failsInside_of_dialects.1 _ _ hparse
  cases hpoints with
  | character hsource hblank hposition hcause => exact ⟨_, _, _, hsource, hblank, hposition.symm⟩
  | eof htokens hposition hcause => simp at hcause

end Dialects
