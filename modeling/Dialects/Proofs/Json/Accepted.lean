import Dialects.Proofs.Json.Grammar

/-!
# Accepted JSON texts

A reading that gives a value has found derivations of it and of everything in it.
-/

namespace Dialects.Json

/-! ## Steps taken -/

theorem exists_step_of_run {ending : Ending} {s : State} {ts : List (Token Symbol)} {v : Value}
    (hs : ∀ w, s ≠ .root w) (h : reader.run ending (.ok s) ts = .ok v) :
    ∃ t us s', ts = t :: us ∧ State.step s t = .ok (.ok s') ∧
      reader.run ending (.ok s') us = .ok v := by
  cases ts with
  | nil =>
    cases ending with
    | failed f => simp [Reader.run] at h
    | eof position => cases s <;> simp_all [Reader.run, reader, State.finish, bind, Except.bind]
  | cons t ts =>
    obtain ⟨s', hstep, hrun⟩ := Reader.exists_step_of_run_cons reader h
    exact ⟨t, ts, s', rfl, hstep, hrun⟩

theorem of_opened_eq_ok {t : Token Symbol} {frames : List Frame} {inside s : State}
    (h : (.ok <$> State.opened t frames inside : Except Failure (Except Failure State)) =
      .ok (.ok s)) : s = inside := by
  simp only [State.opened] at h
  split_ifs at h
  · simp [Functor.map, Except.map] at h
  · simpa [Functor.map, Except.map, eq_comm] using h

theorem startValue_eq_ok {t : Token Symbol} {frames : List Frame} {s : State}
    (h : State.startValue t frames = .ok (.ok s)) :
    t.symbol = .leftBrace ∧ s = .firstKey frames ∨
      t.symbol = .leftBracket ∧ s = .firstItem frames ∨
      ∃ v, Derives [t.symbol] v ∧ s = State.place v frames := by
  cases ht : t.symbol with
  | leftBrace =>
    rw [State.startValue, ht] at h
    exact .inl ⟨rfl, of_opened_eq_ok h⟩
  | leftBracket =>
    rw [State.startValue, ht] at h
    exact .inr (.inl ⟨rfl, of_opened_eq_ok h⟩)
  | string text =>
    simp only [State.startValue, ht, Except.ok.injEq] at h
    exact .inr (.inr ⟨_, .string text, h.symm⟩)
  | number literal =>
    simp only [State.startValue, ht, State.decoded, Except.ok.injEq] at h
    split at h
    · rename_i x hx
      simp only [Except.map, Except.ok.injEq] at h
      exact .inr (.inr ⟨_, .number hx, h.symm⟩)
    · simp [Except.map] at h
  | boolean b =>
    simp only [State.startValue, ht, Except.ok.injEq] at h
    exact .inr (.inr ⟨_, .boolean b, h.symm⟩)
  | null =>
    simp only [State.startValue, ht, Except.ok.injEq] at h
    exact .inr (.inr ⟨_, .null, h.symm⟩)
  | _ => simp [State.startValue, ht] at h

/-! ## What is read is derived -/

/-- Whether tokens that are read where a value stands start with one. -/
def ValueFound (ts : List (Token Symbol)) : Prop :=
  ∀ (ending : Ending) (frames : List Frame) (v : Value),
    reader.run ending (.ok (.value frames)) ts = .ok v →
    ∃ us rest w, ts = us ++ rest ∧ Derives (us.map Token.symbol) w ∧
      reader.run ending (.ok (State.place w frames)) rest = .ok v

def ItemsFound (ts : List (Token Symbol)) : Prop :=
  ∀ (ending : Ending) (before : List Value) (frames : List Frame) (v : Value),
    reader.run ending (.ok (.afterItem before frames)) ts = .ok v →
    ∃ us closing rest, ∃ items : List (List Symbol × Value), ts = us ++ closing :: rest ∧
      us.map Token.symbol = laterParts (items.map Prod.fst) ∧ closing.symbol = .rightBracket ∧
      (∀ i ∈ items, Derives i.1 i.2) ∧
      reader.run ending
        (.ok (State.place (.array (before.reverse ++ items.map Prod.snd)) frames)) rest = .ok v

def MembersFound (ts : List (Token Symbol)) : Prop :=
  ∀ (ending : Ending) (before : Entries Value) (frames : List Frame) (v : Value),
    reader.run ending (.ok (.afterMember before frames)) ts = .ok v →
    ∃ us closing rest, ∃ members : List (String × List Symbol × Value), ts = us ++ closing :: rest ∧
      us.map Token.symbol = laterParts (members.map memberSymbols) ∧
      closing.symbol = .rightBrace ∧ (∀ m ∈ members, Derives m.2.1 m.2.2) ∧
      reader.run ending
        (.ok (State.place (.object (Entries.setAll before (members.map memberEntry))) frames))
        rest = .ok v

/-- Whether tokens start with what the place they are read at asks for. -/
def Found (ts : List (Token Symbol)) : Prop := ValueFound ts ∧ ItemsFound ts ∧ MembersFound ts

theorem itemsFound_of_shorter {ts : List (Token Symbol)}
    (ih : ∀ us : List (Token Symbol), us.length < ts.length → Found us) : ItemsFound ts := by
  intro ending before frames v h
  obtain ⟨t, ts, s, rfl, hstep, hrun⟩ := exists_step_of_run (by simp) h
  cases ht : t.symbol with
  | comma =>
    obtain rfl : State.value (.items before :: frames) = s := by simpa [State.step, ht] using hstep
    obtain ⟨us, rest, w, rfl, hw, hrun⟩ := (ih ts (by simp)).1 ending _ v hrun
    obtain ⟨us', closing, rest', items, rfl, hus', hclosing, hitems, hrun⟩ :=
      (ih rest (by simp)).2.1 ending _ frames v hrun
    refine ⟨t :: (us ++ us'), closing, rest', (us.map Token.symbol, w) :: items, by simp,
      by simp [ht, hus'], hclosing, by simpa [hw] using hitems, by simpa using hrun⟩
  | rightBracket =>
    obtain rfl : State.place (.array before.reverse) frames = s := by
      simpa [State.step, ht] using hstep
    exact ⟨[], t, ts, [], rfl, rfl, ht, by simp, by simpa using hrun⟩
  | _ => simp [State.step, ht] at hstep

theorem exists_member {ts : List (Token Symbol)}
    (ih : ∀ us : List (Token Symbol), us.length < ts.length → Found us) {ending : Ending}
    {before : Entries Value} {frames : List Frame} {v : Value}
    (h : reader.run ending (.ok (.laterKey before frames)) ts = .ok v) :
    ∃ us rest, ∃ m : String × List Symbol × Value, ts = us ++ rest ∧
      us.map Token.symbol = memberSymbols m ∧ Derives m.2.1 m.2.2 ∧ rest.length < ts.length ∧
      reader.run ending (.ok (.afterMember (Entries.insert m.1 m.2.2 before) frames)) rest =
        .ok v := by
  obtain ⟨key, ts, s, rfl, hstep, hrun⟩ := exists_step_of_run (by simp) h
  cases hkey : key.symbol with
  | string name =>
    obtain rfl : State.colon before name frames = s := by
      simpa [State.step, State.startMember, hkey] using hstep
    obtain ⟨colon, ts, s, rfl, hstep, hrun⟩ := exists_step_of_run (by simp) hrun
    cases hcolon : colon.symbol with
    | colon =>
      obtain rfl : State.value (.member before name :: frames) = s := by
        simpa [State.step, hcolon] using hstep
      obtain ⟨us, rest, w, rfl, hw, hrun⟩ := (ih ts (by simp)).1 ending _ v hrun
      exact ⟨key :: colon :: us, rest, (name, us.map Token.symbol, w), by simp,
        by simp [memberSymbols, hkey, hcolon], hw, by simp; omega, hrun⟩
    | _ => simp [State.step, hcolon] at hstep
  | _ => simp [State.step, State.startMember, hkey] at hstep

theorem membersFound_of_shorter {ts : List (Token Symbol)}
    (ih : ∀ us : List (Token Symbol), us.length < ts.length → Found us) : MembersFound ts := by
  intro ending before frames v h
  obtain ⟨t, ts, s, rfl, hstep, hrun⟩ := exists_step_of_run (by simp) h
  cases ht : t.symbol with
  | comma =>
    obtain rfl : State.laterKey before frames = s := by simpa [State.step, ht] using hstep
    obtain ⟨us, rest, m, rfl, hus, hm, hlt, hrun⟩ :=
      exists_member (fun us hus => ih us (by simp at hus ⊢; omega)) hrun
    obtain ⟨us', closing, rest', members, rfl, hus', hclosing, hmembers, hrun⟩ :=
      (ih rest (by simp)).2.2 ending _ frames v hrun
    refine ⟨t :: (us ++ us'), closing, rest', m :: members, by simp,
      by simp [ht, hus, hus'], hclosing, by simpa [hm] using hmembers, hrun⟩
  | rightBrace =>
    obtain rfl : State.place (.object before) frames = s := by
      simpa [State.step, ht] using hstep
    exact ⟨[], t, ts, [], rfl, rfl, ht, by simp, hrun⟩
  | _ => simp [State.step, ht] at hstep

theorem exists_items {ts : List (Token Symbol)}
    (ih : ∀ us : List (Token Symbol), us.length ≤ ts.length → Found us) {ending : Ending}
    {frames : List Frame} {v : Value}
    (h : reader.run ending (.ok (.firstItem frames)) ts = .ok v) :
    ∃ us rest, ∃ items : List (List Symbol × Value), ts = us ++ rest ∧
      us.map Token.symbol = separated (items.map Prod.fst) ++ [.rightBracket] ∧
      (∀ i ∈ items, Derives i.1 i.2) ∧
      reader.run ending (.ok (State.place (.array (items.map Prod.snd)) frames)) rest = .ok v := by
  obtain ⟨t, ts, s, rfl, hstep, hrun⟩ := exists_step_of_run (by simp) h
  by_cases ht : t.symbol = .rightBracket
  · obtain rfl : State.place (.array []) frames = s := by simpa [State.step, ht] using hstep
    exact ⟨[t], ts, [], rfl, by simp [ht, separated], by simp, hrun⟩
  · rw [run_firstItem ending frames ht] at h
    obtain ⟨us, rest, w, hsplit, hw, hrun⟩ := (ih _ le_rfl).1 ending _ v h
    have hlength := congrArg List.length hsplit
    obtain ⟨us', closing, rest', items, rfl, hus', hclosing, hitems, hrun⟩ :=
      (ih rest (by simp at hlength ⊢; omega)).2.1 ending _ frames v hrun
    exact ⟨us ++ us' ++ [closing], rest', (us.map Token.symbol, w) :: items, by simp [hsplit],
      by simp [separated, hus', hclosing], by simpa [hw] using hitems, by simpa using hrun⟩

theorem exists_members {ts : List (Token Symbol)}
    (ih : ∀ us : List (Token Symbol), us.length ≤ ts.length → Found us) {ending : Ending}
    {frames : List Frame} {v : Value}
    (h : reader.run ending (.ok (.firstKey frames)) ts = .ok v) :
    ∃ us rest, ∃ members : List (String × List Symbol × Value), ts = us ++ rest ∧
      us.map Token.symbol = separated (members.map memberSymbols) ++ [.rightBrace] ∧
      (∀ m ∈ members, Derives m.2.1 m.2.2) ∧
      reader.run ending
        (.ok (State.place (.object (Entries.setAll [] (members.map memberEntry))) frames)) rest =
        .ok v := by
  obtain ⟨t, ts, s, rfl, hstep, hrun⟩ := exists_step_of_run (by simp) h
  by_cases ht : t.symbol = .rightBrace
  · obtain rfl : State.place (.object []) frames = s := by simpa [State.step, ht] using hstep
    exact ⟨[t], ts, [], rfl, by simp [ht, separated], by simp, hrun⟩
  · rw [run_firstKey ending frames ht] at h
    obtain ⟨us, rest, m, hsplit, hus, hm, hlt, hrun⟩ :=
      exists_member (fun us hus => ih us hus.le) h
    obtain ⟨us', closing, rest', members, rfl, hus', hclosing, hmembers, hrun⟩ :=
      (ih rest hlt.le).2.2 ending _ frames v hrun
    exact ⟨us ++ us' ++ [closing], rest', m :: members, by simp [hsplit],
      by simp [separated, hus, hus', hclosing], by simpa [hm] using hmembers, hrun⟩

theorem valueFound_of_shorter {ts : List (Token Symbol)}
    (ih : ∀ us : List (Token Symbol), us.length < ts.length → Found us) : ValueFound ts := by
  intro ending frames v h
  obtain ⟨t, ts, s, rfl, hstep, hrun⟩ := exists_step_of_run (by simp) h
  have ih' (us : List (Token Symbol)) (hus : us.length ≤ ts.length) : Found us :=
    ih us (by simp; omega)
  obtain ⟨ht, rfl⟩ | ⟨ht, rfl⟩ | ⟨w, hw, rfl⟩ := startValue_eq_ok hstep
  · obtain ⟨us, rest, members, rfl, hus, hmembers, hrun⟩ := exists_members ih' hrun
    refine ⟨t :: us, rest, _, rfl, ?_, hrun⟩
    rw [List.map_cons, ht, hus]
    exact .object members hmembers
  · obtain ⟨us, rest, items, rfl, hus, hitems, hrun⟩ := exists_items ih' hrun
    refine ⟨t :: us, rest, _, rfl, ?_, hrun⟩
    rw [List.map_cons, ht, hus]
    exact .array items hitems
  · exact ⟨[t], ts, w, rfl, hw, hrun⟩

theorem found (ts : List (Token Symbol)) : Found ts := by
  induction hn : ts.length using Nat.strong_induction_on generalizing ts with
  | _ n ih =>
    subst hn
    have ih' (us : List (Token Symbol)) (hus : us.length < ts.length) : Found us := ih _ hus us rfl
    exact ⟨valueFound_of_shorter ih', itemsFound_of_shorter ih', membersFound_of_shorter ih'⟩

/-! ## Whole texts -/

theorem run_root {ending : Ending} {w v : Value} {ts : List (Token Symbol)} :
    reader.run ending (.ok (.root w)) ts = .ok v ↔
      ts = [] ∧ (∃ position, ending = .eof position) ∧ w = v := by
  cases ts with
  | nil => cases ending <;> simp [Reader.run, reader, State.finish, bind, Except.bind]
  | cons t ts =>
    have hstep : reader.step (.root w) t = .error t.trailing := rfl
    simp [Reader.run_cons_error reader hstep]

theorem run_eq_ok_iff {ending : Ending} {ts : List (Token Symbol)} {v : Value} :
    reader.run ending (.ok (.value [])) ts = .ok v ↔
      (∃ position, ending = .eof position) ∧ Derives (ts.map Token.symbol) v ∧
        NestedWithin nestingLimit (ts.map Token.symbol) := by
  rw [nestedWithin_iff]
  constructor
  · intro h
    obtain ⟨us, rest, w, rfl, hw, hrun⟩ := (found ts).1 ending [] v h
    obtain ⟨rfl, hending, rfl⟩ := run_root.mp hrun
    have hread := hw.readAs ending [] nestingLimit us [] (by simp) rfl
    rw [List.append_nil] at h hread ⊢
    refine ⟨hending, hw, ?_⟩
    -- Derived tokens are read until there is no room, and these have been read.
    cases hroom : roomAfter nestingLimit us with
    | error f => simp [hroom, hread, Except.bind] at h
    | ok left => exact ⟨left, rfl⟩
  · rintro ⟨hending, hv, left, hroom⟩
    have hread := hv.readAs ending [] nestingLimit ts [] (by simp) rfl
    rw [List.append_nil, hroom] at hread
    exact hread.trans (run_root.mpr ⟨rfl, hending, rfl⟩)

/-- A text is accepted exactly if its tokens up to the end are derived by the grammar with at most
as many containers open at a time as the limit allows. The value is that of the derivation. -/
theorem parse_eq_ok_iff (source : String) (v : Value) :
    parse source = .ok v ↔ ∃ tokens position,
      tokenize source = .ok (tokens ++ [(⟨.eof, position⟩ : Token Symbol)]) ∧
      Derives (tokens.map Token.symbol) v ∧
      NestedWithin nestingLimit (tokens.map Token.symbol) := by
  have hparse : parse source = reader.run (Scan.ofSource source).ending (.ok (.value []))
    (Scan.ofSource source).tokens := rfl
  rw [hparse, run_eq_ok_iff, tokenize, Scan.toExcept]
  constructor
  · rintro ⟨⟨position, hending⟩, hderives⟩
    exact ⟨_, position, by rw [hending]; rfl, hderives⟩
  · rintro ⟨tokens, position, htokens, hderives⟩
    cases hending : (Scan.ofSource (σ := Symbol) source).ending with
    | failed f => simp [hending] at htokens
    | eof position' =>
      rw [hending] at htokens
      obtain ⟨rfl, -⟩ := List.append_inj' (Except.ok.inj htokens) rfl
      exact ⟨⟨position', rfl⟩, hderives⟩

end Dialects.Json
