import Dialects.Proofs.Json.Nesting

/-!
# The JSON grammar

The texts that are read are those whose tokens the grammar derives with at most as many containers
open at a time as the limit allows, and what is read is the value of the derivation.
-/

namespace Dialects

/-- The entries that come from setting names one after the other. -/
def Entries.setAll {α : Type} (before : Entries α) (entries : List (String × α)) : Entries α :=
  entries.foldl (fun es e => Entries.insert e.1 e.2 es) before

namespace Json

/-! ## Derivations -/

def laterParts (parts : List (List Symbol)) : List Symbol := parts.flatMap (Symbol.comma :: ·)

def separated : List (List Symbol) → List Symbol
  | [] => []
  | part :: parts => part ++ laterParts parts

def memberSymbols (m : String × List Symbol × Value) : List Symbol :=
  .string m.1 :: .colon :: m.2.1

def memberEntry (m : String × List Symbol × Value) : String × Value := (m.1, m.2.2)

/-- Whether symbols are spelled as the grammar says, and for which value. -/
inductive Derives : List Symbol → Value → Prop
  | null : Derives [.null] .null
  | boolean (b : Bool) : Derives [.boolean b] (.boolean b)
  | string (text : String) : Derives [.string text] (.string text)
  | number {literal : String} {x : Double} (h : Double.read? literal.toList = some x) :
    Derives [.number literal] (.number x)
  | array (items : List (List Symbol × Value)) (h : ∀ i ∈ items, Derives i.1 i.2) :
    Derives (.leftBracket :: (separated (items.map Prod.fst) ++ [.rightBracket]))
      (.array (items.map Prod.snd))
  | object (members : List (String × List Symbol × Value))
    (h : ∀ m ∈ members, Derives m.2.1 m.2.2) :
    Derives (.leftBrace :: (separated (members.map memberSymbols) ++ [.rightBrace]))
      (.object (Entries.setAll [] (members.map memberEntry)))

@[simp] theorem laterParts_nil : laterParts [] = [] := rfl

@[simp] theorem laterParts_cons (part : List Symbol) (parts : List (List Symbol)) :
    laterParts (part :: parts) = .comma :: (part ++ laterParts parts) := rfl

theorem laterParts_balanced {parts : List (List Symbol)}
    (h : ∀ part ∈ parts, openings part = closings part) :
    openings (laterParts parts) = closings (laterParts parts) := by
  induction parts with
  | nil => rfl
  | cons part parts ih =>
    have hpart := h part (by simp)
    have hparts := ih fun p hp => h p (by simp [hp])
    simp [openings_cons, closings_cons, openings_append, closings_append, Symbol.isOpening,
      Symbol.isClosing, hpart, hparts]

theorem separated_balanced {parts : List (List Symbol)}
    (h : ∀ part ∈ parts, openings part = closings part) :
    openings (separated parts) = closings (separated parts) := by
  cases parts with
  | nil => rfl
  | cons part parts =>
    rw [separated, openings_append, closings_append, h part (by simp),
      laterParts_balanced fun p hp => h p (by simp [hp])]

theorem nestedWithin_laterParts {parts : List (List Symbol)}
    (h : ∀ part ∈ parts, openings part = closings part) (limit : Nat) :
    NestedWithin limit (laterParts parts) ↔ ∀ part ∈ parts, NestedWithin limit part := by
  induction parts with
  | nil => simp [NestedWithin, openings]
  | cons part parts ih =>
    rw [laterParts_cons, nestedWithin_cons_of_neither ⟨rfl, rfl⟩,
      nestedWithin_append (h part (by simp)), ih fun p hp => h p (by simp [hp])]
    simp

theorem nestedWithin_separated {parts : List (List Symbol)}
    (h : ∀ part ∈ parts, openings part = closings part) (limit : Nat) :
    NestedWithin limit (separated parts) ↔ ∀ part ∈ parts, NestedWithin limit part := by
  cases parts with
  | nil => simp [separated, NestedWithin, openings]
  | cons part parts =>
    rw [separated, nestedWithin_append (h part (by simp)),
      nestedWithin_laterParts fun p hp => h p (by simp [hp])]
    simp

theorem Derives.balanced {ss : List Symbol} {v : Value} (h : Derives ss v) :
    openings ss = closings ss := by
  induction h with
  | array items h ih =>
    have := separated_balanced (List.forall_mem_map.mpr ih)
    simp [openings_cons, closings_cons, openings_append, closings_append, Symbol.isOpening,
      Symbol.isClosing, this]
    rfl
  | object members h ih =>
    have hmember : ∀ m ∈ members, openings (memberSymbols m) = closings (memberSymbols m) := by
      simpa [memberSymbols, openings_cons, closings_cons, Symbol.isOpening, Symbol.isClosing]
        using ih
    have := separated_balanced (List.forall_mem_map.mpr hmember)
    simp [openings_cons, closings_cons, openings_append, closings_append, Symbol.isOpening,
      Symbol.isClosing, this]
    rfl
  | _ => rfl

theorem Derives.member_balanced {m : String × List Symbol × Value} (h : Derives m.2.1 m.2.2) :
    openings (memberSymbols m) = closings (memberSymbols m) := by
  simpa [memberSymbols, openings_cons, closings_cons, Symbol.isOpening, Symbol.isClosing]
    using h.balanced

theorem nestedWithin_member (m : String × List Symbol × Value) (limit : Nat) :
    NestedWithin limit (memberSymbols m) ↔ NestedWithin limit m.2.1 := by
  rw [memberSymbols, nestedWithin_cons_of_neither ⟨rfl, rfl⟩,
    nestedWithin_cons_of_neither ⟨rfl, rfl⟩]

/-! ## What is derived is read -/

/-- Whether tokens are read as a value wherever they stand, unless a container in them has no
room. -/
def ReadAs (ss : List Symbol) (v : Value) : Prop :=
  ∀ (ending : Ending) (frames : List Frame) (room : Nat) (ts rest : List (Token Symbol)),
    frames.length + room = nestingLimit → ts.map Token.symbol = ss →
    reader.run ending (.ok (.value frames)) (ts ++ rest) =
      (roomAfter room ts).bind fun _ => reader.run ending (.ok (State.place v frames)) rest

theorem readAs_single {s : Symbol} {v : Value} (hopen : s.isOpening = false)
    (hclose : s.isClosing = false)
    (hstep : ∀ (frames : List Frame) (position : Nat),
      State.startValue ⟨s, position⟩ frames = .ok (.ok (State.place v frames))) :
    ReadAs [s] v := by
  intro ending frames room ts rest _ hts
  obtain ⟨t, rfl, ht⟩ := List.map_eq_singleton_iff.mp hts
  have hstep' : reader.step (.value frames) t = .ok (.ok (State.place v frames)) := by
    rw [← hstep frames t.position, ← ht]
    rfl
  rw [List.singleton_append, Reader.run_cons_ok reader hstep', roomAfter, ht, hopen, hclose]
  rfl

theorem run_laterItems (ending : Ending) {frames : List Frame} {room : Nat}
    (hroom : frames.length + 1 + room = nestingLimit) {items : List (List Symbol × Value)}
    (hitems : ∀ i ∈ items, Derives i.1 i.2 ∧ ReadAs i.1 i.2)
    (before : List Value) {ts : List (Token Symbol)}
    (hts : ts.map Token.symbol = laterParts (items.map Prod.fst))
    {closing : Token Symbol} (hclosing : closing.symbol = .rightBracket)
    (rest : List (Token Symbol)) :
    reader.run ending (.ok (.afterItem before frames)) (ts ++ closing :: rest) =
      (roomAfter room ts).bind fun _ =>
        reader.run ending (.ok (State.place (.array (before.reverse ++ items.map Prod.snd)) frames))
          rest := by
  induction items generalizing before ts with
  | nil =>
    obtain rfl : ts = [] := by simpa using hts
    have hstep : reader.step (.afterItem before frames) closing =
        .ok (.ok (State.place (.array before.reverse) frames)) := by
      simp [reader, State.step, hclosing]
    rw [List.nil_append, Reader.run_cons_ok reader hstep]
    simp [roomAfter, Except.bind]
  | cons i items ih =>
    obtain ⟨hderives, hread⟩ := hitems i (by simp)
    obtain ⟨comma, ts, rfl, hcomma, hts⟩ := List.map_eq_cons_iff.mp hts
    obtain ⟨us, vs, rfl, hus, hvs⟩ := List.map_eq_append_iff.mp hts
    have hstep : reader.step (.afterItem before frames) comma =
        .ok (.ok (.value (.items before :: frames))) := by
      simp [reader, State.step, hcomma]
    have hrest := ih (fun j hj => hitems j (by simp [hj])) (i.2 :: before) hvs
    rw [List.cons_append, Reader.run_cons_ok reader hstep, List.append_assoc,
      hread ending (.items before :: frames) room us _ hroom hus, State.place, hrest,
      roomAfter_cons hcomma ⟨rfl, rfl⟩, roomAfter_append_bind (hus ▸ hderives.balanced)]
    simp

theorem run_member (ending : Ending) {frames : List Frame} {room : Nat}
    (hroom : frames.length + 1 + room = nestingLimit) {m : String × List Symbol × Value}
    (hread : ReadAs m.2.1 m.2.2) (before : Entries Value) {ts : List (Token Symbol)}
    (hts : ts.map Token.symbol = memberSymbols m) (rest : List (Token Symbol)) :
    reader.run ending (.ok (.laterKey before frames)) (ts ++ rest) =
      (roomAfter room ts).bind fun _ =>
        reader.run ending (.ok (.afterMember (Entries.insert m.1 m.2.2 before) frames)) rest := by
  obtain ⟨key, ts, rfl, hkey, hts⟩ := List.map_eq_cons_iff.mp hts
  obtain ⟨colon, ts, rfl, hcolon, hts⟩ := List.map_eq_cons_iff.mp hts
  have hstep : reader.step (.laterKey before frames) key =
      .ok (.ok (.colon before m.1 frames)) := by
    simp [reader, State.step, State.startMember, hkey]
  have hstep' : reader.step (.colon before m.1 frames) colon =
      .ok (.ok (.value (.member before m.1 :: frames))) := by
    simp [reader, State.step, hcolon]
  rw [List.cons_append, List.cons_append, Reader.run_cons_ok reader hstep,
    Reader.run_cons_ok reader hstep', roomAfter_cons hkey ⟨rfl, rfl⟩,
    roomAfter_cons hcolon ⟨rfl, rfl⟩]
  exact hread ending (.member before m.1 :: frames) room ts rest hroom hts

theorem run_firstKey (ending : Ending) (frames : List Frame) {t : Token Symbol}
    (ht : t.symbol ≠ .rightBrace) (ts : List (Token Symbol)) :
    reader.run ending (.ok (.firstKey frames)) (t :: ts) =
      reader.run ending (.ok (.laterKey [] frames)) (t :: ts) := by
  have hstep : reader.step (.firstKey frames) t = reader.step (.laterKey [] frames) t := by
    simp only [reader, State.step]
  simp only [Reader.run, bind, Except.bind, hstep]

theorem run_laterMembers (ending : Ending) {frames : List Frame} {room : Nat}
    (hroom : frames.length + 1 + room = nestingLimit) {members : List (String × List Symbol × Value)}
    (hmembers : ∀ m ∈ members, Derives m.2.1 m.2.2 ∧ ReadAs m.2.1 m.2.2)
    (before : Entries Value) {ts : List (Token Symbol)}
    (hts : ts.map Token.symbol = laterParts (members.map memberSymbols))
    {closing : Token Symbol} (hclosing : closing.symbol = .rightBrace)
    (rest : List (Token Symbol)) :
    reader.run ending (.ok (.afterMember before frames)) (ts ++ closing :: rest) =
      (roomAfter room ts).bind fun _ =>
        reader.run ending
          (.ok (State.place (.object (Entries.setAll before (members.map memberEntry))) frames))
          rest := by
  induction members generalizing before ts with
  | nil =>
    obtain rfl : ts = [] := by simpa using hts
    have hstep : reader.step (.afterMember before frames) closing =
        .ok (.ok (State.place (.object before) frames)) := by
      simp [reader, State.step, hclosing]
    rw [List.nil_append, Reader.run_cons_ok reader hstep]
    simp [roomAfter, Except.bind, Entries.setAll]
  | cons m members ih =>
    obtain ⟨hderives, hread⟩ := hmembers m (by simp)
    obtain ⟨comma, ts, rfl, hcomma, hts⟩ := List.map_eq_cons_iff.mp hts
    obtain ⟨us, vs, rfl, hus, hvs⟩ := List.map_eq_append_iff.mp hts
    have hstep : reader.step (.afterMember before frames) comma =
        .ok (.ok (.laterKey before frames)) := by
      simp [reader, State.step, hcomma]
    have hrest := ih (fun n hn => hmembers n (by simp [hn])) (Entries.insert m.1 m.2.2 before) hvs
    rw [List.cons_append, Reader.run_cons_ok reader hstep, List.append_assoc,
      run_member ending hroom hread before hus, hrest, roomAfter_cons hcomma ⟨rfl, rfl⟩,
      roomAfter_append_bind (hus ▸ hderives.member_balanced)]
    rfl

theorem Derives.exists_eq_cons {ss : List Symbol} {v : Value} (h : Derives ss v) :
    ∃ s rest, ss = s :: rest ∧ s ≠ .rightBracket := by
  cases h <;> exact ⟨_, _, rfl, by simp⟩

theorem run_firstItem (ending : Ending) (frames : List Frame) {t : Token Symbol}
    (ht : t.symbol ≠ .rightBracket) (ts : List (Token Symbol)) :
    reader.run ending (.ok (.firstItem frames)) (t :: ts) =
      reader.run ending (.ok (.value (.items [] :: frames))) (t :: ts) := by
  have hstep : reader.step (.firstItem frames) t = reader.step (.value (.items [] :: frames)) t := by
    simp only [reader, State.step]
  simp only [Reader.run, bind, Except.bind, hstep]

theorem readAs_container {opener closer : Symbol} {body : List Symbol} {v : Value}
    (inside : List Frame → State) (hopener : opener.isOpening) (hcloser : closer.isClosing)
    (hbody : openings body = closings body)
    (hstep : ∀ (frames : List Frame) (t : Token Symbol), t.symbol = opener →
      State.startValue t frames = .ok <$> State.opened t frames (inside frames))
    (hinside : ∀ (ending : Ending) (frames : List Frame) (room : Nat) (ts rest : List (Token Symbol))
      (closing : Token Symbol), frames.length + 1 + room = nestingLimit →
      ts.map Token.symbol = body → closing.symbol = closer →
      reader.run ending (.ok (inside frames)) (ts ++ closing :: rest) =
        (roomAfter room ts).bind fun _ => reader.run ending (.ok (State.place v frames)) rest) :
    ReadAs (opener :: (body ++ [closer])) v := by
  intro ending frames room ts rest hroom hts
  obtain ⟨opening, ts, rfl, hopening, hts⟩ := List.map_eq_cons_iff.mp hts
  obtain ⟨us, vs, rfl, hus, hvs⟩ := List.map_eq_append_iff.mp hts
  obtain ⟨closing, rfl, hclosing⟩ := List.map_eq_singleton_iff.mp hvs
  have hstep' : reader.step (.value frames) opening =
      .ok <$> State.opened opening frames (inside frames) := hstep frames opening hopening
  cases room with
  | zero =>
    rw [State.opened, if_pos (by omega)] at hstep'
    rw [List.cons_append, Reader.run_cons_error reader hstep', roomAfter, hopening, if_pos hopener]
    rfl
  | succ room =>
    rw [State.opened, if_neg (by omega)] at hstep'
    rw [List.cons_append, Reader.run_cons_ok reader hstep',
      roomAfter_container (by rw [hopening, hopener]) (by rw [hclosing, hcloser])
        (by rw [hus, hbody]), List.append_assoc, List.singleton_append]
    exact hinside ending frames room us rest closing (by omega) hus hclosing

theorem readAs_array {items : List (List Symbol × Value)}
    (hitems : ∀ i ∈ items, Derives i.1 i.2 ∧ ReadAs i.1 i.2) :
    ReadAs (.leftBracket :: (separated (items.map Prod.fst) ++ [.rightBracket]))
      (.array (items.map Prod.snd)) := by
  refine readAs_container State.firstItem rfl rfl
    (separated_balanced (List.forall_mem_map.mpr fun i hi => (hitems i hi).1.balanced)) ?_ ?_
  · intro frames t ht
    simp [State.startValue, ht]
  · intro ending frames room ts rest closing hroom hts hclosing
    cases items with
    | nil =>
      obtain rfl : ts = [] := by simpa [separated] using hts
      have hstep : reader.step (.firstItem frames) closing =
          .ok (.ok (State.place (.array []) frames)) := by
        simp [reader, State.step, hclosing]
      exact Reader.run_cons_ok reader hstep rest
    | cons i items =>
      obtain ⟨hderives, hread⟩ := hitems i (by simp)
      obtain ⟨us, vs, rfl, hus, hvs⟩ := List.map_eq_append_iff.mp hts
      have hlater := run_laterItems ending hroom (fun j hj => hitems j (by simp [hj])) [i.2] hvs
        hclosing rest
      have hfirst : reader.run ending (.ok (.firstItem frames)) (us ++ (vs ++ closing :: rest)) =
          reader.run ending (.ok (.value (.items [] :: frames))) (us ++ (vs ++ closing :: rest)) := by
        obtain ⟨s, ss, hs, hne⟩ := hderives.exists_eq_cons
        obtain ⟨t, us, rfl, ht, -⟩ := List.map_eq_cons_iff.mp (hus.trans hs)
        exact run_firstItem ending frames (ht ▸ hne) _
      rw [List.append_assoc, hfirst, hread ending (.items [] :: frames) room us _ hroom hus,
        State.place, hlater, roomAfter_append_bind (hus ▸ hderives.balanced)]
      rfl

theorem readAs_object {members : List (String × List Symbol × Value)}
    (hmembers : ∀ m ∈ members, Derives m.2.1 m.2.2 ∧ ReadAs m.2.1 m.2.2) :
    ReadAs (.leftBrace :: (separated (members.map memberSymbols) ++ [.rightBrace]))
      (.object (Entries.setAll [] (members.map memberEntry))) := by
  refine readAs_container State.firstKey rfl rfl
    (separated_balanced (List.forall_mem_map.mpr fun m hm => (hmembers m hm).1.member_balanced))
    ?_ ?_
  · intro frames t ht
    simp [State.startValue, ht]
  · intro ending frames room ts rest closing hroom hts hclosing
    cases members with
    | nil =>
      obtain rfl : ts = [] := by simpa [separated] using hts
      have hstep : reader.step (.firstKey frames) closing =
          .ok (.ok (State.place (.object []) frames)) := by
        simp [reader, State.step, hclosing]
      exact Reader.run_cons_ok reader hstep rest
    | cons m members =>
      obtain ⟨hderives, hread⟩ := hmembers m (by simp)
      obtain ⟨us, vs, rfl, hus, hvs⟩ := List.map_eq_append_iff.mp hts
      have hlater := run_laterMembers ending hroom (fun n hn => hmembers n (by simp [hn]))
        (Entries.insert m.1 m.2.2 []) hvs hclosing rest
      -- A first key that is no closing bracket is read as a later one.
      have hfirst : reader.run ending (.ok (.firstKey frames)) (us ++ (vs ++ closing :: rest)) =
          reader.run ending (.ok (.laterKey [] frames)) (us ++ (vs ++ closing :: rest)) := by
        obtain ⟨t, us, rfl, ht, -⟩ := List.map_eq_cons_iff.mp hus
        exact run_firstKey ending frames (by simp [ht]) _
      rw [List.append_assoc, hfirst, run_member ending hroom hread [] hus, hlater,
        roomAfter_append_bind (hus ▸ hderives.member_balanced)]
      rfl

theorem Derives.readAs {ss : List Symbol} {v : Value} (h : Derives ss v) : ReadAs ss v := by
  induction h with
  | null => exact readAs_single rfl rfl fun frames position => rfl
  | boolean b => exact readAs_single rfl rfl fun frames position => rfl
  | string text => exact readAs_single rfl rfl fun frames position => rfl
  | number h =>
    refine readAs_single rfl rfl fun frames position => ?_
    simp [State.startValue, State.decoded, h, Except.map]
  | array items h ih => exact readAs_array fun i hi => ⟨h i hi, ih i hi⟩
  | object members h ih => exact readAs_object fun m hm => ⟨h m hm, ih m hm⟩

end Json

end Dialects
