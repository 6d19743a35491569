import Dialects.Proofs.Markup.Paths

/-!
# The language of markup

The texts that are read are those whose symbols are derived with no more tags open at a time than
the limit allows.
-/

namespace Dialects.Markup

/-! ## Derived symbols are read -/

theorem startValue_of_leaf? {t : Token Symbol} {v : Value} (h : t.symbol.leaf? = some v)
    (tags : List Tag) : State.startValue t tags = .ok (.ok (State.place v tags)) := by
  cases ht : t.symbol with
  | number literal =>
    rw [ht] at h
    obtain ⟨n, hn, rfl⟩ := Option.map_eq_some_iff.mp h
    simp [State.startValue, ht, State.decoded, hn, Except.map]
  | _ => simp [ht, Symbol.leaf?] at h <;> simp [State.startValue, ht, h]

theorem Moves.step {t : Token Symbol} {tags : List Tag} {s : State} (h : Moves t tags s) :
    reader.step (.before tags) t = .ok (.ok s) := by
  rw [show reader.step (.before tags) t = State.step (.before tags) t from rfl]
  cases h with
  | @opening _ name ht hroom =>
    rw [State.step_before (by simp [ht]), State.startValue, ht]
    simp only [State.opened, if_neg (show ¬nestingLimit ≤ tags.length by omega)]
    rfl
  | @leaf _ v ht =>
    have hclose : ∀ name, t.symbol ≠ .closeTag name := by
      rintro name hname
      simp [hname, Symbol.leaf?] at ht
    rw [State.step_before hclose, startValue_of_leaf? ht]
  | closing ht => simp [State.before, State.step, ht]

/-- Whether symbols are read as a value with its tags joined, if there is room. -/
def ReadAs (ss : List Symbol) (v : Value) : Prop :=
  ∀ (ending : Ending) (tags : List Tag) (ts rest : List (Token Symbol)),
    tags.length + v.nesting ≤ nestingLimit → ts.map Token.symbol = ss →
    reader.run ending (.ok (.before tags)) (ts ++ rest) =
      reader.run ending (.ok (State.place v.joined tags)) rest

theorem run_children (ending : Ending) {children : List (List Symbol × Value)}
    (hread : ∀ c ∈ children, ReadAs c.1 c.2) {tag : Tag} {outer : List Tag}
    (hroom : ∀ c ∈ children, outer.length + 1 + c.2.nesting ≤ nestingLimit)
    {ts : List (Token Symbol)} (hts : ts.map Token.symbol = (children.map Prod.fst).flatten)
    (rest : List (Token Symbol)) :
    reader.run ending (.ok (.before (tag :: outer))) (ts ++ rest) =
      reader.run ending
        (.ok (.before ((children.map fun c => c.2.joined).foldl Tag.add tag :: outer))) rest := by
  induction children generalizing tag ts with
  | nil =>
    obtain rfl : ts = [] := by simpa using hts
    rfl
  | cons c children ih =>
    rw [List.map_cons, List.flatten_cons] at hts
    obtain ⟨us, vs, rfl, hus, hvs⟩ := List.map_eq_append_iff.mp hts
    rw [List.append_assoc, hread c (by simp) ending (tag :: outer) us _ (hroom c (by simp)) hus]
    exact ih (fun d hd => hread d (by simp [hd])) (fun d hd => hroom d (by simp [hd])) hvs

theorem Derives.readAs {ss : List Symbol} {v : Value} (h : Derives ss v) : ReadAs ss v := by
  induction h with
  | leaf h =>
    intro ending tags ts rest _ hts
    obtain ⟨t, rfl, ht⟩ := List.map_eq_singleton_iff.mp hts
    rw [Value.joined, Value.fold_leaf _ _ (isTag_of_leaf? h)]
    exact Reader.run_cons_ok reader (Moves.step (.leaf (ht ▸ h))) rest
  | tagged name children h ih =>
    intro ending tags ts rest hroom hts
    obtain ⟨opening, ts, rfl, hopening, htail⟩ := List.map_eq_cons_iff.mp hts
    obtain ⟨us, vs, rfl, hus, hvs⟩ := List.map_eq_append_iff.mp htail
    obtain ⟨closing, rfl, hclosing⟩ := List.map_eq_singleton_iff.mp hvs
    obtain ⟨hopened, hchildren⟩ := Value.add_nesting_tagged_le.mp hroom
    have hinner : ∀ c ∈ children, tags.length + 1 + c.2.nesting ≤ nestingLimit :=
      List.forall_mem_map.mp hchildren
    have hopen := Moves.step (.opening hopening hopened : Moves opening tags _)
    have hclose (tag : Tag) (htag : tag.name = name) :
        reader.step (.before (tag :: tags)) closing =
          .ok (.ok (State.place (.ofTag tag) tags)) :=
      Moves.step (.closing (hclosing.trans (by rw [htag])))
    rw [List.cons_append, Reader.run_cons_ok reader hopen, List.append_assoc,
      show State.inside (Tag.empty name) tags = .before (Tag.empty name :: tags) from rfl,
      run_children ending ih hinner hus, List.singleton_append,
      Reader.run_cons_ok reader (hclose _ (Value.name_foldl_add _ _)), Value.joined_tagged,
      List.map_map]
    rfl

theorem leaf?_leafSymbol {v : Value} (hv : v.isTag = false) : v.leafSymbol.leaf? = some v := by
  cases v with
  | tagged name children => simp [Value.isTag] at hv
  | number n => simp [Value.leafSymbol, Symbol.leaf?, Integer.read?_text]
  | _ => rfl

theorem Value.derives (v : Value) : Derives v.symbols v := by
  induction v using Value.induction with
  | leaf v hv =>
    rw [symbols, fold_leaf _ _ hv]
    exact .leaf (leaf?_leafSymbol hv)
  | tagged name children ih =>
    have hparts := Derives.tagged name (children.map fun v => (v.symbols, v))
      (List.forall_mem_map.mpr ih)
    rw [symbols_tagged]
    simpa [Function.comp_def] using hparts

/-! ## Tags open at a time -/

/-- Whether at most so many tags are open at a time, given those in front. -/
def NestedWithin (limit : Nat) (tags : List String) (ss : List Symbol) : Prop :=
  ∀ before, before <+: ss → (openBehindAll tags before).length ≤ limit

theorem nestedWithin_nil {limit : Nat} {tags : List String} :
    NestedWithin limit tags [] ↔ tags.length ≤ limit := by
  simp [NestedWithin, openBehindAll]

theorem nestedWithin_cons {limit : Nat} {tags : List String} {s : Symbol} {ss : List Symbol} :
    NestedWithin limit tags (s :: ss) ↔
      tags.length ≤ limit ∧ NestedWithin limit (s.openBehind tags) ss := by
  constructor
  · intro h
    refine ⟨h [] List.nil_prefix, fun before hbefore => ?_⟩
    exact h (s :: before) ((List.prefix_cons_inj s).mpr hbefore)
  · rintro ⟨hs, hss⟩ before hbefore
    obtain rfl | ⟨rest, rfl, hrest⟩ := List.prefix_cons_iff.mp hbefore
    · exact hs
    · exact hss rest hrest

theorem nestedWithin_append {limit : Nat} {tags : List String} {ss rs : List Symbol} :
    NestedWithin limit tags (ss ++ rs) ↔
      NestedWithin limit tags ss ∧ NestedWithin limit (openBehindAll tags ss) rs := by
  induction ss generalizing tags with
  | nil =>
    rw [List.nil_append, nestedWithin_nil]
    exact ⟨fun h => ⟨h [] List.nil_prefix, h⟩, And.right⟩
  | cons s ss ih =>
    rw [List.cons_append, nestedWithin_cons, nestedWithin_cons, ih, and_assoc]
    rfl

theorem nestedWithin_flatten {limit : Nat} {tags : List String} {parts : List (List Symbol)}
    (h : ∀ part ∈ parts, openBehindAll tags part = tags) :
    NestedWithin limit tags parts.flatten ↔
      tags.length ≤ limit ∧ ∀ part ∈ parts, NestedWithin limit tags part := by
  induction parts with
  | nil => simp [nestedWithin_nil]
  | cons part parts ih =>
    obtain ⟨hpart, hparts⟩ := List.forall_mem_cons.mp h
    rw [List.flatten_cons, nestedWithin_append, hpart, ih hparts, List.forall_mem_cons]
    tauto

theorem Derives.nestedWithin_iff {ss : List Symbol} {v : Value} (h : Derives ss v) (limit : Nat)
    (tags : List String) : NestedWithin limit tags ss ↔ tags.length + v.nesting ≤ limit := by
  induction h generalizing tags with
  | leaf h =>
    rw [nestedWithin_cons, nestedWithin_nil, openBehind_of_leaf? h, Value.nesting,
      Value.fold_leaf _ _ (isTag_of_leaf? h)]
    simp
  | tagged name children h ih =>
    have hbehind : ∀ part ∈ children.map Prod.fst,
        openBehindAll (tags ++ [name]) part = tags ++ [name] :=
      List.forall_mem_map.mpr fun c hc => (h c hc).openBehindAll_eq _
    rw [nestedWithin_cons, nestedWithin_append, Symbol.openBehind, nestedWithin_flatten hbehind,
      (withOpenTags_flatten hbehind).2, nestedWithin_cons, nestedWithin_nil, Symbol.openBehind,
      List.dropLast_concat, List.length_append, List.length_singleton]
    have hchildren : (∀ part ∈ children.map Prod.fst, NestedWithin limit (tags ++ [name]) part) ↔
        ∀ v ∈ children.map Prod.snd, tags.length + 1 + v.nesting ≤ limit := by
      rw [List.forall_mem_map, List.forall_mem_map]
      exact forall₂_congr fun c hc => by simpa using ih c hc (tags ++ [name])
    rw [hchildren, Value.add_nesting_tagged_le]
    constructor
    · rintro ⟨-, ⟨hopened, hinner⟩, -⟩
      exact ⟨hopened, hinner⟩
    · rintro ⟨hopened, hinner⟩
      exact ⟨by omega, ⟨hopened, hinner⟩, hopened, by omega⟩

/-! ## Tags open in a state -/

/-- The open tags of a state, from the inside out. -/
def State.openTags : State → List Tag
  | inside tag outer => tag :: outer
  | _ => []

@[simp] theorem State.openTags_before (tags : List Tag) : (before tags).openTags = tags := by
  cases tags <;> rfl

theorem State.names_openTags_place (v : Value) (tags : List Tag) :
    (place v tags).openTags.map Tag.name = tags.map Tag.name := by
  cases tags <;> rfl

/-- Whether the open tags of a state are those behind some symbols, and not too many. -/
def State.IsBehind (ss : List Symbol) (s : State) : Prop :=
  openBehindAll [] ss = (s.openTags.map Tag.name).reverse ∧ s.openTags.length ≤ nestingLimit

theorem openBehindAll_concat (tags : List String) (ss : List Symbol) (s : Symbol) :
    openBehindAll tags (ss ++ [s]) = s.openBehind (openBehindAll tags ss) := by
  simp [openBehindAll]

theorem Moves.isBehind {t : Token Symbol} {tags : List Tag} {s : State} {ss : List Symbol}
    (h : Moves t tags s) (hss : (State.before tags).IsBehind ss) :
    s.IsBehind (ss ++ [t.symbol]) := by
  obtain ⟨hopen, hlength⟩ := hss
  rw [State.openTags_before] at hopen hlength
  unfold State.IsBehind
  rw [openBehindAll_concat, hopen]
  cases h with
  | opening ht hroom => exact ⟨by simp [ht, Symbol.openBehind, State.openTags, Tag.empty], hroom⟩
  | leaf ht =>
    rw [openBehind_of_leaf? ht, State.names_openTags_place, ← List.length_map (f := Tag.name),
      State.names_openTags_place]
    simpa using hlength
  | @closing tag outer ht =>
    rw [ht, Symbol.openBehind, State.names_openTags_place, ← List.length_map (f := Tag.name),
      State.names_openTags_place]
    simp only [List.map_cons, List.reverse_cons, List.dropLast_concat, List.length_map, true_and]
    simp only [List.length_cons] at hlength
    omega

theorem isBehind_of_reaches {ts : List (Token Symbol)} {s : State} (h : reader.Reaches ts s) :
    s.IsBehind (ts.map Token.symbol) := by
  induction h with
  | start => exact ⟨rfl, Nat.zero_le _⟩
  | step h ht ih =>
    obtain ⟨tags, rfl, hmoves⟩ := moves_of_step ht
    rw [List.map_append, List.map_singleton]
    exact hmoves.isBehind ih

/-! ## Whole texts -/

/-- Whether the integer of a number fits into 64 bits. -/
def Symbol.Fits : Symbol → Prop
  | number literal => Int64.minValue.toInt ≤ Integer.value literal.toList ∧
      Integer.value literal.toList ≤ Int64.maxValue.toInt
  | _ => True

theorem isSome_read?_iff {cs : List Char} : (Integer.read? cs).isSome ↔
    Int64.minValue.toInt ≤ Integer.value cs ∧ Integer.value cs ≤ Int64.maxValue.toInt := by
  rw [Integer.read?]
  split_ifs with h
  · exact iff_of_true rfl h
  · exact iff_of_false (by simp) h

theorem Derives.fits {ss : List Symbol} {v : Value} (h : Derives ss v) : ∀ s ∈ ss, s.Fits := by
  induction h with
  | @leaf s v h =>
    rw [List.forall_mem_singleton]
    cases s with
    | number literal =>
      obtain ⟨n, hn, -⟩ := Option.map_eq_some_iff.mp h
      exact isSome_read?_iff.mp (Option.isSome_of_eq_some hn)
    | _ => trivial
  | tagged name children h ih =>
    refine List.forall_mem_cons.mpr ⟨trivial, List.forall_mem_append.mpr ⟨?_, by simp [Symbol.Fits]⟩⟩
    intro s hs
    obtain ⟨part, hpart, hs⟩ := List.mem_flatten.mp hs
    obtain ⟨c, hc, rfl⟩ := List.mem_map.mp hpart
    exact ih c hc s hs

theorem run_eq_ok_iff {ending : Ending} {ts : List (Token Symbol)} {v : Value} :
    reader.run ending (.ok .start) ts = .ok v ↔
      (∃ position, ending = .eof position) ∧ ∃ written, Derives (ts.map Token.symbol) written ∧
        NestedWithin nestingLimit [] (ts.map Token.symbol) ∧ v = written.joined := by
  constructor
  · intro h
    obtain ⟨written, hderives, hjoined⟩ := exists_derives_of_run h
    refine ⟨reader.exists_eof_of_run h, written, hderives, fun before hbefore => ?_, hjoined⟩
    -- What is in front of a place has been read as well, and its state has the tags open there.
    obtain ⟨us, hus, rfl⟩ := List.prefix_map_iff.mp hbefore
    obtain ⟨s, hreach⟩ := Reader.Reaches.exists_of_prefix .start h hus
    obtain ⟨hopen, hlength⟩ := isBehind_of_reaches hreach
    rw [List.nil_append] at hopen
    simpa [hopen] using hlength
  · rintro ⟨⟨position, rfl⟩, written, hderives, hnested, rfl⟩
    have hroom := (hderives.nestedWithin_iff nestingLimit []).mp hnested
    have hread := hderives.readAs (.eof position) [] ts [] hroom rfl
    rwa [List.append_nil] at hread

/-- A text is accepted exactly if its integers fit, its tokens up to the end are derived by the
grammar, and not too many tags are open at a time. What is read is the tree of the derivation with
the tags joined from the inside out. -/
theorem parse_eq_ok_iff_derives (source : String) (v : Value) :
    parse source = .ok v ↔ ∃ tokens position written,
      tokenize source = .ok (tokens ++ [(⟨.eof, position⟩ : Token Symbol)]) ∧
      (∀ t ∈ tokens, t.symbol.Fits) ∧ Derives (tokens.map Token.symbol) written ∧
      NestedWithin nestingLimit [] (tokens.map Token.symbol) ∧ v = written.joined := by
  rw [parse, Reader.read_eq_ok_iff]
  constructor
  · rintro ⟨tokens, position, htokens, hrun⟩
    obtain ⟨-, written, hderives, hnested, hjoined⟩ := run_eq_ok_iff.mp hrun
    have hfits := List.forall_mem_map.mp hderives.fits
    exact ⟨tokens, position, written, htokens, hfits, hderives, hnested, hjoined⟩
  · rintro ⟨tokens, position, written, htokens, -, hderives⟩
    exact ⟨tokens, position, htokens, run_eq_ok_iff.mpr ⟨⟨position, rfl⟩, written, hderives⟩⟩

end Dialects.Markup
