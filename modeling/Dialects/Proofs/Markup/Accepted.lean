import Dialects.Proofs.Markup.Joined

/-!
# What markup texts are read as

Everything in a value that has been read is plain and not nested too deep. Each tag and each leaf in
it comes from a token of its own, and no two child tags have one name unless tags have been joined.
-/

namespace Dialects.Markup

/-! ## Steps taken -/

/-- Whether a value starts with a symbol. -/
def Symbol.startsValue : Symbol → Bool
  | closeTag _ | eof => false
  | _ => true

/-- The leaf that a symbol stands for, if it is one and its literal can be read. -/
def Symbol.leaf? : Symbol → Option Value
  | string text => some (.string text)
  | number literal => (Integer.read? literal.toList).map .number
  | boolean value => some (.boolean value)
  | null => some .null
  | _ => none

theorem startsValue_of_leaf? {s : Symbol} {v : Value} (h : s.leaf? = some v) : s.startsValue := by
  cases s <;> simp_all [Symbol.leaf?, Symbol.startsValue]

theorem isTag_of_leaf? {s : Symbol} {v : Value} (h : s.leaf? = some v) : v.isTag = false := by
  cases s with
  | number literal =>
    obtain ⟨n, -, rfl⟩ := Option.map_eq_some_iff.mp h
    rfl
  | _ => simp [Symbol.leaf?] at h <;> subst h <;> rfl

theorem hasPlainText_of_leaf? {s : Symbol} {v : Value} (h : s.leaf? = some v) (hs : s.IsPlain) :
    v.HasPlainText := by
  cases s with
  | number literal =>
    obtain ⟨n, -, rfl⟩ := Option.map_eq_some_iff.mp h
    trivial
  | _ => simp [Symbol.leaf?] at h <;> subst h <;> exact hs

/-- What a token makes of a state: it opens a tag, is a leaf, or closes a tag. -/
inductive Moves (t : Token Symbol) : List Tag → State → Prop
  | opening {tags : List Tag} {name : String} (ht : t.symbol = .openTag name)
    (hroom : tags.length < nestingLimit) : Moves t tags (.inside (Tag.empty name) tags)
  | leaf {tags : List Tag} {v : Value} (ht : t.symbol.leaf? = some v) :
    Moves t tags (State.place v tags)
  | closing {tag : Tag} {outer : List Tag} (ht : t.symbol = .closeTag tag.name) :
    Moves t (tag :: outer) (State.place (.ofTag tag) outer)

theorem moves_of_startValue {t : Token Symbol} {tags : List Tag} {s : State}
    (h : State.startValue t tags = .ok (.ok s)) : Moves t tags s := by
  cases ht : t.symbol with
  | openTag name =>
    rw [State.startValue, ht] at h
    simp only [State.opened] at h
    split_ifs at h with hlimit
    · simp [Functor.map, Except.map] at h
    · obtain rfl : State.inside (Tag.empty name) tags = s := by
        simpa [Functor.map, Except.map] using h
      exact .opening ht (by omega)
  | string text =>
    obtain rfl : State.place (.string text) tags = s := by simpa [State.startValue, ht] using h
    exact .leaf (by rw [ht]; rfl)
  | number literal =>
    simp only [State.startValue, ht, State.decoded, Except.ok.injEq] at h
    split at h
    · rename_i n hn
      obtain rfl := Except.ok.inj h
      exact .leaf (by rw [ht, Symbol.leaf?, hn]; rfl)
    · simp [Except.map] at h
  | boolean value =>
    obtain rfl : State.place (.boolean value) tags = s := by simpa [State.startValue, ht] using h
    exact .leaf (by rw [ht]; rfl)
  | null =>
    obtain rfl : State.place .null tags = s := by simpa [State.startValue, ht] using h
    exact .leaf (by rw [ht]; rfl)
  | _ => simp [State.startValue, ht] at h

theorem moves_of_step {t : Token Symbol} {s s' : State} (h : State.step s t = .ok (.ok s')) :
    ∃ tags, s = .before tags ∧ Moves t tags s' := by
  cases s with
  | start => exact ⟨[], rfl, moves_of_startValue h⟩
  | root v => simp [State.step] at h
  | inside tag outer =>
    refine ⟨tag :: outer, rfl, ?_⟩
    cases ht : t.symbol with
    | closeTag name =>
      simp only [State.step, ht] at h
      split_ifs at h with hname
      obtain rfl : State.place (.ofTag tag) outer = s' := by simpa using h
      exact .closing (hname ▸ ht)
    | _ =>
      simp only [State.step, ht] at h
      exact moves_of_startValue h

theorem inv_root_of_run (inv : List (Token Symbol) → State → Prop) {ending : Ending}
    {ts : List (Token Symbol)} {v : Value}
    (hstep : ∀ t ∈ ts, ∀ taken tags s, inv taken (.before tags) → Moves t tags s →
      inv (taken ++ [t]) s)
    (hstart : inv [] .start) (h : reader.run ending (.ok .start) ts = .ok v) :
    inv ts (.root v) := by
  have hkept : ∀ t ∈ ts, ∀ taken s s', inv taken s → reader.step s t = .ok (.ok s') →
      inv (taken ++ [t]) s' := by
    intro t ht taken s s' hs hst
    obtain ⟨tags, rfl, hmoves⟩ := moves_of_step hst
    exact hstep t ht taken tags s' hs hmoves
  obtain ⟨s, position, hs, -, hfinish⟩ := reader.exists_finish_of_run inv [] hkept hstart h
  cases s with
  | root w =>
    obtain rfl := Except.ok.inj hfinish
    exact hs
  | _ => simp [reader, State.finish] at hfinish

/-! ## Plain and shallow -/

/-- Whether a value is plain and leaves room for so many tags around it. -/
def IsSound (around : Nat) (v : Value) : Prop :=
  v.Everywhere Value.HasPlainText ∧ around + v.nesting ≤ nestingLimit

/-- Whether open tags are plain, not too many, and have sound children. -/
def AreSound : List Tag → Prop
  | [] => True
  | tag :: outer =>
    IsPlain tag.name.toList ∧ outer.length + 1 ≤ nestingLimit ∧
      (∀ v ∈ tag.children, IsSound (outer.length + 1) v) ∧ AreSound outer

def State.IsSound : State → Prop
  | start => True
  | inside tag outer => AreSound (tag :: outer)
  | root v => Markup.IsSound 0 v

theorem isSound_tagged {around : Nat} {name : String} {children : List Value} :
    IsSound around (.tagged name children) ↔
      IsPlain name.toList ∧ around + 1 ≤ nestingLimit ∧
        ∀ v ∈ children, IsSound (around + 1) v := by
  rw [IsSound, Value.everywhere_tagged, Value.add_nesting_tagged_le]
  simp only [IsSound, forall_and, Value.HasPlainText]
  tauto

theorem isSound_leaf {around : Nat} {v : Value} (hv : v.isTag = false) :
    IsSound around v ↔ v.HasPlainText ∧ around ≤ nestingLimit := by
  rw [IsSound, Value.everywhere_leaf hv, Value.nesting, Value.fold_leaf _ _ hv, Nat.add_zero]

theorem isSound_addTo {around : Nat} {v : Value} {ws : List Value} (hv : IsSound around v)
    (hws : ∀ w ∈ ws, IsSound around w) : ∀ w ∈ v.addTo ws, IsSound around w := by
  obtain ⟨happend, -⟩ | ⟨n, before, as, after, bs, rfl, rfl, hadd⟩ := Value.addTo_eq v ws
  · rw [happend]
    exact List.forall_mem_append.mpr ⟨hws, by simpa using hv⟩
  · rw [hadd]
    obtain ⟨hbefore, hrest⟩ := List.forall_mem_append.mp hws
    obtain ⟨htag, hafter⟩ := List.forall_mem_cons.mp hrest
    obtain ⟨hn, hroom, has⟩ := isSound_tagged.mp htag
    obtain ⟨-, -, hbs⟩ := isSound_tagged.mp hv
    have hjoined := isSound_tagged.mpr ⟨hn, hroom, List.forall_mem_append.mpr ⟨has, hbs⟩⟩
    exact List.forall_mem_append.mpr ⟨hbefore, List.forall_mem_cons.mpr ⟨hjoined, hafter⟩⟩

theorem isSound_place {v : Value} {tags : List Tag} (hv : IsSound tags.length v)
    (htags : AreSound tags) : (State.place v tags).IsSound := by
  cases tags with
  | nil => exact hv
  | cons tag outer =>
    obtain ⟨hname, hlength, hchildren, houter⟩ := htags
    exact ⟨hname, hlength, isSound_addTo hv hchildren, houter⟩

theorem Moves.isSound {t : Token Symbol} {tags : List Tag} {s : State} (h : Moves t tags s)
    (ht : t.symbol.IsPlain) (htags : AreSound tags) : s.IsSound := by
  have hlength : tags.length ≤ nestingLimit := by
    cases tags with
    | nil => exact Nat.zero_le _
    | cons tag outer => exact htags.2.1
  cases h with
  | @opening _ name hopen hroom =>
    rw [hopen] at ht
    exact ⟨ht, hroom, by simp [Tag.empty], htags⟩
  | leaf hleaf =>
    exact isSound_place
      ((isSound_leaf (isTag_of_leaf? hleaf)).mpr ⟨hasPlainText_of_leaf? hleaf ht, hlength⟩) htags
  | closing hclose =>
    obtain ⟨hname, hroom, hchildren, houter⟩ := htags
    exact isSound_place (isSound_tagged.mpr ⟨hname, hroom, hchildren⟩) houter

theorem isSound_before {tags : List Tag} : (State.before tags).IsSound ↔ AreSound tags := by
  cases tags with
  | nil => exact Iff.rfl
  | cons tag outer => exact Iff.rfl

theorem isSound_of_run {ending : Ending} {ts : List (Token Symbol)} {v : Value}
    (hts : ∀ t ∈ ts, t.symbol.IsPlain) (h : reader.run ending (.ok .start) ts = .ok v) :
    IsSound 0 v := by
  refine inv_root_of_run (fun _ s => s.IsSound) ?_ trivial h
  intro t ht taken tags s htags hmoves
  exact hmoves.isSound (hts t ht) (isSound_before.mp htags)

/-! ## Nothing out of nothing -/

namespace State

def size : State → Nat
  | start => 0
  | inside tag outer => ((tag :: outer).map fun tag => (Value.ofTag tag).size).sum
  | root v => v.size

def IsDistinct : State → Prop
  | start => True
  | inside tag outer => ∀ u ∈ tag :: outer, (Value.ofTag u).Everywhere Value.NamesDistinct
  | root v => v.Everywhere Value.NamesDistinct

/-- Whether a state has at most so many tags and leaves, and fewer if tags have been joined. -/
def IsMadeFrom (n : Nat) (s : State) : Prop := s.size < n ∨ s.size = n ∧ s.IsDistinct

end State

theorem size_before (tags : List Tag) :
    (State.before tags).size = (tags.map fun tag => (Value.ofTag tag).size).sum := by
  cases tags with
  | nil => rfl
  | cons tag outer => rfl

theorem isDistinct_before {tags : List Tag} : (State.before tags).IsDistinct ↔
    ∀ tag ∈ tags, (Value.ofTag tag).Everywhere Value.NamesDistinct := by
  cases tags with
  | nil => simp [State.before, State.IsDistinct]
  | cons tag outer => exact Iff.rfl

theorem place_cases (v : Value) (tags : List Tag) :
    (State.place v tags).size < (State.before tags).size + v.size ∨
      (State.place v tags).size = (State.before tags).size + v.size ∧
        ((State.before tags).IsDistinct → v.Everywhere Value.NamesDistinct →
          (State.place v tags).IsDistinct) := by
  cases tags with
  | nil => exact .inr ⟨(Nat.zero_add _).symm, fun _ hv => hv⟩
  | cons tag outer =>
    have hplace : (State.place v (tag :: outer)).size =
        ((v.addTo tag.children).map Value.size).sum + 1 + (State.before outer).size := by
      rw [size_before]
      simp [State.place, State.size, Value.ofTag, Value.size_tagged, Tag.add]
    have hbefore : (State.before (tag :: outer)).size =
        (tag.children.map Value.size).sum + 1 + (State.before outer).size := by
      rw [size_before, size_before]
      simp [Value.ofTag, Value.size_tagged]
    rw [hplace, hbefore]
    -- A value that is appended adds its size, and one that is joined all but the tag itself.
    obtain ⟨happend, -⟩ | ⟨n, first, as, after, bs, rfl, hchildren, hadd⟩ :=
      Value.addTo_eq v tag.children
    · refine .inr ⟨by simp [happend]; omega, fun hdistinct hv => ?_⟩
      obtain ⟨htag, houter⟩ := List.forall_mem_cons.mp (isDistinct_before.mp hdistinct)
      obtain ⟨hnames, hchildren⟩ := Value.everywhere_tagged.mp htag
      have hadded := Value.nodup_tagNames_addTo hnames v
      rw [happend] at hadded
      have hadd : (Value.ofTag (tag.add v)).Everywhere Value.NamesDistinct := by
        rw [Tag.add, happend]
        exact .tagged hadded (List.forall_mem_append.mpr ⟨hchildren, by simpa using hv⟩)
      exact List.forall_mem_cons.mpr ⟨hadd, houter⟩
    · refine .inl ?_
      rw [hadd, hchildren]
      simp only [List.map_append, List.map_cons, List.sum_append, List.sum_cons, Value.size_tagged]
      omega

theorem isMadeFrom_place {v : Value} {tags : List Tag} {n : Nat}
    (h : (State.before tags).size + v.size < n ∨ (State.before tags).size + v.size = n ∧
      (State.before tags).IsDistinct ∧ v.Everywhere Value.NamesDistinct) :
    (State.place v tags).IsMadeFrom n := by
  unfold State.IsMadeFrom
  obtain hlt | ⟨heq, hdistinct⟩ := place_cases v tags
  · left
    omega
  · rw [heq]
    obtain hlt | ⟨hn, hbefore, hv⟩ := h
    · exact .inl hlt
    · exact .inr ⟨hn, hdistinct hbefore hv⟩

theorem Moves.isMadeFrom {t : Token Symbol} {tags : List Tag} {s : State} {n : Nat}
    (h : Moves t tags s) (hn : (State.before tags).IsMadeFrom n) :
    s.IsMadeFrom (n + if t.symbol.startsValue then 1 else 0) := by
  cases h with
  | @opening _ name hopen hroom =>
    have hsize : (State.inside (Tag.empty name) tags).size = (State.before tags).size + 1 := by
      rw [size_before]
      simp [State.size, Value.ofTag, Tag.empty, Value.size_tagged, Nat.add_comm]
    have hempty : (Value.ofTag (Tag.empty name)).Everywhere Value.NamesDistinct :=
      .tagged List.nodup_nil (by simp [Tag.empty])
    have hstarts : t.symbol.startsValue := by
      rw [hopen]
      rfl
    rw [if_pos hstarts]
    unfold State.IsMadeFrom
    obtain hlt | ⟨heq, hdistinct⟩ := hn
    · left
      omega
    · exact .inr ⟨by omega, List.forall_mem_cons.mpr ⟨hempty, isDistinct_before.mp hdistinct⟩⟩
  | @leaf _ v ht =>
    have hv := isTag_of_leaf? ht
    have hleaf : v.Everywhere Value.NamesDistinct := by
      refine .leaf hv ?_
      cases v with
      | tagged name children => simp [Value.isTag] at hv
      | _ => trivial
    rw [if_pos (startsValue_of_leaf? ht)]
    apply isMadeFrom_place
    rw [Value.size_leaf hv]
    obtain hlt | ⟨heq, hdistinct⟩ := hn
    · left
      omega
    · exact .inr ⟨by omega, hdistinct, hleaf⟩
  | @closing tag outer hclose =>
    -- The tag moves from the open ones into what is around it, and no token is new.
    have hsize : (State.before (tag :: outer)).size =
        (State.before outer).size + (Value.ofTag tag).size := by
      rw [size_before, size_before, List.map_cons, List.sum_cons, Nat.add_comm]
    have hnot : ¬t.symbol.startsValue := by simp [hclose, Symbol.startsValue]
    rw [if_neg hnot, Nat.add_zero]
    apply isMadeFrom_place
    rw [← hsize]
    obtain hlt | ⟨heq, hdistinct⟩ := hn
    · exact .inl hlt
    · obtain ⟨htag, houter⟩ := List.forall_mem_cons.mp (isDistinct_before.mp hdistinct)
      exact .inr ⟨heq, isDistinct_before.mpr houter, htag⟩

theorem isMadeFrom_of_run {ending : Ending} {ts : List (Token Symbol)} {v : Value}
    (h : reader.run ending (.ok .start) ts = .ok v) :
    (State.root v).IsMadeFrom (ts.countP fun t => t.symbol.startsValue) := by
  refine inv_root_of_run
    (fun taken s => s.IsMadeFrom (taken.countP fun t => t.symbol.startsValue)) ?_
    (.inr ⟨rfl, trivial⟩) h
  intro t _ taken tags s htags hmoves
  rw [List.countP_append, List.countP_singleton]
  exact hmoves.isMadeFrom htags

end Dialects.Markup
