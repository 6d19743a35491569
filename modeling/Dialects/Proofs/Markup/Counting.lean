import Dialects.Proofs.Markup.Accepted
import Dialects.Proofs.Markup.Orthography

/-!
# Counting tokens

A written value has at most one token that starts a value for each tag and each leaf in it. A name
with a slash in front and a leaf next to another cost one.
-/

namespace Dialects.Markup

open Dialects.Text

/-! ## Tokens behind a cursor -/

/-- How many of the tokens behind a cursor start a value. -/
def startsAt (c : Cursor) : Nat :=
  (Scan.ofCursor c : Scan Symbol).tokens.countP fun t => t.symbol.startsValue

theorem startsAt_nil (offset : Nat) : startsAt ⟨offset, []⟩ = 0 := rfl

theorem startsAt_of_next {c c' : Cursor} {t : Token Symbol} (h : next c = (.ok t, c'))
    (ht : t.symbol ≠ .eof) :
    startsAt c = startsAt c' + if t.symbol.startsValue then 1 else 0 := by
  have hnext : Lexicon.next c = (.ok t, c') := h
  unfold startsAt
  rw [Scan.ofCursor_eq, hnext]
  simp only [isEof_eq_false ht, Bool.false_eq_true, if_false, Scan.cons, List.countP_cons]

theorem startsAt_of_next_error {c c' : Cursor} {f : Failure} (h : next c = (.error f, c')) :
    startsAt c = 0 := by
  have hnext : Lexicon.next (σ := Symbol) c = (.error f, c') := h
  unfold startsAt
  rw [Scan.ofCursor_eq, hnext]
  rfl

theorem startsAt_blanks {cs : List Char} (hcs : ∀ c ∈ cs, isBlank c) (offset : Nat)
    (rest : List Char) : startsAt ⟨offset, cs ++ rest⟩ = startsAt ⟨offset + byteLength cs, rest⟩ := by
  unfold startsAt
  rw [← Scan.ofCursor_skipBlanks, Cursor.skipBlanks_append_skipBlanks hcs,
    Scan.ofCursor_skipBlanks]

/-! ## What a text adds -/

/-- Whether a text in front of another adds so many tokens that start a value, or fewer unless a
condition holds. -/
def Adds (n : Nat) (P : Prop) (cs rest : List Char) : Prop :=
  ∀ offset, startsAt ⟨offset, cs ++ rest⟩ < n + startsAt ⟨offset + byteLength cs, rest⟩ ∨
    startsAt ⟨offset, cs ++ rest⟩ = n + startsAt ⟨offset + byteLength cs, rest⟩ ∧ P

variable {n m : Nat} {P Q : Prop} {cs ds rest : List Char}

theorem Adds.append (hcs : Adds n P cs (ds ++ rest)) (hds : Adds m Q ds rest) :
    Adds (n + m) (P ∧ Q) (cs ++ ds) rest := by
  intro offset
  have hc := hcs offset
  have hd := hds (offset + byteLength cs)
  rw [List.append_assoc, byteLength_append, ← Nat.add_assoc offset]
  obtain hc | ⟨hc, hP⟩ := hc
  · left
    omega
  · obtain hd | ⟨hd, hQ⟩ := hd
    · left
      omega
    · exact .inr ⟨by omega, hP, hQ⟩

theorem Adds.mono (h : Adds n P cs rest) (hPQ : P → Q) : Adds n Q cs rest := by
  intro offset
  exact (h offset).imp_right (And.imp_right hPQ)

theorem adds_blanks (hcs : ∀ c ∈ cs, isBlank c) (rest : List Char) : Adds 0 True cs rest := by
  intro offset
  rw [startsAt_blanks hcs]
  exact .inr ⟨(Nat.zero_add _).symm, trivial⟩

theorem adds_closeMark {name : String} (hname : IsPlain name.toList) (rest : List Char) :
    Adds 0 True (closeMark name) rest := by
  intro offset
  rw [startsAt_of_next (next_closeMark hname offset rest) (by simp)]
  exact .inr ⟨Nat.add_comm _ _, trivial⟩

theorem adds_openMark {name : String} (hname : IsPlain name.toList) (rest : List Char) :
    Adds 1 (name.toList.head? ≠ some '/') (openMark name) rest := by
  intro offset
  by_cases hslash : name.toList.head? = some '/'
  · obtain ⟨cs, hcs⟩ := List.head?_eq_some_iff.mp hslash
    have hbracket : ∀ c ∈ cs, isBracket c = false := by
      intro c hc
      apply hname.2.2
      rw [hcs]
      exact List.mem_cons_of_mem _ hc
    have hnext := next_mark hbracket true (by simp) offset rest
    -- It is read as a closing tag, or refused if there is no name behind the slash.
    rw [openMark_eq_of_slash hcs]
    left
    by_cases hempty : (trim cs).isEmpty
    · rw [if_pos hempty] at hnext
      rw [startsAt_of_next_error hnext]
      omega
    · rw [if_neg hempty] at hnext
      rw [startsAt_of_next hnext (by simp)]
      simp [Symbol.startsValue]
  · rw [startsAt_of_next (next_openMark hname hslash offset rest) (by simp)]
    exact .inr ⟨Nat.add_comm _ _, hslash⟩

theorem startsValue_ofText (cs : List Char) : (Symbol.ofText cs).startsValue := by
  unfold Symbol.ofText
  simp only
  split_ifs <;> rfl

theorem ne_eof_of_startsValue {s : Symbol} (h : s.startsValue) : s ≠ .eof := by
  rintro rfl
  simp [Symbol.startsValue] at h

theorem startsAt_leaf {text : List Char} (h : IsPlain text) (offset : Nat) (rest : List Char) :
    startsAt ⟨offset, text ++ rest⟩ =
      startsAt ⟨offset + byteLength (text ++ leafPart rest), rest.dropWhile (!isBracket ·)⟩ + 1 := by
  have hstarts := startsValue_ofText (trim (text ++ leafPart rest))
  rw [startsAt_of_next (next_leafPart h offset rest) (ne_eof_of_startsValue hstarts),
    if_pos hstarts]

theorem startsAt_of_not_isClosed (h : ¬IsClosed rest) (offset : Nat) :
    startsAt ⟨offset, rest⟩ =
      startsAt ⟨offset + byteLength (leafPart rest), rest.dropWhile (!isBracket ·)⟩ + 1 := by
  obtain ⟨blanks, d, ds, hpart, hblanks, hd⟩ := exists_not_blank_of_not_isClosed h
  have hbracket : ∀ c ∈ d :: ds, isBracket c = false := by
    intro c hc
    apply not_isBracket_of_mem_takeWhile
    change c ∈ leafPart rest
    rw [hpart]
    exact List.mem_append_right _ hc
  have hsplit : blanks ++ d :: (ds ++ rest.dropWhile (!isBracket ·)) = rest := by
    rw [← List.cons_append, ← List.append_assoc, ← hpart]
    exact List.takeWhile_append_dropWhile
  have hstarts := startsValue_ofText (trim (d :: ds))
  have hnext := next_leaf hd hbracket (stops_dropWhile _ rest) (offset + byteLength blanks)
  have hskip := startsAt_blanks hblanks offset (d :: (ds ++ rest.dropWhile (!isBracket ·)))
  rw [hsplit] at hskip
  rw [hskip, startsAt_of_next hnext (ne_eof_of_startsValue hstarts), if_pos hstarts, hpart,
    byteLength_append, Nat.add_assoc]

theorem adds_leaf {text : List Char} (h : IsPlain text) (rest : List Char) :
    Adds 1 (IsClosed rest) text rest := by
  intro offset
  rw [startsAt_leaf h, byteLength_append, ← Nat.add_assoc]
  by_cases hclosed : IsClosed rest
  · have hblanks := startsAt_blanks hclosed (offset + byteLength text)
      (rest.dropWhile (!isBracket ·))
    rw [leafPart, List.takeWhile_append_dropWhile] at hblanks
    exact .inr ⟨by rw [hblanks, leafPart, Nat.add_comm], hclosed⟩
  · left
    rw [startsAt_of_not_isClosed hclosed]
    omega

/-! ## What a value adds -/

/-- What holds of a value that adds a token for each tag and each leaf in it. -/
def Value.AddsAll (v : Value) (rest : List Char) : Prop :=
  v.Everywhere HasName ∧ v.Everywhere LeavesApart ∧ (v.isTag ∨ IsClosed rest)

theorem adds_write_leaf {v : Value} (hv : v.isTag = false) (h : v.HasPlainText)
    (layout : Layout) (depth : Nat) (rest : List Char) :
    Adds v.size (v.AddsAll rest) (v.write layout depth) rest := by
  rw [Value.size_leaf hv, Value.write_leaf hv]
  apply (adds_leaf (Value.isPlain_leafText hv h) rest).mono
  intro hclosed
  refine ⟨.leaf hv ?_, .leaf hv ?_, .inr hclosed⟩
  · cases v with
    | tagged name children => simp [Value.isTag] at hv
    | _ => trivial
  · cases v with
    | tagged name children => simp [Value.isTag] at hv
    | _ => trivial

def Value.AddsAtMost (v : Value) : Prop :=
  ∀ (layout : Layout) (depth : Nat) (rest : List Char),
    Adds v.size (v.AddsAll rest) (v.write layout depth) rest

theorem isTag_of_isClosed {v : Value} (h : v.HasPlainText) {layout : Layout} {depth : Nat}
    (hclosed : IsClosed (layout.lineBreak depth ++ (v.write layout depth ++ rest))) : v.isTag := by
  rw [isClosed_append fun c hc => isBlank_of_mem_lineBreak hc] at hclosed
  cases hv : v.isTag with
  | true => rfl
  | false =>
    rw [Value.write_leaf hv] at hclosed
    exact absurd hclosed (not_isClosed_append (Value.isPlain_leafText hv h) rest)

theorem adds_writeAll {children : List Value} (h : ∀ v ∈ children, v.AddsAtMost)
    (hplain : ∀ v ∈ children, v.HasPlainText) (layout : Layout) (depth : Nat)
    (rest : List Char) : Adds (children.map Value.size).sum
      ((∀ v ∈ children, v.Everywhere Value.HasName ∧ v.Everywhere Value.LeavesApart) ∧
        children.IsChain fun a b => a.isTag ∨ b.isTag)
      (Value.writeAll layout depth children) rest := by
  induction children with
  | nil =>
    have hnone : Adds 0 True [] rest := adds_blanks (List.forall_mem_nil _) rest
    exact hnone.mono fun _ => ⟨List.forall_mem_nil _, .nil⟩
  | cons v vs ih =>
    obtain ⟨hv, hvs⟩ := List.forall_mem_cons.mp h
    obtain ⟨-, hplains⟩ := List.forall_mem_cons.mp hplain
    have hbreak : ∀ c ∈ layout.lineBreak depth, isBlank c :=
      fun c hc => isBlank_of_mem_lineBreak hc
    have hblanks := adds_blanks hbreak
      (v.write layout depth ++ Value.writeAll layout depth vs ++ rest)
    have hfirst := hv layout depth (Value.writeAll layout depth vs ++ rest)
    have hall := hblanks.append (hfirst.append (ih hvs hplains))
    rw [Nat.zero_add] at hall
    rw [List.map_cons, List.sum_cons, Value.writeAll]
    apply hall.mono
    rintro ⟨-, ⟨hname, hapart, hnext⟩, hrest, hchain⟩
    refine ⟨List.forall_mem_cons.mpr ⟨⟨hname, hapart⟩, hrest⟩, ?_⟩
    cases vs with
    | nil => exact .singleton v
    | cons w ws =>
      -- Behind blanks only a bracket ends a leaf, so the next child is a tag.
      refine .cons_cons (hnext.imp_right fun hclosed => ?_) hchain
      rw [Value.writeAll, List.append_assoc, List.append_assoc] at hclosed
      exact isTag_of_isClosed (hplains w List.mem_cons_self) hclosed

theorem hasPlainText_of_everywhere {v : Value} (h : v.Everywhere Value.HasPlainText) :
    v.HasPlainText := by
  cases h with
  | leaf _ h => exact h
  | tagged h _ => exact h

theorem addsAtMost {v : Value} (h : v.Everywhere Value.HasPlainText) : v.AddsAtMost := by
  induction h with
  | leaf hv h => exact adds_write_leaf hv h
  | @tagged name children h hchildren ih =>
    intro layout depth rest
    obtain ⟨inner, blanks, hblanks, hwrite⟩ :=
      Value.exists_write_tagged layout depth name children
    have hinside := adds_writeAll ih (fun v hv => hasPlainText_of_everywhere (hchildren v hv))
      inner (depth + 1) (blanks ++ closeMark name ++ rest)
    -- The opening mark counts for the tag, the blanks and the closing mark for nothing.
    have hall := (adds_openMark h _).append (hinside.append
      ((adds_blanks hblanks _).append (adds_closeMark h rest)))
    have hsize : (Value.tagged name children).size =
        1 + ((children.map Value.size).sum + (0 + 0)) := by
      rw [Value.size_tagged]
      omega
    rw [hwrite, hsize]
    apply hall.mono
    rintro ⟨hslash, ⟨hgood, hchain⟩, -, -⟩
    exact ⟨.tagged ⟨h, hslash⟩ fun v hv => (hgood v hv).1,
      .tagged hchain fun v hv => (hgood v hv).2, .inl rfl⟩

end Dialects.Markup
