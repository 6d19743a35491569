import Dialects.Proofs.Markup.Accepted

/-!
# The markup grammar

A text that is read is derived by the grammar for a tree as it is written, in which tags may share a
name, and what is read is that tree with its tags joined.
-/

namespace Dialects.Markup

/-! ## Derivations -/

/-- Whether symbols are spelled as the grammar says, and for which tree as it is written. -/
inductive Derives : List Symbol → Value → Prop
  | leaf {s : Symbol} {v : Value} (h : s.leaf? = some v) : Derives [s] v
  | tagged (name : String) (children : List (List Symbol × Value))
    (h : ∀ c ∈ children, Derives c.1 c.2) :
    Derives (.openTag name :: ((children.map Prod.fst).flatten ++ [.closeTag name]))
      (.tagged name (children.map Prod.snd))

/-! ## What is read is derived -/

/-- Whether symbols are those of some open tags, listed from the inside out, whose children so far
are derived and have been joined one after the other. -/
def OpenedBy : List Symbol → List Tag → Prop
  | ss, [] => ss = []
  | ss, tag :: outer => ∃ before, ∃ children : List (List Symbol × Value), OpenedBy before outer ∧
      (∀ c ∈ children, Derives c.1 c.2) ∧
      ss = before ++ .openTag tag.name :: (children.map Prod.fst).flatten ∧
      tag = (children.map fun c => c.2.joined).foldl Tag.add (Tag.empty tag.name)

def State.ReadFrom (ss : List Symbol) : State → Prop
  | start => OpenedBy ss []
  | inside tag outer => OpenedBy ss (tag :: outer)
  | root v => ∃ written, Derives ss written ∧ v = written.joined

theorem readFrom_before {ss : List Symbol} {tags : List Tag} :
    (State.before tags).ReadFrom ss ↔ OpenedBy ss tags := by
  cases tags with
  | nil => exact Iff.rfl
  | cons tag outer => exact Iff.rfl

theorem readFrom_place {before ss : List Symbol} {tags : List Tag} {written : Value}
    (hbefore : OpenedBy before tags) (hwritten : Derives ss written) :
    (State.place written.joined tags).ReadFrom (before ++ ss) := by
  cases tags with
  | nil =>
    obtain rfl : before = [] := hbefore
    exact ⟨written, hwritten, rfl⟩
  | cons tag outer =>
    obtain ⟨before, children, houter, hchildren, rfl, htag⟩ := hbefore
    refine ⟨before, children ++ [(ss, written)], houter, ?_, by simp [Tag.add], ?_⟩
    · exact List.forall_mem_append.mpr ⟨hchildren, by simpa using hwritten⟩
    · rw [List.map_append, List.foldl_append, show (tag.add written.joined).name = tag.name from rfl,
        ← htag]
      rfl

theorem Moves.readFrom {t : Token Symbol} {tags : List Tag} {s : State} {ss : List Symbol}
    (h : Moves t tags s) (hss : OpenedBy ss tags) : s.ReadFrom (ss ++ [t.symbol]) := by
  cases h with
  | @opening _ name hopen hroom =>
    rw [hopen]
    exact ⟨ss, [], hss, by simp, by simp [Tag.empty], rfl⟩
  | @leaf _ v hleaf =>
    have hjoined : v.joined = v := Value.fold_leaf _ _ (isTag_of_leaf? hleaf)
    have hplace := readFrom_place hss (.leaf hleaf)
    rwa [hjoined] at hplace
  | @closing tag outer hclose =>
    obtain ⟨before, children, houter, hchildren, rfl, htag⟩ := hss
    have hjoined : (Value.tagged tag.name (children.map Prod.snd)).joined = .ofTag tag := by
      rw [Value.joined_tagged, List.map_map, htag]
      exact congrArg Value.ofTag (by rw [Value.name_foldl_add]; rfl)
    have hplace := readFrom_place houter (.tagged tag.name children hchildren)
    rw [hjoined] at hplace
    rw [hclose]
    simpa using hplace

theorem exists_derives_of_run {ending : Ending} {ts : List (Token Symbol)} {v : Value}
    (h : reader.run ending (.ok .start) ts = .ok v) :
    ∃ written, Derives (ts.map Token.symbol) written ∧ v = written.joined := by
  refine inv_root_of_run (fun taken s => s.ReadFrom (taken.map Token.symbol)) ?_ rfl h
  intro t _ taken tags s htags hmoves
  rw [List.map_append, List.map_singleton]
  exact hmoves.readFrom (readFrom_before.mp htags)

theorem exists_derives_of_parse {source : String} {v : Value} (h : parse source = .ok v) :
    ∃ tokens position written,
      tokenize source = .ok (tokens ++ [(⟨.eof, position⟩ : Token Symbol)]) ∧
      Derives (tokens.map Token.symbol) written ∧ v = written.joined := by
  obtain ⟨tokens, position, htokens, hrun⟩ := reader.read_eq_ok_iff.mp h
  obtain ⟨written, hderives, hjoined⟩ := exists_derives_of_run hrun
  exact ⟨tokens, position, written, htokens, hderives, hjoined⟩

end Dialects.Markup
