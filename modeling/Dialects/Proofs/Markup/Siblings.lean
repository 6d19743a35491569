import Dialects.Proofs.Markup.Grammar
import Dialects.Proofs.Markup.Joined

/-!
# Sibling tags of one name

A tag of what is read stands for all tags of its name in one tag of the text. Each of these brings
at most one child tag of a name along, but their children are not joined with one another.
-/

namespace Dialects.Markup

namespace Value

/-! ## Values in values -/

def children : Value → List Value
  | tagged _ children => children
  | _ => []

/-- A value and all values in it. -/
def subvalues : Value → List Value :=
  fold (fun v => [v]) fun name children parts => tagged name children :: parts.flatten

theorem subvalues_tagged (name : String) (children : List Value) :
    (tagged name children).subvalues = tagged name children :: children.flatMap subvalues :=
  fold_tagged _ _ name children

theorem subvalues_leaf {v : Value} (hv : v.isTag = false) : v.subvalues = [v] := fold_leaf _ _ hv

theorem mem_subvalues_self (v : Value) : v ∈ v.subvalues := by
  cases v with
  | tagged name children => simp [subvalues_tagged]
  | _ => exact List.mem_singleton_self _

theorem mem_subvalues_of_mem {name : String} {children : List Value} {v w : Value}
    (hv : v ∈ children) (hw : w ∈ v.subvalues) : w ∈ (tagged name children).subvalues := by
  rw [subvalues_tagged]
  exact List.mem_cons_of_mem _ (List.mem_flatMap.mpr ⟨v, hv, hw⟩)

/-! ## Tags of one name -/

def isNamed (n : String) : Value → Bool
  | tagged m _ => m == n
  | _ => false

/-- The children of a tag of some name. -/
def childrenUnder (n : String) (v : Value) : List Value := if v.isNamed n then v.children else []

theorem isGathering_childrenUnder (n : String) : IsGathering (childrenUnder n) where
  join m as bs := by
    by_cases hm : m = n <;> simp [childrenUnder, isNamed, children, hm]
  one m bs := by
    by_cases hm : m = n
    · refine .inr fun w hw => ?_
      cases w with
      | tagged k cs =>
        refine if_neg fun hk => hw ?_
        obtain rfl : k = n := by simpa [isNamed] using hk
        simp [hm]
      | _ => rfl
    · exact .inl (if_neg (by simpa [isNamed] using hm))

theorem flatMap_childrenUnder_of_notMem {n : String} {ws : List Value} (h : n ∉ tagNames ws) :
    ws.flatMap (childrenUnder n) = [] := by
  refine List.flatMap_eq_nil_iff.mpr fun w hw => if_neg fun hn => h ?_
  cases w with
  | tagged m cs =>
    obtain rfl : m = n := by simpa [isNamed] using hn
    exact mem_tagNames.mpr ⟨cs, hw⟩
  | _ => simp [isNamed] at hn

theorem flatMap_childrenUnder_of_mem {n : String} {cs ws : List Value} (h : (tagNames ws).Nodup)
    (hmem : tagged n cs ∈ ws) : ws.flatMap (childrenUnder n) = cs := by
  obtain ⟨before, after, rfl⟩ := List.append_of_mem hmem
  rw [tagNames_append, tagNames_tagged] at h
  obtain ⟨hbefore, hafter⟩ : n ∉ tagNames before ∧ n ∉ tagNames after := by
    have hmiddle := List.nodup_middle.mp h
    simpa using (List.nodup_cons.mp hmiddle).1
  rw [List.flatMap_append, List.flatMap_cons, flatMap_childrenUnder_of_notMem hbefore,
    flatMap_childrenUnder_of_notMem hafter]
  simp [childrenUnder, isNamed, children]

theorem children_of_mem_addAll {n : String} {cs vs : List Value}
    (h : tagged n cs ∈ addAll vs []) : cs = vs.flatMap (childrenUnder n) := by
  have hnil : (tagNames []).Nodup := List.nodup_nil
  rw [← flatMap_childrenUnder_of_mem (nodup_tagNames_addAll vs hnil) h,
    (isGathering_childrenUnder n).flatMap_addAll vs hnil, List.flatMap_nil, List.nil_append]

theorem isNamed_joined (n : String) (v : Value) : v.joined.isNamed n = v.isNamed n := by
  cases v with
  | tagged name children => rw [joined_tagged_eq]; rfl
  | _ => rfl

theorem flatMap_childrenUnder_joined (n : String) (vs : List Value) :
    (vs.map joined).flatMap (childrenUnder n) =
      (vs.filter (isNamed n)).flatMap fun v => v.joined.children := by
  induction vs with
  | nil => rfl
  | cons v vs ih =>
    rw [List.map_cons, List.flatMap_cons, ih, List.filter_cons, childrenUnder, isNamed_joined]
    split_ifs <;> rfl

/-! ## What tags stand for -/

/-- Whether a tag stands for some tags of a tree: the root for itself, any other for all tags of its
name in one tag. -/
inductive StandsFor (written : Value) (name : String) : List Value → Prop
  | root (children : List Value) (h : written = tagged name children) : StandsFor written name [written]
  | siblings (outer : String) (children : List Value) (h : tagged outer children ∈ written.subvalues)
    (hname : name ∈ tagNames children) : StandsFor written name (children.filter (isNamed name))

theorem StandsFor.ne_nil {written : Value} {name : String} {sources : List Value}
    (h : StandsFor written name sources) : sources ≠ [] := by
  cases h with
  | root children h => simp
  | siblings outer children h hname =>
    obtain ⟨cs, hcs⟩ := mem_tagNames.mp hname
    exact List.ne_nil_of_mem (List.mem_filter.mpr ⟨hcs, by simp [isNamed]⟩)

theorem exists_siblings_of_mem (written : Value) {name : String} {cs : List Value}
    (h : ∃ c ∈ written.joined.children, tagged name cs ∈ c.subvalues) :
    ∃ outer siblings, tagged outer siblings ∈ written.subvalues ∧ name ∈ tagNames siblings ∧
      cs = (siblings.filter (isNamed name)).flatMap fun v => v.joined.children := by
  induction written using Value.induction with
  | leaf v hv =>
    rw [joined, fold_leaf _ _ hv] at h
    cases v <;> simp_all [children, isTag]
  | tagged outer siblings ih =>
    obtain ⟨c, hc, hmem⟩ := h
    rw [joined_tagged_eq] at hc
    cases c with
    | tagged n ds =>
      have hds := (children_of_mem_addAll hc).trans (flatMap_childrenUnder_joined n siblings)
      rw [subvalues_tagged] at hmem
      rcases List.mem_cons.mp hmem with heq | hmem
      · obtain ⟨rfl, rfl⟩ : name = n ∧ cs = ds := by simpa using heq
        refine ⟨outer, siblings, mem_subvalues_self _, ?_, hds⟩
        have hname := mem_tagNames_addAll.mp (mem_tagNames.mpr ⟨cs, hc⟩)
        obtain ⟨bs, hbs⟩ := mem_tagNames.mp (hname.resolve_left (by simp))
        obtain ⟨v, hv, heq⟩ := List.mem_map.mp hbs
        have hnamed : v.isNamed name := by rw [← isNamed_joined, heq]; simp [isNamed]
        cases v with
        | tagged m as =>
          obtain rfl : m = name := by simpa [isNamed] using hnamed
          exact mem_tagNames.mpr ⟨as, hv⟩
        | _ => simp [isNamed] at hnamed
      · -- A tag below has come along with one of the joined tags, where it was already made.
        obtain ⟨d, hd, hmem⟩ := List.mem_flatMap.mp hmem
        rw [hds] at hd
        obtain ⟨s, hs, hd⟩ := List.mem_flatMap.mp hd
        have hs := (List.mem_filter.mp hs).1
        obtain ⟨outer', siblings', hsub, hname, hcs⟩ := ih s hs ⟨d, hd, hmem⟩
        exact ⟨outer', siblings', mem_subvalues_of_mem hs hsub, hname, hcs⟩
    | _ =>
      rw [subvalues_leaf rfl] at hmem
      simp at hmem

theorem exists_sources_of_mem (written : Value) {name : String} {cs : List Value}
    (h : tagged name cs ∈ written.joined.subvalues) : ∃ sources, StandsFor written name sources ∧
      cs = sources.flatMap fun v => v.joined.children := by
  cases written with
  | tagged outer children =>
    have hname := joined_tagged_eq outer children
    rw [hname, subvalues_tagged] at h
    rcases List.mem_cons.mp h with heq | h
    · obtain ⟨rfl, rfl⟩ := by simpa using heq
      refine ⟨_, .root children rfl, ?_⟩
      rw [List.flatMap_singleton, hname]
      rfl
    · obtain ⟨c, hc, hmem⟩ := List.mem_flatMap.mp h
      obtain ⟨outer', siblings, hsub, hn, hcs⟩ :=
        exists_siblings_of_mem (tagged outer children) ⟨c, by rwa [hname], hmem⟩
      exact ⟨_, .siblings outer' siblings hsub hn, hcs⟩
  | _ =>
    rw [joined, fold_leaf _ _ rfl, subvalues_leaf rfl] at h
    simp at h

/-! ## Names under a joined tag -/

theorem namesDistinct_joined (v : Value) : v.joined.NamesDistinct := by
  cases v with
  | tagged name children =>
    rw [joined_tagged_eq]
    exact nodup_tagNames_addAll _ List.nodup_nil
  | _ => trivial

theorem nodup_tagNames_children {v : Value} (h : v.NamesDistinct) : (tagNames v.children).Nodup := by
  cases v with
  | tagged name children => exact h
  | _ => exact List.nodup_nil

theorem tagNames_flatMap {α : Type} (f : α → List Value) (xs : List α) :
    tagNames (xs.flatMap f) = xs.flatMap fun x => tagNames (f x) := by
  induction xs with
  | nil => rfl
  | cons x xs ih => rw [List.flatMap_cons, tagNames_append, ih, List.flatMap_cons]

theorem count_tagNames_flatMap_le (n : String) (sources : List Value) :
    (tagNames (sources.flatMap fun v => v.joined.children)).count n ≤ sources.length := by
  rw [tagNames_flatMap, List.count_flatMap]
  have hone : ∀ k ∈ sources.map (List.count n ∘ fun v => tagNames v.joined.children), k ≤ 1 := by
    refine List.forall_mem_map.mpr fun v _ => ?_
    exact List.nodup_iff_count_le_one.mp (nodup_tagNames_children (namesDistinct_joined v)) n
  simpa using List.sum_le_card_nsmul _ 1 hone

end Value

/-- Two tags of one name are joined, but not the child tags of one name that they bring along. -/
theorem not_namesDistinct_of_joined_tags :
    ∃ v, parse "<r><a><b>1</b></a><a><b>2</b></a></r>" = .ok v ∧
      ¬v.Everywhere Value.NamesDistinct := by
  refine ⟨.tagged "r" [.tagged "a" [.tagged "b" [.number 1], .tagged "b" [.number 2]]], rfl, ?_⟩
  intro h
  have hinner := (Value.everywhere_tagged.mp h).2 _ (List.mem_singleton_self _)
  have hdistinct : ["b", "b"].Nodup := (Value.everywhere_tagged.mp hinner).1
  simp at hdistinct

/-- A tag of what is read stands for tags of the text of which each brings at most one child tag of
a name, so that a name comes up no more often among its children than there are such tags. -/
theorem exists_sources_of_parse {source : String} {v : Value} (h : parse source = .ok v) :
    ∃ tokens position written,
      tokenize source = .ok (tokens ++ [(⟨.eof, position⟩ : Token Symbol)]) ∧
      Derives (tokens.map Token.symbol) written ∧
      ∀ name children, .tagged name children ∈ v.subvalues →
        ∃ sources, written.StandsFor name sources ∧ sources ≠ [] ∧
          children = (sources.flatMap fun s => s.joined.children) ∧
          (∀ s ∈ sources, s.joined.NamesDistinct) ∧
          ∀ n, (Value.tagNames children).count n ≤ sources.length := by
  obtain ⟨tokens, position, written, htokens, hderives, rfl⟩ := exists_derives_of_parse h
  refine ⟨tokens, position, written, htokens, hderives, fun name children hmem => ?_⟩
  obtain ⟨sources, hsources, rfl⟩ := Value.exists_sources_of_mem written hmem
  exact ⟨sources, hsources, hsources.ne_nil, rfl, fun s _ => s.namesDistinct_joined,
    fun n => Value.count_tagNames_flatMap_le n sources⟩

theorem exists_sources_of_parse_joined_tags :
    parse "<r><a><b>1</b></a><a><b>2</b></a></r>" =
        .ok (.tagged "r" [.tagged "a" [.tagged "b" [.number 1], .tagged "b" [.number 2]]]) ∧
      ∃ tokens position written sources,
        tokenize "<r><a><b>1</b></a><a><b>2</b></a></r>" =
          .ok (tokens ++ [(⟨.eof, position⟩ : Token Symbol)]) ∧
        Derives (tokens.map Token.symbol) written ∧ written.StandsFor "a" sources ∧
        2 ≤ sources.length := by
  have hparse : parse "<r><a><b>1</b></a><a><b>2</b></a></r>" =
      .ok (.tagged "r" [.tagged "a" [.tagged "b" [.number 1], .tagged "b" [.number 2]]]) := rfl
  obtain ⟨tokens, position, written, htokens, hderives, hsources⟩ := exists_sources_of_parse hparse
  have hmem : Value.tagged "a" [.tagged "b" [.number 1], .tagged "b" [.number 2]] ∈
      (Value.tagged "r" [.tagged "a" [.tagged "b" [.number 1], .tagged "b" [.number 2]]]).subvalues :=
    Value.mem_subvalues_of_mem (List.mem_singleton_self _) (Value.mem_subvalues_self _)
  obtain ⟨sources, hstands, -, -, -, hcount⟩ := hsources "a" _ hmem
  exact ⟨hparse, tokens, position, written, sources, htokens, hderives, hstands, hcount "b"⟩

end Dialects.Markup
