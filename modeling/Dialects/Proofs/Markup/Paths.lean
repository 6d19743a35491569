import Dialects.Proofs.Markup.Grammar
import Dialects.Proofs.Markup.Joined

/-!
# Paths of tags

A path is the names of open tags, from the outside in. Joining tags moves what is in them, but the
leaves at each path stay the same and in order, and so do the paths that lead to a tag.
-/

namespace Dialects.Markup

/-! ## Paths in a tree -/

namespace Value

/-- The leaves with just the tags of a path around them. -/
def leavesAt : List String → Value → List Value
  | [], tagged _ _ => []
  | [], v => [v]
  | n :: path, tagged name children => if n = name then children.flatMap (leavesAt path) else []
  | _ :: _, _ => []

/-- Whether a path leads to a tag, whose own name is the last of it. -/
def HasTagAt : List String → Value → Prop
  | n :: path, tagged name children => n = name ∧ (path = [] ∨ ∃ v ∈ children, HasTagAt path v)
  | _, _ => False

theorem leavesAt_leaf {v : Value} (hv : v.isTag = false) (path : List String) :
    v.leavesAt path = if path = [] then [v] else [] := by
  cases v with
  | tagged name children => simp [isTag] at hv
  | _ => cases path <;> rfl

theorem not_hasTagAt_leaf {v : Value} (hv : v.isTag = false) (path : List String) :
    ¬v.HasTagAt path := by
  cases v with
  | tagged name children => simp [isTag] at hv
  | _ => cases path <;> exact not_false

/-! ## Joining keeps them -/

theorem isGathering_leavesAt (path : List String) : IsGathering (leavesAt path) where
  join n as bs := by
    cases path with
    | nil => rfl
    | cons m path =>
      simp only [leavesAt, List.flatMap_append]
      split_ifs <;> simp
  one n bs := by
    cases path with
    | nil => exact .inl rfl
    | cons m path =>
      by_cases hm : m = n
      · refine .inr fun w hw => ?_
        cases w with
        | tagged k cs => exact if_neg fun hk => hw (by simp [← hm, hk])
        | _ => rfl
      · exact .inl (if_neg hm)

theorem hasTagAt_append {path : List String} {n : String} {as bs : List Value} :
    (tagged n (as ++ bs)).HasTagAt path ↔
      (tagged n as).HasTagAt path ∨ (tagged n bs).HasTagAt path := by
  cases path with
  | nil => simp [HasTagAt]
  | cons m path =>
    simp only [HasTagAt, List.mem_append, or_and_right, exists_or, ← and_or_left]
    rw [or_or_distrib_left]

theorem exists_hasTagAt_addTo {path : List String} {v : Value} {ws : List Value} :
    (∃ w ∈ v.addTo ws, w.HasTagAt path) ↔ (∃ w ∈ ws, w.HasTagAt path) ∨ v.HasTagAt path := by
  obtain ⟨happend, -⟩ | ⟨n, before, as, after, bs, rfl, rfl, hadd⟩ := addTo_eq v ws
  · rw [happend]
    simp [or_and_right, exists_or]
  · rw [hadd]
    simp only [List.mem_append, List.mem_cons, or_and_right, exists_or, exists_eq_left,
      hasTagAt_append, or_assoc]
    rw [or_comm (a := (tagged n bs).HasTagAt path)]

theorem exists_hasTagAt_addAll {path : List String} {vs ws : List Value} :
    (∃ w ∈ addAll vs ws, w.HasTagAt path) ↔
      (∃ w ∈ ws, w.HasTagAt path) ∨ ∃ w ∈ vs, w.HasTagAt path := by
  induction vs generalizing ws with
  | nil => simp [addAll]
  | cons v vs ih =>
    rw [show addAll (v :: vs) ws = addAll vs (v.addTo ws) from rfl, ih, exists_hasTagAt_addTo]
    simp [or_assoc]

theorem leavesAt_joined (v : Value) (path : List String) :
    v.joined.leavesAt path = v.leavesAt path := by
  induction v using Value.induction generalizing path with
  | leaf v hv => rw [joined, fold_leaf _ _ hv, id_eq]
  | tagged name children ih =>
    rw [joined_tagged_eq]
    cases path with
    | nil => rfl
    | cons n path =>
      have hnil : (tagNames []).Nodup := List.nodup_nil
      have hadd := (isGathering_leavesAt path).flatMap_addAll (children.map joined) hnil
      have hchildren : (children.map joined).flatMap (leavesAt path) =
          children.flatMap (leavesAt path) := by
        rw [List.flatMap_map]
        exact List.flatMap_congr fun v hv => ih v hv path
      rw [leavesAt, leavesAt, hadd, hchildren, List.flatMap_nil, List.nil_append]

theorem hasTagAt_joined (v : Value) (path : List String) :
    v.joined.HasTagAt path ↔ v.HasTagAt path := by
  induction v using Value.induction generalizing path with
  | leaf v hv => rw [joined, fold_leaf _ _ hv, id_eq]
  | tagged name children ih =>
    rw [joined_tagged_eq]
    cases path with
    | nil => exact Iff.rfl
    | cons n path =>
      have hchildren : (∃ v ∈ children, v.joined.HasTagAt path) ↔
          ∃ v ∈ children, v.HasTagAt path :=
        exists_congr fun v => and_congr_right fun hv => ih v hv path
      rw [HasTagAt, HasTagAt, exists_hasTagAt_addAll, ← hchildren]
      simp

end Value

/-! ## Paths in a text -/

/-- The open tags behind a symbol, given those in front of it. -/
def Symbol.openBehind (tags : List String) : Symbol → List String
  | openTag name => tags ++ [name]
  | closeTag _ => tags.dropLast
  | _ => tags

/-- Each symbol with the open tags in front of it. -/
def withOpenTags (tags : List String) : List Symbol → List (List String × Symbol)
  | [] => []
  | s :: ss => (tags, s) :: withOpenTags (s.openBehind tags) ss

/-- The leaves among some symbols that have just the tags of a path around them. -/
def leavesAmong (path : List String) (placed : List (List String × Symbol)) : List Value :=
  (placed.filter (·.1 = path)).filterMap (·.2.leaf?)

/-- Whether a tag is opened among some symbols so that just the tags of a path are open. -/
def OpensAt (path : List String) (placed : List (List String × Symbol)) : Prop :=
  ∃ outer name, (outer, .openTag name) ∈ placed ∧ path = outer ++ [name]

def openBehindAll (tags : List String) (ss : List Symbol) : List String :=
  ss.foldl (fun tags s => s.openBehind tags) tags

theorem withOpenTags_append (tags : List String) (ss rs : List Symbol) :
    withOpenTags tags (ss ++ rs) =
      withOpenTags tags ss ++ withOpenTags (openBehindAll tags ss) rs := by
  induction ss generalizing tags with
  | nil => rfl
  | cons s ss ih => exact congrArg _ (ih _)

theorem withOpenTags_flatten {parts : List (List Symbol)} {tags : List String}
    (h : ∀ part ∈ parts, openBehindAll tags part = tags) :
    withOpenTags tags parts.flatten = parts.flatMap (withOpenTags tags) ∧
      openBehindAll tags parts.flatten = tags := by
  induction parts with
  | nil => exact ⟨rfl, rfl⟩
  | cons part parts ih =>
    obtain ⟨hplaced, hbehind⟩ := ih fun p hp => h p (by simp [hp])
    rw [List.flatten_cons, withOpenTags_append, h part (by simp), hplaced]
    refine ⟨rfl, ?_⟩
    have hpart : part.foldl (fun tags s => s.openBehind tags) tags = tags := h part (by simp)
    rw [openBehindAll, List.foldl_append, hpart]
    exact hbehind

theorem openBehind_of_leaf? {s : Symbol} {v : Value} (h : s.leaf? = some v) (tags : List String) :
    s.openBehind tags = tags := by
  cases s <;> simp_all [Symbol.leaf?, Symbol.openBehind]

theorem Derives.openBehindAll_eq {ss : List Symbol} {v : Value} (h : Derives ss v)
    (tags : List String) : openBehindAll tags ss = tags := by
  induction h generalizing tags with
  | leaf h => exact openBehind_of_leaf? h tags
  | tagged name children h ih =>
    have hinner := (withOpenTags_flatten
      (List.forall_mem_map.mpr fun c hc => ih c hc (tags ++ [name]))).2
    simp only [openBehindAll, List.foldl_cons, List.foldl_append, List.foldl_nil,
      Symbol.openBehind] at hinner ⊢
    rw [hinner, List.dropLast_concat]

theorem withOpenTags_tagged {name : String} {children : List (List Symbol × Value)}
    (h : ∀ c ∈ children, Derives c.1 c.2) (tags : List String) :
    withOpenTags tags (.openTag name :: ((children.map Prod.fst).flatten ++ [.closeTag name])) =
      (tags, .openTag name) ::
        (children.flatMap (fun c => withOpenTags (tags ++ [name]) c.1) ++
          [(tags ++ [name], .closeTag name)]) := by
  obtain ⟨hplaced, hbehind⟩ := withOpenTags_flatten
    (List.forall_mem_map.mpr fun c hc => (h c hc).openBehindAll_eq (tags ++ [name]))
  rw [withOpenTags, Symbol.openBehind, withOpenTags_append, hplaced, hbehind, List.flatMap_map]
  rfl

theorem Derives.prefix_of_mem {ss : List Symbol} {v : Value} (h : Derives ss v)
    (tags : List String) : ∀ p ∈ withOpenTags tags ss, tags <+: p.1 := by
  induction h generalizing tags with
  | leaf h => simp [withOpenTags]
  | tagged name children h ih =>
    intro p hp
    have hinner : tags <+: tags ++ [name] := List.prefix_append _ _
    rw [withOpenTags_tagged h] at hp
    rcases List.mem_cons.mp hp with rfl | hp
    · exact List.prefix_rfl
    · rcases List.mem_append.mp hp with hp | hp
      · obtain ⟨c, hc, hp⟩ := List.mem_flatMap.mp hp
        exact hinner.trans (ih c hc _ p hp)
      · obtain rfl := List.mem_singleton.mp hp
        exact hinner

/-! ## The paths of a text are those of its tree -/

theorem leavesAmong_append (path : List String) (ps qs : List (List String × Symbol)) :
    leavesAmong path (ps ++ qs) = leavesAmong path ps ++ leavesAmong path qs := by
  simp [leavesAmong]

theorem leavesAmong_flatMap {α : Type} (path : List String) (f : α → List (List String × Symbol))
    (xs : List α) : leavesAmong path (xs.flatMap f) = xs.flatMap fun x => leavesAmong path (f x) := by
  induction xs with
  | nil => rfl
  | cons x xs ih => rw [List.flatMap_cons, leavesAmong_append, ih, List.flatMap_cons]

theorem leavesAmong_eq_nil {path : List String} {ps : List (List String × Symbol)}
    (h : ∀ p ∈ ps, p.1 ≠ path) : leavesAmong path ps = [] := by
  rw [leavesAmong, List.filter_eq_nil_iff.mpr fun p hp => by simpa using h p hp, List.filterMap_nil]

theorem leavesAmong_singleton {s : Symbol} (hs : s.leaf? = none) (path tags : List String) :
    leavesAmong path [(tags, s)] = [] := by
  unfold leavesAmong
  by_cases htags : tags = path <;> simp [htags, hs]

theorem Derives.leavesAmong_eq {ss : List Symbol} {v : Value} (h : Derives ss v)
    (tags path : List String) :
    leavesAmong (tags ++ path) (withOpenTags tags ss) = v.leavesAt path := by
  induction h generalizing tags path with
  | @leaf s v h =>
    rw [Value.leavesAt_leaf (isTag_of_leaf? h), withOpenTags, withOpenTags, leavesAmong,
      List.filter_singleton]
    by_cases hpath : path = [] <;> simp [hpath, h]
  | tagged name children h ih =>
    rw [withOpenTags_tagged h, ← List.singleton_append, leavesAmong_append, leavesAmong_append,
      leavesAmong_singleton rfl, leavesAmong_singleton rfl, List.append_nil, List.nil_append,
      leavesAmong_flatMap]
    by_cases hpath : ∃ rest, path = name :: rest
    · obtain ⟨rest, rfl⟩ := hpath
      rw [Value.leavesAt, if_pos rfl, List.flatMap_map]
      refine List.flatMap_congr fun c hc => ?_
      have := ih c hc (tags ++ [name]) rest
      rwa [List.append_assoc, List.singleton_append] at this
    · -- Everything inside the tag has its name on the path.
      have hother : ∀ c ∈ children, ∀ p ∈ withOpenTags (tags ++ [name]) c.1, p.1 ≠ tags ++ path := by
        rintro c hc p hp heq
        obtain ⟨rest, hrest⟩ := (h c hc).prefix_of_mem _ p hp
        rw [heq, List.append_assoc, List.append_cancel_left_eq] at hrest
        exact hpath ⟨rest, hrest.symm⟩
      rw [List.flatMap_eq_nil_iff.mpr fun c hc => leavesAmong_eq_nil (hother c hc)]
      cases path with
      | nil => rfl
      | cons n path => rw [Value.leavesAt, if_neg fun hn => hpath ⟨path, by rw [hn]⟩]

theorem Derives.opensAt_iff {ss : List Symbol} {v : Value} (h : Derives ss v)
    (tags path : List String) : OpensAt (tags ++ path) (withOpenTags tags ss) ↔ v.HasTagAt path := by
  induction h generalizing tags path with
  | @leaf s v h =>
    have hs (name : String) : s ≠ .openTag name := by
      rintro rfl
      simp [Symbol.leaf?] at h
    simp [OpensAt, withOpenTags, Value.not_hasTagAt_leaf (isTag_of_leaf? h), (hs _).symm]
  | tagged name children h ih =>
    have hchildren (rest : List String) :
        (∃ c ∈ children, OpensAt (tags ++ name :: rest) (withOpenTags (tags ++ [name]) c.1)) ↔
          ∃ v ∈ children.map Prod.snd, v.HasTagAt rest := by
      simp only [List.mem_map, exists_exists_and_eq_and]
      refine exists_congr fun c => and_congr_right fun hc => ?_
      rw [← ih c hc (tags ++ [name]) rest, List.append_assoc, List.singleton_append]
    rw [withOpenTags_tagged h]
    constructor
    · rintro ⟨outer, n, hmem, heq⟩
      rcases List.mem_cons.mp hmem with hfirst | hmem
      · obtain ⟨rfl, rfl⟩ : outer = tags ∧ n = name := by simpa using hfirst
        obtain rfl := List.append_cancel_left heq
        exact ⟨rfl, .inl rfl⟩
      · have hinner : (outer, .openTag n) ∈
            children.flatMap fun c => withOpenTags (tags ++ [name]) c.1 :=
          (List.mem_append.mp hmem).resolve_right (by simp)
        -- A tag that opens inside is in one of the children.
        obtain ⟨c, hc, hmem⟩ := List.mem_flatMap.mp hinner
        obtain ⟨rest, rfl⟩ := (h c hc).prefix_of_mem _ _ hmem
        obtain rfl : path = name :: (rest ++ [n]) := by simpa using heq
        exact ⟨rfl, .inr ((hchildren _).mp ⟨c, hc, _, n, hmem, heq⟩)⟩
    · intro hpath
      cases path with
      | nil => exact absurd hpath not_false
      | cons n path =>
        obtain ⟨rfl, rfl | hinner⟩ := hpath
        · exact ⟨tags, n, by simp, rfl⟩
        · obtain ⟨c, hc, outer, m, hmem, heq⟩ := (hchildren path).mpr hinner
          have hinner : (outer, .openTag m) ∈
              children.flatMap fun c => withOpenTags (tags ++ [n]) c.1 :=
            List.mem_flatMap.mpr ⟨c, hc, hmem⟩
          exact ⟨outer, m, List.mem_cons_of_mem _ (List.mem_append_left _ hinner), heq⟩

/-- Along each path the leaves of what is read are those of the text, in the same order, and the
paths that lead to a tag are those along which the text opens one. -/
theorem leavesAt_of_parse {source : String} {v : Value} (h : parse source = .ok v)
    (path : List String) : ∃ tokens : List (Token Symbol), tokenize source = .ok tokens ∧
      v.leavesAt path = leavesAmong path (withOpenTags [] (tokens.map Token.symbol)) ∧
      (v.HasTagAt path ↔ OpensAt path (withOpenTags [] (tokens.map Token.symbol))) := by
  obtain ⟨tokens, position, written, htokens, hderives, rfl⟩ := exists_derives_of_parse h
  refine ⟨_, htokens, ?_, ?_⟩
  · rw [List.map_append, List.map_singleton, withOpenTags_append, leavesAmong_append,
      withOpenTags, withOpenTags, leavesAmong_singleton rfl, List.append_nil]
    exact (Value.leavesAt_joined written path).trans (hderives.leavesAmong_eq [] path).symm
  · rw [Value.hasTagAt_joined, ← hderives.opensAt_iff [] path, List.map_append, withOpenTags_append]
    simp [OpensAt, withOpenTags]

theorem leavesAt_of_parse_joined_tags :
    parse "<r>0<a>1<x>2</x></a><b>t</b><a>3<x>4</x></a></r>" =
        .ok (.tagged "r" [.number 0, .tagged "a" [.number 1, .tagged "x" [.number 2], .number 3,
          .tagged "x" [.number 4]], .tagged "b" [.string "t"]]) ∧
      ∃ tokens : List (Token Symbol),
        tokenize "<r>0<a>1<x>2</x></a><b>t</b><a>3<x>4</x></a></r>" = .ok tokens ∧
        [.number 2, .number 4] =
          leavesAmong ["r", "a", "x"] (withOpenTags [] (tokens.map Token.symbol)) ∧
        OpensAt ["r", "a", "x"] (withOpenTags [] (tokens.map Token.symbol)) := by
  have hparse : parse "<r>0<a>1<x>2</x></a><b>t</b><a>3<x>4</x></a></r>" =
      .ok (.tagged "r" [.number 0, .tagged "a" [.number 1, .tagged "x" [.number 2], .number 3,
        .tagged "x" [.number 4]], .tagged "b" [.string "t"]]) := rfl
  obtain ⟨tokens, htokens, hleaves, htags⟩ := leavesAt_of_parse hparse ["r", "a", "x"]
  refine ⟨hparse, tokens, htokens, ?_, ?_⟩
  · rw [← hleaves]
    rfl
  · refine htags.mp ?_
    simp [Value.HasTagAt]

end Dialects.Markup
