import Dialects.Proofs.Markup.Siblings

/-!
# Values added one by one

A tag is built by adding values to an empty one. Its children are the leaves and the first tag of each
name, in the order in which they were added. A child tag holds the children of all added tags of its name.
-/

namespace Dialects.Markup

theorem eraseDupsBy_concat {α : Type} (r : α → α → Bool) (as : List α) (a : α) :
    (as ++ [a]).eraseDupsBy r =
      if (as.eraseDupsBy r).any (r a) then as.eraseDupsBy r else as.eraseDupsBy r ++ [a] := by
  -- The loop carries along what it has kept, in reverse.
  have hloop (bs : List α) : List.eraseDupsBy.loop r (as ++ [a]) bs =
      if (List.eraseDupsBy.loop r as bs).any (r a) then List.eraseDupsBy.loop r as bs
      else List.eraseDupsBy.loop r as bs ++ [a] := by
    induction as generalizing bs with
    | nil =>
      simp only [List.nil_append, List.eraseDupsBy.loop, List.any_reverse]
      cases bs.any (r a) <;> simp
    | cons b as ih =>
      rw [List.cons_append, List.eraseDupsBy.loop, List.eraseDupsBy.loop]
      obtain hseen | hseen := Bool.eq_false_or_eq_true (bs.any (r b)) <;>
        simp only [hseen] <;> exact ih _
  exact hloop []

namespace Value

/-! ## Tags of one name -/

/-- A value, but for what is in it. -/
def outline : Value → Value
  | tagged n _ => tagged n []
  | v => v

/-- Whether two values are tags of one name. -/
def isNamesake : Value → Value → Bool
  | tagged m _, tagged n _ => m == n
  | _, _ => false

@[simp] theorem isNamesake_outline (v w : Value) : v.isNamesake w.outline = v.isNamesake w := by
  cases v <;> cases w <;> rfl

theorem any_isNamesake_map_outline (v : Value) (ws : List Value) :
    (ws.map outline).any v.isNamesake = ws.any v.isNamesake := by
  rw [List.any_map]
  exact congrArg ws.any (funext v.isNamesake_outline)

@[simp] theorem tagNames_map_outline (ws : List Value) : tagNames (ws.map outline) = tagNames ws := by
  induction ws with
  | nil => rfl
  | cons w ws ih =>
    rw [List.map_cons, tagNames_cons, ih, tagNames_cons w ws]
    cases w <;> rfl

theorem any_isNamesake_leaf {v : Value} (hv : v.isTag = false) (ws : List Value) :
    ws.any v.isNamesake = false := by
  cases v with
  | tagged n bs => simp [isTag] at hv
  | _ => simp [isNamesake]

theorem any_isNamesake_tagged (n : String) (bs ws : List Value) :
    ws.any (tagged n bs).isNamesake = decide (n ∈ tagNames ws) := by
  induction ws with
  | nil => rfl
  | cons w ws ih =>
    rw [List.any_cons, ih]
    cases w with
    | tagged m cs => simp [isNamesake, tagNames_tagged, Bool.beq_eq_decide_eq]
    | _ => rfl

/-! ## Adding one value -/

theorem map_outline_addTo (v : Value) (ws : List Value) :
    (v.addTo ws).map outline =
      if ws.any v.isNamesake then ws.map outline else ws.map outline ++ [v.outline] := by
  obtain ⟨happend, hnames⟩ | ⟨n, before, as, after, bs, rfl, rfl, hadd⟩ := addTo_eq v ws
  · have hnone : ws.any v.isNamesake = false := by
      cases hv : v.isTag with
      | false => exact any_isNamesake_leaf hv ws
      | true =>
        cases v with
        | tagged n bs => simpa [any_isNamesake_tagged] using hnames
        | _ => simp [isTag] at hv
    rw [happend, hnone, List.map_append]
    rfl
  · rw [hadd, any_isNamesake_tagged]
    simp [tagNames_append, outline]

/-! ## Adding many values -/

theorem addAll_concat (vs : List Value) (v : Value) (ws : List Value) :
    addAll (vs ++ [v]) ws = v.addTo (addAll vs ws) := by
  rw [addAll, List.foldl_append]
  rfl

theorem map_outline_addAll (vs : List Value) :
    (addAll vs []).map outline = (vs.eraseDupsBy isNamesake).map outline := by
  induction vs using List.reverseRecOn with
  | nil => rfl
  | append_singleton vs v ih =>
    rw [addAll_concat, map_outline_addTo, eraseDupsBy_concat, ← any_isNamesake_map_outline, ih,
      any_isNamesake_map_outline]
    split_ifs
    · rfl
    · rw [List.map_append]
      rfl

theorem tagNames_eraseDupsBy (vs : List Value) :
    tagNames (vs.eraseDupsBy isNamesake) = (tagNames vs).eraseDups := by
  induction vs using List.reverseRecOn with
  | nil => rfl
  | append_singleton vs v ih =>
    rw [eraseDupsBy_concat, tagNames_append]
    cases hv : v.isTag with
    | false => simp [any_isNamesake_leaf hv, tagNames_append, tagNames_leaf hv, ih]
    | true =>
      cases v with
      | tagged n bs =>
        rw [any_isNamesake_tagged, ih, tagNames_tagged, tagNames_nil, List.eraseDups, List.eraseDups,
          eraseDupsBy_concat]
        have hany : ((tagNames vs).eraseDupsBy (· == ·)).any (n == ·) =
            decide (n ∈ (tagNames vs).eraseDupsBy (· == ·)) := by
          rw [List.any_beq, List.contains_eq_mem]
        rw [hany]
        split_ifs
        · exact ih
        · rw [tagNames_append, ih]
          rfl
      | _ => simp [isTag] at hv

end Value

open Value

/-- What a tag of some name is behind adding values to it one by one. -/
structure Tag.IsBuiltFrom (tag : Tag) (name : String) (vs : List Value) : Prop where
  name : tag.name = name
  distinct : (tagNames tag.children).Nodup
  /-- Names stand in the order in which they came up first. -/
  names : tagNames tag.children = (tagNames vs).eraseDups
  /-- All but the later tags of a name have stayed where they were among the others. -/
  outlines : tag.children.map outline = (vs.eraseDupsBy isNamesake).map outline
  /-- The children of all tags of a name are in one, as they came. -/
  child (n : String) :
    tag.child? n = if n ∈ tagNames vs then some ⟨n, vs.flatMap (childrenUnder n)⟩ else none

theorem child?_addAll (name n : String) (vs : List Value) : (⟨name, addAll vs []⟩ : Tag).child? n =
    if n ∈ tagNames vs then some ⟨n, vs.flatMap (childrenUnder n)⟩ else none := by
  have hnames : n ∈ tagNames (addAll vs []) ↔ n ∈ tagNames vs := by simp [mem_tagNames_addAll]
  rw [tagNames, List.mem_map] at hnames
  cases hfind : (⟨name, addAll vs []⟩ : Tag).child? n with
  | none =>
    have hnone : n ∉ tagNames vs := by
      intro hn
      obtain ⟨tag, htag, rfl⟩ := hnames.mpr hn
      simpa using List.find?_eq_none.mp hfind tag htag
    rw [if_neg hnone]
  | some tag =>
    have hmem := List.mem_of_find?_eq_some hfind
    obtain rfl : tag.name = n := by simpa using List.find?_some hfind
    obtain ⟨v, hv, htag⟩ := List.mem_filterMap.mp hmem
    have hchildren : tagged tag.name tag.children ∈ addAll vs [] := by
      cases v with
      | tagged m cs =>
        obtain rfl := Option.some.inj htag
        exact hv
      | _ => simp [asTag?] at htag
    rw [if_pos (hnames.mp ⟨tag, hmem, rfl⟩), ← children_of_mem_addAll hchildren]

/-- Adding values one by one, whichever, keeps each leaf and the first tag of each name in order, and puts
the children of all tags of a name into that one. -/
theorem isBuiltFrom_foldl_add (name : String) (vs : List Value) :
    (vs.foldl Tag.add (Tag.empty name)).IsBuiltFrom name vs := by
  rw [foldl_add_eq]
  have houtlines := map_outline_addAll vs
  refine ⟨rfl, nodup_tagNames_addAll vs List.nodup_nil, ?_, houtlines, fun n => child?_addAll name n vs⟩
  calc tagNames (addAll vs [])
      = tagNames ((addAll vs []).map outline) := (tagNames_map_outline _).symm
    _ = tagNames (vs.eraseDupsBy isNamesake) := by rw [houtlines, tagNames_map_outline]
    _ = (tagNames vs).eraseDups := tagNames_eraseDupsBy vs

end Dialects.Markup
