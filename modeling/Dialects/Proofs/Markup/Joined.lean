import Dialects.Proofs.Markup.Document

/-!
# Joined children

Joining values one after the other keeps the names of tags distinct, and keeps in order whatever is
gathered from the tags of one name.
-/

namespace Dialects.Markup.Value

/-! ## Names -/

theorem tagNames_append (vs ws : List Value) : tagNames (vs ++ ws) = tagNames vs ++ tagNames ws := by
  simp [tagNames]

theorem tagNames_cons (v : Value) (ws : List Value) :
    tagNames (v :: ws) = tagNames [v] ++ tagNames ws := tagNames_append [v] ws

@[simp] theorem tagNames_nil : tagNames [] = [] := rfl

@[simp] theorem tagNames_tagged (n : String) (bs ws : List Value) :
    tagNames (tagged n bs :: ws) = n :: tagNames ws := rfl

theorem tagNames_leaf {v : Value} (hv : v.isTag = false) : tagNames [v] = [] := by
  cases v with
  | tagged n bs => simp [isTag] at hv
  | _ => rfl

theorem nodup_tagNames_singleton (v : Value) : (tagNames [v]).Nodup := by
  cases hv : v.isTag with
  | false => simp [tagNames_leaf hv]
  | true => cases v <;> simp_all [isTag]

theorem mem_tagNames {n : String} {vs : List Value} :
    n ∈ tagNames vs ↔ ∃ bs, tagged n bs ∈ vs := by
  induction vs with
  | nil => simp
  | cons v vs ih =>
    rw [tagNames_cons, List.mem_append, ih]
    cases v <;> simp [tagNames, asTag?, exists_or, eq_comm]

theorem join?_eq_none_iff {v w : Value} :
    join? w v = none ↔ ∀ n ∈ tagNames [v], n ∉ tagNames [w] := by
  cases v <;> cases w <;> simp [join?, tagNames, asTag?, eq_comm]

theorem join?_eq_some {v w u : Value} (h : join? w v = some u) :
    ∃ n as bs, w = tagged n as ∧ v = tagged n bs ∧ u = tagged n (as ++ bs) := by
  cases w with
  | tagged m as =>
    cases v with
    | tagged n bs =>
      simp only [join?] at h
      split_ifs at h with hname
      exact ⟨m, as, bs, rfl, by rw [hname], (Option.some.inj h).symm⟩
    | _ => simp [join?] at h
  | _ => simp [join?] at h

/-! ## Adding one value -/

theorem addTo_eq (v : Value) (ws : List Value) :
    (v.addTo ws = ws ++ [v] ∧ ∀ n ∈ tagNames [v], n ∉ tagNames ws) ∨
      ∃ n before as after bs, v = tagged n bs ∧ ws = before ++ tagged n as :: after ∧
        v.addTo ws = before ++ tagged n (as ++ bs) :: after := by
  induction ws with
  | nil => exact .inl ⟨rfl, by simp [tagNames]⟩
  | cons w ws ih =>
    rw [addTo]
    cases hjoin : join? w v with
    | some u =>
      obtain ⟨n, as, bs, rfl, rfl, rfl⟩ := join?_eq_some hjoin
      exact .inr ⟨n, [], as, ws, bs, rfl, rfl, rfl⟩
    | none =>
      obtain ⟨happend, hnames⟩ | ⟨n, before, as, after, bs, rfl, rfl, hadd⟩ := ih
      · refine .inl ⟨congrArg (w :: ·) happend, fun n hn => ?_⟩
        rw [tagNames_cons, List.mem_append, not_or]
        exact ⟨join?_eq_none_iff.mp hjoin n hn, hnames n hn⟩
      · exact .inr ⟨n, w :: before, as, after, bs, rfl, rfl, congrArg (w :: ·) hadd⟩

theorem nodup_tagNames_addTo {ws : List Value} (h : (tagNames ws).Nodup) (v : Value) :
    (tagNames (v.addTo ws)).Nodup := by
  obtain ⟨happend, hnames⟩ | ⟨n, before, as, after, bs, rfl, rfl, hadd⟩ := addTo_eq v ws
  · rw [happend, tagNames_append]
    exact h.append (nodup_tagNames_singleton v) fun n hn hv => hnames n hv hn
  · rw [hadd]
    simpa [tagNames_append] using h

theorem mem_tagNames_addTo {n : String} {v : Value} {ws : List Value} :
    n ∈ tagNames (v.addTo ws) ↔ n ∈ tagNames ws ∨ n ∈ tagNames [v] := by
  obtain ⟨happend, -⟩ | ⟨m, before, as, after, bs, rfl, rfl, hadd⟩ := addTo_eq v ws
  · rw [happend, tagNames_append, List.mem_append]
  · rw [hadd]
    simp only [tagNames_append, tagNames_tagged, tagNames_nil, List.mem_append, List.mem_cons,
      List.not_mem_nil]
    tauto

theorem addTo_eq_append {v : Value} {ws : List Value} (h : (tagNames (ws ++ [v])).Nodup) :
    v.addTo ws = ws ++ [v] := by
  obtain ⟨happend, -⟩ | ⟨n, before, as, after, bs, rfl, rfl, -⟩ := addTo_eq v ws
  · exact happend
  · simp [tagNames_append, List.nodup_append] at h

/-! ## Gathering from the tags of one name -/

/-- Whether what is gathered from values comes from the tags of one name only, or from none, and
from a joined tag is what comes from both tags one after the other. -/
structure IsGathering {β : Type} (f : Value → List β) : Prop where
  join (n : String) (as bs : List Value) :
    f (tagged n (as ++ bs)) = f (tagged n as) ++ f (tagged n bs)
  one (n : String) (bs : List Value) :
    f (tagged n bs) = [] ∨ ∀ w, n ∉ tagNames [w] → f w = []

section

variable {β : Type} {f : Value → List β}

theorem IsGathering.flatMap_eq_nil (hf : IsGathering f) {n : String} (bs : List Value)
    {ws : List Value} (hn : n ∉ tagNames ws) : f (tagged n bs) = [] ∨ ws.flatMap f = [] := by
  refine (hf.one n bs).imp_right fun hother => List.flatMap_eq_nil_iff.mpr fun w hw => ?_
  refine hother w fun hmem => hn ?_
  obtain ⟨cs, hcs⟩ := mem_tagNames.mp hmem
  exact mem_tagNames.mpr ⟨cs, List.mem_singleton.mp hcs ▸ hw⟩

theorem IsGathering.flatMap_addTo (hf : IsGathering f) {ws : List Value}
    (hws : (tagNames ws).Nodup) (v : Value) :
    (v.addTo ws).flatMap f = ws.flatMap f ++ f v := by
  obtain ⟨happend, -⟩ | ⟨n, before, as, after, bs, rfl, rfl, hadd⟩ := addTo_eq v ws
  · rw [happend, List.flatMap_append, List.flatMap_singleton]
  · -- No tag behind the joined one has its name.
    have hafter : n ∉ tagNames after := by
      rw [tagNames_append, tagNames_tagged] at hws
      exact (List.nodup_cons.mp hws.of_append_right).1
    rw [hadd]
    simp only [List.flatMap_append, List.flatMap_cons, hf.join, List.append_assoc]
    obtain hnil | hnil := hf.flatMap_eq_nil bs hafter
    · rw [hnil, List.nil_append, List.append_nil]
    · rw [hnil, List.append_nil, List.nil_append]

/-! ## Adding many values -/

/-- Adds values one after the other. -/
def addAll (vs ws : List Value) : List Value := vs.foldl (fun ws v => v.addTo ws) ws

theorem foldl_add_eq (vs : List Value) (tag : Tag) :
    vs.foldl Tag.add tag = ⟨tag.name, addAll vs tag.children⟩ := by
  induction vs generalizing tag with
  | nil => rfl
  | cons v vs ih => exact ih (tag.add v)

theorem joined_tagged_eq (name : String) (children : List Value) :
    (tagged name children).joined = tagged name (addAll (children.map joined) []) := by
  rw [joined_tagged, foldl_add_eq]
  rfl

theorem nodup_tagNames_addAll (vs : List Value) {ws : List Value} (h : (tagNames ws).Nodup) :
    (tagNames (addAll vs ws)).Nodup := by
  induction vs generalizing ws with
  | nil => exact h
  | cons v vs ih => exact ih (nodup_tagNames_addTo h v)

theorem mem_tagNames_addAll {n : String} {vs ws : List Value} :
    n ∈ tagNames (addAll vs ws) ↔ n ∈ tagNames ws ∨ n ∈ tagNames vs := by
  induction vs generalizing ws with
  | nil => simp [addAll, tagNames]
  | cons v vs ih =>
    rw [show addAll (v :: vs) ws = addAll vs (v.addTo ws) from rfl, ih, mem_tagNames_addTo,
      tagNames_cons v vs, List.mem_append, or_assoc]

theorem addAll_eq_append {vs ws : List Value} (h : (tagNames (ws ++ vs)).Nodup) :
    addAll vs ws = ws ++ vs := by
  induction vs generalizing ws with
  | nil => simp [addAll]
  | cons v vs ih =>
    have hsplit : ws ++ v :: vs = ws ++ [v] ++ vs := by simp
    rw [hsplit] at h ⊢
    have hv : (tagNames (ws ++ [v])).Nodup := by
      rw [tagNames_append] at h
      exact h.of_append_left
    rw [show addAll (v :: vs) ws = addAll vs (v.addTo ws) from rfl, addTo_eq_append hv]
    exact ih h

theorem joined_eq {v : Value} (h : v.Everywhere NamesDistinct) : v.joined = v := by
  induction h with
  | leaf hv h => exact fold_leaf _ _ hv
  | @tagged name children h hchildren ih =>
    have hnames : (tagNames ([] ++ children)).Nodup := h
    rw [joined_tagged_eq, List.map_congr_left ih, List.map_id', addAll_eq_append hnames]
    rfl

theorem IsGathering.flatMap_addAll (hf : IsGathering f) (vs : List Value) {ws : List Value}
    (hws : (tagNames ws).Nodup) : (addAll vs ws).flatMap f = ws.flatMap f ++ vs.flatMap f := by
  induction vs generalizing ws with
  | nil => simp [addAll]
  | cons v vs ih =>
    rw [show addAll (v :: vs) ws = addAll vs (v.addTo ws) from rfl,
      ih (nodup_tagNames_addTo hws v), hf.flatMap_addTo hws, List.flatMap_cons, List.append_assoc]

end

end Dialects.Markup.Value
