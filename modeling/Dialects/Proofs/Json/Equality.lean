import Dialects.Proofs.Json.Value

/-!
# Equality of JSON values

Objects are compared from one side only: there are as many members on both sides, and each on the
left is found on the right. As no key comes twice, this is to hold equal values, or none, under
every key. So equality is symmetric and transitive. Only a NaN keeps a value from being equal to
itself.
-/

namespace Dialects

/-! ## Numbers -/

namespace Double

variable {x y z : Double}

theorem equal_iff : x.equal y ↔
    x.isNaN = false ∧ y.isNaN = false ∧ (x = y ∨ x.isZero ∧ y.isZero) := by
  have hbits : x = y ↔ x.bits = y.bits := ⟨congrArg bits, fun h => by cases x; cases y; simp_all⟩
  simp [equal, hbits, and_assoc]

theorem equal_self_iff : x.equal x ↔ x.isNaN = false := by
  simp [equal_iff]

theorem equal_symm (h : x.equal y) : y.equal x := by
  obtain ⟨hx, hy, h⟩ := equal_iff.mp h
  exact equal_iff.mpr ⟨hy, hx, h.imp Eq.symm And.symm⟩

theorem equal_trans (h : x.equal y) (h' : y.equal z) : x.equal z := by
  obtain ⟨hx, -, h⟩ := equal_iff.mp h
  obtain ⟨-, hz, h'⟩ := equal_iff.mp h'
  refine equal_iff.mpr ⟨hx, hz, ?_⟩
  obtain rfl | ⟨hx, hy⟩ := h
  · exact h'
  · obtain rfl | ⟨-, hz⟩ := h'
    · exact .inr ⟨hx, hy⟩
    · exact .inr ⟨hx, hz⟩

end Double

/-! ## Optional values -/

section

variable {α : Type} {r : α → α → Prop} {o p q : Option α}

theorem rel_symm (h : Option.Rel r o p) (hr : ∀ a ∈ o, ∀ b ∈ p, r a b → r b a) :
    Option.Rel r p o := by
  cases h with
  | none => exact .none
  | some h => exact .some (hr _ rfl _ rfl h)

theorem rel_trans (h : Option.Rel r o p) (h' : Option.Rel r p q)
    (hr : ∀ a ∈ o, ∀ b ∈ p, ∀ c ∈ q, r a b → r b c → r a c) : Option.Rel r o q := by
  cases h with
  | none => exact h'
  | some h =>
    cases h' with
    | some h' => exact .some (hr _ rfl _ rfl _ rfl h h')

theorem rel_self_iff : Option.Rel r o o ↔ ∀ a ∈ o, r a a := by
  cases o <;> simp

end

/-! ## Entries without repetitions -/

namespace Entries

variable {α : Type} {entries : Entries α} {name : String}

theorem get?_eq_some_iff (h : (names entries).Nodup) {value : α} :
    get? name entries = some value ↔ (name, value) ∈ entries := by
  induction entries with
  | nil => simp [get?]
  | cons entry entries ih =>
    obtain ⟨n, v⟩ := entry
    obtain ⟨hnew, h⟩ := List.nodup_cons.mp h
    rw [get?, List.mem_cons, ← ih h]
    split_ifs with hname
    · subst hname
      have hnone : get? n entries ≠ some value := fun hvalue =>
        hnew (List.mem_map.mpr ⟨_, (ih h).mp hvalue, rfl⟩)
      simp [hnone, eq_comm]
    · simp [Ne.symm hname]

theorem exists_get?_iff : (∃ value, get? name entries = some value) ↔ name ∈ names entries := by
  induction entries with
  | nil => simp [get?, names]
  | cons entry entries ih =>
    rw [get?, names, List.map_cons, List.mem_cons, ← names, ← ih]
    split_ifs with hname
    · simp [hname]
    · simp [Ne.symm hname]

end Entries

namespace Json.Value

/-! ## Parts of equal values -/

theorem equal_array_iff {as bs : List Value} : (array as).equal (array bs) ↔
    ∀ i : Nat, Option.Rel (fun a b : Value => a.equal b) as[i]? bs[i]? := by
  rw [equal]
  induction as generalizing bs with
  | nil =>
    cases bs with
    | nil => simp [equalItems]
    | cons b bs => exact iff_of_false (by simp [equalItems]) fun h => by simpa using h 0
  | cons a as ih =>
    cases bs with
    | nil => exact iff_of_false (by simp [equalItems]) fun h => by simpa using h 0
    | cons b bs =>
      -- At every index is at the first one and at every later one.
      have hfirst := Nat.and_forall_add_one
        (p := fun i => Option.Rel (fun a b : Value => a.equal b) (a :: as)[i]? (b :: bs)[i]?)
      rw [equalItems, Bool.and_eq_true, ih, ← hfirst]
      simp

theorem equalMembers_iff {as bs : List (String × Value)} :
    equalMembers as bs ↔ ∀ m ∈ as, ∃ b, Entries.get? m.1 bs = some b ∧ m.2.equal b := by
  induction as with
  | nil => simp [equalMembers]
  | cons m as ih =>
    rw [equalMembers, Bool.and_eq_true, ih, List.forall_mem_cons]
    refine and_congr_left fun _ => ?_
    cases Entries.get? m.1 bs <;> simp

/-- Where no key comes twice, equal objects hold equal values, or none, under every key. -/
theorem equal_object_iff {as bs : List (String × Value)} (has : (Entries.names as).Nodup)
    (hbs : (Entries.names bs).Nodup) : (object as).equal (object bs) ↔
      ∀ key, Option.Rel (fun a b => a.equal b) (Entries.get? key as) (Entries.get? key bs) := by
  have hlength (ms : List (String × Value)) : (Entries.names ms).length = ms.length :=
    List.length_map _
  rw [equal, Bool.and_eq_true, beq_iff_eq, equalMembers_iff]
  constructor
  · rintro ⟨hsame, hfound⟩ key
    have hsubset : Entries.names as ⊆ Entries.names bs := by
      intro name hname
      obtain ⟨m, hm, rfl⟩ := List.mem_map.mp hname
      obtain ⟨b, hb, -⟩ := hfound m hm
      exact Entries.exists_get?_iff.mp ⟨b, hb⟩
    -- As many keys on the right as on the left leave none over.
    have hperm : (Entries.names as).Perm (Entries.names bs) := by
      refine (List.subperm_of_subset has hsubset).perm_of_length_le ?_
      rw [hlength, hlength, hsame]
    cases ha : Entries.get? key as with
    | some a =>
      obtain ⟨b, hb, hab⟩ := hfound (key, a) ((Entries.get?_eq_some_iff has).mp ha)
      rw [hb]
      exact .some hab
    | none =>
      cases hb : Entries.get? key bs with
      | none => exact .none
      | some b =>
        have hmem := hperm.mem_iff.mpr (Entries.exists_get?_iff.mp ⟨b, hb⟩)
        obtain ⟨a, ha'⟩ := Entries.exists_get?_iff.mpr hmem
        simp [ha] at ha'
  · intro h
    have hmem (key : String) : key ∈ Entries.names as ↔ key ∈ Entries.names bs := by
      have hkey := h key
      rw [← Entries.exists_get?_iff, ← Entries.exists_get?_iff]
      cases ha : Entries.get? key as <;> cases hb : Entries.get? key bs <;> simp [ha, hb] at hkey ⊢
    refine ⟨?_, fun m hm => ?_⟩
    · rw [← hlength as, ← hlength bs, ((List.perm_ext_iff_of_nodup has hbs).mpr hmem).length_eq]
    · have hkey := h m.1
      rw [(Entries.get?_eq_some_iff has).mpr hm] at hkey
      cases hb : Entries.get? m.1 bs with
      | none => simp [hb] at hkey
      | some b => exact ⟨b, rfl, by simpa [hb] using hkey⟩

/-! ## Symmetry and transitivity -/

theorem UniqueKeys.item {items : List Value} (h : (Value.array items).UniqueKeys) :
    ∀ v ∈ items, v.UniqueKeys := by
  cases h with
  | array h => exact h

theorem UniqueKeys.nodup {members : List (String × Value)} (h : (Value.object members).UniqueKeys) :
    (Entries.names members).Nodup := by
  cases h with
  | object hkeys h => exact hkeys

theorem UniqueKeys.member {members : List (String × Value)}
    (h : (Value.object members).UniqueKeys) : ∀ m ∈ members, m.2.UniqueKeys := by
  cases h with
  | object hkeys h => exact h

theorem UniqueKeys.mem_of_get? {members : List (String × Value)} {key : String} {v : Value}
    (h : (Value.object members).UniqueKeys) (hv : v ∈ Entries.get? key members) :
    (key, v) ∈ members ∧ v.UniqueKeys := by
  have hmem := (Entries.get?_eq_some_iff h.nodup).mp hv
  exact ⟨hmem, h.member _ hmem⟩

variable {a b c : Value}

theorem equal_symm (ha : a.UniqueKeys) (hb : b.UniqueKeys) (h : a.equal b) : b.equal a := by
  induction a using Value.induction generalizing b with
  | array as ih =>
    cases b with
    | array bs =>
      rw [equal_array_iff] at h ⊢
      intro i
      refine rel_symm (h i) fun a hmem b hmem' hab => ?_
      have ha' := List.mem_of_getElem? hmem
      exact ih a ha' (ha.item a ha') (hb.item b (List.mem_of_getElem? hmem')) hab
    | _ => simp [equal] at h
  | object as ih =>
    cases b with
    | object bs =>
      rw [equal_object_iff ha.nodup hb.nodup] at h
      rw [equal_object_iff hb.nodup ha.nodup]
      intro key
      refine rel_symm (h key) fun a hmem b hmem' hab => ?_
      obtain ⟨ha', hkeys⟩ := ha.mem_of_get? hmem
      exact ih (key, a) ha' hkeys (hb.mem_of_get? hmem').2 hab
    | _ => simp [equal] at h
  | number x =>
    cases b with
    | number y =>
      rw [equal] at h ⊢
      exact Double.equal_symm h
    | _ => simp [equal] at h
  | null | boolean x | string x => cases b <;> simp_all [equal]

theorem equal_trans (ha : a.UniqueKeys) (hb : b.UniqueKeys) (hc : c.UniqueKeys) (h : a.equal b)
    (h' : b.equal c) : a.equal c := by
  induction a using Value.induction generalizing b c with
  | array as ih =>
    cases b with
    | array bs =>
      cases c with
      | array cs =>
        rw [equal_array_iff] at h h' ⊢
        intro i
        refine rel_trans (h i) (h' i) fun a ha' b hb' c hc' hab hbc => ?_
        have hmem := List.mem_of_getElem? ha'
        exact ih a hmem (ha.item a hmem) (hb.item b (List.mem_of_getElem? hb'))
          (hc.item c (List.mem_of_getElem? hc')) hab hbc
      | _ => simp [equal] at h'
    | _ => simp [equal] at h
  | object as ih =>
    cases b with
    | object bs =>
      cases c with
      | object cs =>
        rw [equal_object_iff ha.nodup hb.nodup] at h
        rw [equal_object_iff hb.nodup hc.nodup] at h'
        rw [equal_object_iff ha.nodup hc.nodup]
        intro key
        refine rel_trans (h key) (h' key) fun a ha' b hb' c hc' hab hbc => ?_
        obtain ⟨hmem, hkeys⟩ := ha.mem_of_get? ha'
        exact ih (key, a) hmem hkeys (hb.mem_of_get? hb').2 (hc.mem_of_get? hc').2 hab hbc
      | _ => simp [equal] at h'
    | _ => simp [equal] at h
  | number x =>
    cases b with
    | number y =>
      cases c with
      | number z =>
        rw [equal] at h h' ⊢
        exact Double.equal_trans h h'
      | _ => simp [equal] at h'
    | _ => simp [equal] at h
  | null | boolean x | string x => cases b <;> cases c <;> simp_all [equal]

/-! ## Values that equal themselves -/

/-- The numbers in a value. -/
def numbers : Value → List Double :=
  fold (fun
    | number x => [x]
    | _ => []) List.flatten (fun parts => (parts.map Prod.snd).flatten)

theorem numbers_array (items : List Value) : (array items).numbers = items.flatMap numbers :=
  fold_array _ _ _ items

theorem numbers_object (members : List (String × Value)) :
    (object members).numbers = members.flatMap fun m => m.2.numbers := by
  rw [numbers, fold_object, List.map_map]
  rfl

theorem equal_array_self_iff {items : List Value} :
    (array items).equal (array items) ↔ ∀ v ∈ items, v.equal v := by
  simp only [equal_array_iff, rel_self_iff, Option.mem_def]
  constructor
  · intro h v hv
    obtain ⟨i, hi⟩ := List.mem_iff_getElem?.mp hv
    exact h i v hi
  · exact fun h i v hv => h v (List.mem_of_getElem? hv)

theorem equal_object_self_iff {members : List (String × Value)}
    (h : (Entries.names members).Nodup) :
    (object members).equal (object members) ↔ ∀ m ∈ members, m.2.equal m.2 := by
  simp only [equal_object_iff h h, rel_self_iff, Option.mem_def, Entries.get?_eq_some_iff h]
  exact ⟨fun hself m hm => hself m.1 m.2 hm, fun hself key v hv => hself (key, v) hv⟩

theorem equal_self_iff (ha : a.UniqueKeys) : a.equal a ↔ ∀ x ∈ a.numbers, x.isNaN = false := by
  induction a using Value.induction with
  | array as ih =>
    rw [equal_array_self_iff, numbers_array, List.forall_mem_flatMap]
    exact forall₂_congr fun v hv => ih v hv (ha.item v hv)
  | object as ih =>
    rw [equal_object_self_iff ha.nodup, numbers_object, List.forall_mem_flatMap]
    exact forall₂_congr fun m hm => ih m hm (ha.member m hm)
  | number x => simp [equal, Double.equal_self_iff, numbers, fold]
  | null | boolean x | string x => simp [equal, numbers, fold]

/-! ## Changes inside a value -/

/-- Whether a value comes of another by a change of the value itself, of an item or of what a key
stands for. -/
inductive ChangedInside (change : Value → Value → Prop) : Value → Value → Prop
  | here {v w : Value} (h : change v w) : ChangedInside change v w
  | item {v w : Value} (before after : List Value) (h : ChangedInside change v w) :
    ChangedInside change (array (before ++ v :: after)) (array (before ++ w :: after))
  | member {v w : Value} (before after : List (String × Value)) (key : String)
    (h : ChangedInside change v w) :
    ChangedInside change (object (before ++ (key, v) :: after))
      (object (before ++ (key, w) :: after))

/-- Whether an object has the members of another in any order. -/
inductive Permutes : Value → Value → Prop
  | mk {members members' : List (String × Value)} (h : members.Perm members') :
    Permutes (object members) (object members')

/-- Whether an array comes of another by swapping two items that are not equal. -/
inductive SwapsUnequal : Value → Value → Prop
  | mk {v w : Value} (before between after : List Value) (h : v.equal w = false) :
    SwapsUnequal (array (before ++ v :: (between ++ w :: after)))
      (array (before ++ w :: (between ++ v :: after)))

theorem equal_array_change_iff {before after : List Value} {v w : Value} :
    (array (before ++ v :: after)).equal (array (before ++ w :: after)) ↔
      (∀ u ∈ before ++ after, u.equal u) ∧ v.equal w := by
  have hself : (array after).equal (array after) ↔ ∀ v ∈ after, v.equal v :=
    equal_array_self_iff
  simp only [equal] at hself ⊢
  induction before with
  | nil =>
    rw [List.nil_append, List.nil_append, List.nil_append, equalItems, Bool.and_eq_true, hself]
    exact and_comm
  | cons u before ih =>
    rw [List.cons_append, List.cons_append, List.cons_append, List.forall_mem_cons, equalItems,
      Bool.and_eq_true, and_assoc]
    exact and_congr_right fun _ => ih

theorem equal_object_change_iff {before after : List (String × Value)} {key : String} {v w : Value}
    (h : (Entries.names (before ++ (key, v) :: after)).Nodup) :
    (object (before ++ (key, v) :: after)).equal (object (before ++ (key, w) :: after)) ↔
      (∀ m ∈ before ++ after, m.2.equal m.2) ∧ v.equal w := by
  have hnodup : (Entries.names (before ++ (key, w) :: after)).Nodup := by
    simpa [Entries.names] using h
  have hchanged : Entries.get? key (before ++ (key, w) :: after) = some w :=
    (Entries.get?_eq_some_iff hnodup).mpr (by simp)
  -- All other members are found as they were.
  have hkept (m : String × Value) (hm : m ∈ before ++ after) :
      Entries.get? m.1 (before ++ (key, w) :: after) = some m.2 := by
    refine (Entries.get?_eq_some_iff hnodup).mpr ?_
    exact List.perm_middle.mem_iff.mpr (List.mem_cons_of_mem _ hm)
  rw [equal, Bool.and_eq_true, equalMembers_iff]
  constructor
  · rintro ⟨-, hfound⟩
    refine ⟨fun m hm => ?_, ?_⟩
    · obtain ⟨b, hb, hequal⟩ := hfound m (List.perm_middle.mem_iff.mpr (List.mem_cons_of_mem _ hm))
      rw [hkept m hm] at hb
      obtain rfl := Option.some.inj hb
      exact hequal
    · obtain ⟨b, hb, hequal⟩ := hfound (key, v) (by simp)
      rw [hchanged] at hb
      obtain rfl := Option.some.inj hb
      exact hequal
  · rintro ⟨hself, hvw⟩
    refine ⟨by simp, fun m hm => ?_⟩
    obtain rfl | hm := List.mem_cons.mp (List.perm_middle.mem_iff.mp hm)
    · exact ⟨w, hchanged, hvw⟩
    · exact ⟨m.2, hkept m hm, hself m hm⟩

theorem Permutes.uniqueKeys_and_equal {v w : Value} (h : Permutes v w) (hv : v.UniqueKeys)
    (hself : v.equal v) : w.UniqueKeys ∧ v.equal w := by
  obtain @⟨members, members', hperm⟩ := h
  have hnodup : (Entries.names members').Nodup := (hperm.map Prod.fst).nodup_iff.mp hv.nodup
  refine ⟨.object hnodup fun m hm => hv.member m (hperm.mem_iff.mpr hm), ?_⟩
  have hsame (key : String) : Entries.get? key members' = Entries.get? key members := by
    ext u
    rw [Entries.get?_eq_some_iff hnodup, Entries.get?_eq_some_iff hv.nodup, hperm.mem_iff]
  rw [equal_object_iff hv.nodup hv.nodup] at hself
  rw [equal_object_iff hv.nodup hnodup]
  intro key
  rw [hsame]
  exact hself key

theorem SwapsUnequal.equal_eq_false {v w : Value} (h : SwapsUnequal v w) : v.equal w = false := by
  obtain ⟨before, between, after, h⟩ := h
  rw [← Bool.not_eq_true, equal_array_iff]
  intro hequal
  simpa [h] using hequal before.length

theorem ChangedInside.uniqueKeys_and_equal {change : Value → Value → Prop}
    (hchange : ∀ v w, change v w → v.UniqueKeys → v.equal v → w.UniqueKeys ∧ v.equal w)
    (h : ChangedInside change a b) (ha : a.UniqueKeys) (hself : a.equal a) :
    b.UniqueKeys ∧ a.equal b := by
  induction h with
  | here h => exact hchange _ _ h ha hself
  | @item v w before after h ih =>
    rw [equal_array_change_iff] at hself ⊢
    obtain ⟨hw, hvw⟩ := ih (ha.item v (by simp)) hself.2
    refine ⟨.array fun u hu => ?_, hself.1, hvw⟩
    -- The other items are those of before.
    obtain rfl | hu := List.mem_cons.mp (List.perm_middle.mem_iff.mp hu)
    · exact hw
    · exact ha.item u (List.perm_middle.mem_iff.mpr (List.mem_cons_of_mem _ hu))
  | @member v w before after key h ih =>
    rw [equal_object_change_iff ha.nodup] at hself ⊢
    obtain ⟨hw, hvw⟩ := ih (ha.member (key, v) (by simp)) hself.2
    refine ⟨.object (by simpa [Entries.names] using ha.nodup) fun m hm => ?_, hself.1, hvw⟩
    obtain rfl | hm := List.mem_cons.mp (List.perm_middle.mem_iff.mp hm)
    · exact hw
    · exact ha.member m (List.perm_middle.mem_iff.mpr (List.mem_cons_of_mem _ hm))

theorem ChangedInside.equal_eq_false {change : Value → Value → Prop}
    (hchange : ∀ v w, change v w → v.equal w = false) (h : ChangedInside change a b)
    (ha : a.UniqueKeys) : a.equal b = false := by
  induction h with
  | here h => exact hchange _ _ h
  | @item v w before after h ih =>
    rw [← Bool.not_eq_true, equal_array_change_iff, ih (ha.item v (by simp))]
    simp
  | @member v w before after key h ih =>
    rw [← Bool.not_eq_true, equal_object_change_iff ha.nodup, ih (ha.member (key, v) (by simp))]
    simp

theorem equal_of_permuted (h : Relation.ReflTransGen (ChangedInside Permutes) a b)
    (ha : a.UniqueKeys) (hself : a.equal a) : b.UniqueKeys ∧ a.equal b := by
  induction h with
  | refl => exact ⟨ha, hself⟩
  | @tail b c hab hbc ih =>
    obtain ⟨hb, hequal⟩ := ih
    have hbself := equal_trans hb ha hb (equal_symm ha hb hequal) hequal
    obtain ⟨hc, hequal'⟩ := hbc.uniqueKeys_and_equal (fun v w h => h.uniqueKeys_and_equal) hb hbself
    exact ⟨hc, equal_trans ha hb hc hequal hequal'⟩

/-! ## Equality as a whole -/

/-- Equality of values in which no key comes twice is symmetric and transitive, and just the values
without a NaN equal themselves. In such a value the order of members makes no difference, at any
depth, and the order of items does. -/
theorem equal_isPartialEquivalence (ha : a.UniqueKeys) (hb : b.UniqueKeys) (hc : c.UniqueKeys) :
    (a.equal b ↔ b.equal a) ∧ (a.equal b → b.equal c → a.equal c) ∧
    (a.equal a ↔ ∀ x ∈ a.numbers, x.isNaN = false) ∧
    ((∀ x ∈ a.numbers, x.isNaN = false) →
      (Relation.ReflTransGen (ChangedInside Permutes) a b → a.equal b) ∧
      (ChangedInside SwapsUnequal a b → a.equal b = false)) := by
  refine ⟨⟨equal_symm ha hb, equal_symm hb ha⟩, equal_trans ha hb hc, equal_self_iff ha, ?_⟩
  intro hnan
  have hself := (equal_self_iff ha).mpr hnan
  exact ⟨fun h => (equal_of_permuted h ha hself).2,
    fun h => h.equal_eq_false (fun v w h => h.equal_eq_false) ha⟩

/-- Members in another order make an equal object, and so does minus zero for zero, but items in
another order do not. -/
theorem equal_of_permuted_and_not_of_swapped :
    (object [("k", array [null, number ⟨0⟩]), ("l", null)]).equal
        (object [("l", null), ("k", array [null, number ⟨0⟩])]) ∧
      (object [("l", null), ("k", array [null, number ⟨0x8000000000000000⟩])]).equal
        (object [("k", array [null, number ⟨0⟩]), ("l", null)]) ∧
      (object [("k", array [null, number ⟨0⟩]), ("l", null)]).equal
        (object [("k", array [number ⟨0⟩, null]), ("l", null)]) = false := by
  have hitems (x : Double) : (array [null, number x]).UniqueKeys :=
    .array (by simp [UniqueKeys.null, UniqueKeys.number])
  have hswapped (x : Double) : (array [number x, null]).UniqueKeys :=
    .array (by simp [UniqueKeys.null, UniqueKeys.number])
  have hobject {v : Value} (hv : v.UniqueKeys) : (object [("k", v), ("l", null)]).UniqueKeys :=
    .object (by simp [Entries.names]) (by simpa [UniqueKeys.null] using hv)
  have hreordered {v : Value} (hv : v.UniqueKeys) : (object [("l", null), ("k", v)]).UniqueKeys :=
    .object (by simp [Entries.names]) (by simpa [UniqueKeys.null] using hv)
  have hnan : ∀ x ∈ (object [("k", array [null, number ⟨0⟩]), ("l", null)]).numbers,
      x.isNaN = false := by decide
  have h := equal_isPartialEquivalence (hobject (hitems ⟨0⟩)) (hreordered (hitems ⟨0⟩))
    (hobject (hitems ⟨0⟩))
  have hsigned := equal_isPartialEquivalence (hobject (hitems ⟨0⟩))
    (hreordered (hitems ⟨0x8000000000000000⟩)) (hobject (hitems ⟨0⟩))
  have hitem := equal_isPartialEquivalence (hobject (hitems ⟨0⟩)) (hobject (hswapped ⟨0⟩))
    (hobject (hitems ⟨0⟩))
  exact ⟨(h.2.2.2 hnan).1 (.single (.here (.mk (.swap _ _ _)))), hsigned.1.mp (by decide),
    (hitem.2.2.2 hnan).2 (.member [] [("l", null)] "k" (.here (.mk [] [] [] rfl)))⟩

end Json.Value

end Dialects
