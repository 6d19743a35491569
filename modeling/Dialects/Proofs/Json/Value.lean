import Dialects.Proofs.Brackets
import Dialects.Proofs.Double.ReadBack
import Dialects.Proofs.Json.Grammar

/-!
# Values as trees

What the writer makes of a value is derived by the grammar, for the value without the numbers that
have no spelling.
-/

namespace Dialects

namespace Entries

variable {α : Type}

theorem insert_of_notMem {name : String} {before : Entries α} (h : name ∉ names before)
    (value : α) : insert name value before = before ++ [(name, value)] := by
  induction before with
  | nil => rfl
  | cons entry before ih =>
    simp only [names, List.map_cons, List.mem_cons, not_or] at h ih
    rw [insert, if_neg (Ne.symm h.1), ih h.2, List.cons_append]

theorem setAll_of_nodup {before : Entries α} {entries : List (String × α)}
    (h : (names (before ++ entries)).Nodup) : setAll before entries = before ++ entries := by
  induction entries generalizing before with
  | nil => simp [setAll]
  | cons entry entries ih =>
    have hnew : entry.1 ∉ names before := by
      simp only [names, List.map_append, List.map_cons, List.nodup_append] at h
      intro hmem
      exact h.2.2 _ hmem _ (by simp) rfl
    have hstep : setAll before (entry :: entries) =
        setAll (insert entry.1 entry.2 before) entries := rfl
    rw [hstep, insert_of_notMem hnew, ih (by simpa using h)]
    simp

end Entries

namespace Json.Value

/-! ## Folds -/

section Fold

variable {α : Type} (scalar : Value → α) (onArray : List α → α)
  (onObject : List (String × α) → α)

mutual

/-- What is made of a value, from what is made of its parts. -/
def fold : Value → α
  | array items => onArray (foldItems items)
  | object members => onObject (foldMembers members)
  | v => scalar v

def foldItems : List Value → List α
  | [] => []
  | v :: vs => fold v :: foldItems vs

def foldMembers : List (String × Value) → List (String × α)
  | [] => []
  | (key, v) :: ms => (key, fold v) :: foldMembers ms

end

theorem fold_array (items : List Value) : fold scalar onArray onObject (array items) =
    onArray (items.map (fold scalar onArray onObject)) := by
  have hitems : foldItems scalar onArray onObject items =
      items.map (fold scalar onArray onObject) := by
    induction items with
    | nil => rfl
    | cons v vs ih => rw [foldItems, ih, List.map_cons]
  rw [fold, hitems]

theorem fold_object (members : List (String × Value)) :
    fold scalar onArray onObject (object members) =
      onObject (members.map fun m => (m.1, fold scalar onArray onObject m.2)) := by
  have hmembers : foldMembers scalar onArray onObject members =
      members.map fun m => (m.1, fold scalar onArray onObject m.2) := by
    induction members with
    | nil => rfl
    | cons m ms ih => rw [foldMembers, ih, List.map_cons]
  rw [fold, hmembers]

end Fold

/-- The value with null in place of each number that is not finite. -/
def finitePart : Value → Value :=
  fold (fun
    | number x => if x.isFinite then number x else null
    | v => v) array object

/-- What a value is read back as, which sets members whose keys come twice only once. -/
def readBack : Value → Value :=
  fold (fun
    | number x => if x.isFinite then number x else null
    | v => v) array (fun members => object (Entries.setAll [] members))

/-- How many containers are open at most. -/
def nesting : Value → Nat :=
  fold (fun _ => 0) depthOver (fun depths => depthOver (depths.map Prod.snd))

def scalarSymbol : Value → Symbol
  | boolean b => .boolean b
  | number x => if x.isFinite then .number (String.ofList x.text) else .null
  | string text => .string text
  | _ => .null

/-- The symbols that the writer puts for a value. -/
def symbols : Value → List Symbol :=
  fold (fun v => [v.scalarSymbol])
    (fun parts => .leftBracket :: (separated parts ++ [.rightBracket]))
    (fun parts => .leftBrace ::
      (separated (parts.map fun p => .string p.1 :: .colon :: p.2) ++ [.rightBrace]))

inductive UniqueKeys : Value → Prop
  | null : UniqueKeys null
  | boolean (b : Bool) : UniqueKeys (boolean b)
  | number (x : Double) : UniqueKeys (number x)
  | string (text : String) : UniqueKeys (string text)
  | array {items : List Value} (h : ∀ v ∈ items, UniqueKeys v) : UniqueKeys (array items)
  | object {members : List (String × Value)} (hkeys : (Entries.names members).Nodup)
    (h : ∀ m ∈ members, UniqueKeys m.2) : UniqueKeys (object members)

inductive AllFinite : Value → Prop
  | null : AllFinite null
  | boolean (b : Bool) : AllFinite (boolean b)
  | number {x : Double} (h : x.isFinite) : AllFinite (number x)
  | string (text : String) : AllFinite (string text)
  | array {items : List Value} (h : ∀ v ∈ items, AllFinite v) : AllFinite (array items)
  | object {members : List (String × Value)} (h : ∀ m ∈ members, AllFinite m.2) :
    AllFinite (object members)

theorem induction {P : Value → Prop} (null : P null) (boolean : ∀ b, P (boolean b))
    (number : ∀ x, P (number x)) (string : ∀ text, P (string text))
    (array : ∀ items, (∀ v ∈ items, P v) → P (array items))
    (object : ∀ members, (∀ m ∈ members, P m.2) → P (object members)) (v : Value) : P v :=
  @Value.rec P (fun items => ∀ v ∈ items, P v) (fun members => ∀ m ∈ members, P m.2)
    (fun m => P m.2) null boolean number string array object (by simp) (by simp +contextual)
    (by simp) (by simp +contextual) (fun _ _ h => h) v

/-! ## What is written is derived -/

@[simp] theorem finitePart_array (items : List Value) :
    (array items).finitePart = array (items.map finitePart) := fold_array _ _ _ items

@[simp] theorem finitePart_object (members : List (String × Value)) :
    (object members).finitePart = object (members.map fun m => (m.1, m.2.finitePart)) :=
  fold_object _ _ _ members

theorem readBack_array (items : List Value) :
    (array items).readBack = array (items.map readBack) := fold_array _ _ _ items

theorem readBack_object (members : List (String × Value)) : (object members).readBack =
    object (Entries.setAll [] (members.map fun m => (m.1, m.2.readBack))) :=
  fold_object _ _ _ members

theorem symbols_array (items : List Value) : (array items).symbols =
    .leftBracket :: (separated (items.map symbols) ++ [.rightBracket]) := fold_array _ _ _ items

theorem symbols_object (members : List (String × Value)) : (object members).symbols =
    .leftBrace ::
      (separated (members.map fun m => .string m.1 :: .colon :: m.2.symbols) ++ [.rightBrace]) := by
  rw [symbols, fold_object, List.map_map]
  rfl

theorem AllFinite.finitePart_eq {v : Value} (h : v.AllFinite) : v.finitePart = v := by
  induction h with
  | number h => simp [finitePart, fold, h]
  | array h ih => rw [finitePart_array, List.map_congr_left ih, List.map_id']
  | object h ih =>
    rw [finitePart_object, List.map_congr_left (g := id) fun m hm => by rw [ih m hm]; rfl,
      List.map_id]
  | _ => rfl

theorem derives (v : Value) : Derives v.symbols v.readBack := by
  induction v using Value.induction with
  | null => exact .null
  | boolean b => exact .boolean b
  | number x =>
    -- A number that is not finite is written as null.
    by_cases hx : x.isFinite
    · have hread : Double.read? (String.ofList x.text).toList = some x := by
        rw [String.toList_ofList, Double.read?_text hx]
      simpa [symbols, readBack, fold, scalarSymbol, hx] using Derives.number hread
    · simpa [symbols, readBack, fold, scalarSymbol, hx] using Derives.null
  | string text => exact .string text
  | array items ih =>
    have hitems := Derives.array (items.map fun v => (v.symbols, v.readBack))
      (List.forall_mem_map.mpr ih)
    rw [symbols_array, readBack_array]
    simpa [List.map_map, Function.comp_def] using hitems
  | object members ih =>
    have hmembers := Derives.object (members.map fun m => (m.1, m.2.symbols, m.2.readBack))
      (List.forall_mem_map.mpr ih)
    rw [symbols_object, readBack_object]
    simpa [List.map_map, Function.comp_def, memberSymbols, memberEntry] using hmembers

theorem UniqueKeys.readBack_eq {v : Value} (h : v.UniqueKeys) : v.readBack = v.finitePart := by
  induction h with
  | array h ih => rw [readBack_array, finitePart_array, List.map_congr_left ih]
  | @object members hkeys h ih =>
    have hnames : (Entries.names (members.map fun m => (m.1, m.2.finitePart))).Nodup := by
      simpa [Entries.names, List.map_map, Function.comp_def] using hkeys
    have hmap : (members.map fun m => (m.1, m.2.readBack)) =
        members.map fun m => (m.1, m.2.finitePart) :=
      List.map_congr_left fun m hm => by rw [ih m hm]
    rw [readBack_object, finitePart_object, hmap, Entries.setAll_of_nodup (by simpa using hnames),
      List.nil_append]
  | _ => rfl

/-! ## Nesting -/

theorem nesting_array_le {items : List Value} {limit : Nat} :
    (array items).nesting ≤ limit ↔ ∃ n, limit = n + 1 ∧ ∀ v ∈ items, v.nesting ≤ n := by
  rw [nesting, fold_array, depthOver_le]
  simp only [List.forall_mem_map]

theorem nesting_object_le {members : List (String × Value)} {limit : Nat} :
    (object members).nesting ≤ limit ↔ ∃ n, limit = n + 1 ∧ ∀ m ∈ members, m.2.nesting ≤ n := by
  rw [nesting, fold_object, depthOver_le]
  simp only [List.forall_mem_map]

theorem nestedWithin_symbols (v : Value) (limit : Nat) :
    NestedWithin limit v.symbols ↔ v.nesting ≤ limit := by
  have hscalar (s : Symbol) (hs : s.isOpening = false) (n : Nat) : NestedWithin n [s] ↔ 0 ≤ n :=
    iff_of_true (nestedWithin_singleton hs n) (Nat.zero_le n)
  induction v using Value.induction generalizing limit with
  | null => exact hscalar _ rfl limit
  | boolean b => exact hscalar _ rfl limit
  | number x =>
    refine hscalar _ ?_ limit
    by_cases hx : x.isFinite <;> simp [scalarSymbol, hx, Symbol.isOpening]
  | string text => exact hscalar _ rfl limit
  | array items ih =>
    -- An item closes what it opens, so that each may be counted by itself.
    have hbalanced : ∀ part ∈ items.map symbols, openings part = closings part :=
      List.forall_mem_map.mpr fun v _ => v.derives.balanced
    rw [symbols_array, nesting_array_le,
      nestedWithin_container rfl rfl (separated_balanced hbalanced)]
    refine exists_congr fun n => and_congr_right fun _ => ?_
    rw [nestedWithin_separated hbalanced, List.forall_mem_map]
    exact forall₂_congr fun v hv => ih v hv n
  | object members ih =>
    have hbalanced : ∀ part ∈ members.map fun m => Symbol.string m.1 :: .colon :: m.2.symbols,
        openings part = closings part :=
      List.forall_mem_map.mpr fun m _ =>
        Derives.member_balanced (m := (m.1, m.2.symbols, m.2.readBack)) m.2.derives
    rw [symbols_object, nesting_object_le,
      nestedWithin_container rfl rfl (separated_balanced hbalanced)]
    refine exists_congr fun n => and_congr_right fun _ => ?_
    rw [nestedWithin_separated hbalanced, List.forall_mem_map]
    refine forall₂_congr fun m hm => ?_
    exact (nestedWithin_member (m.1, m.2.symbols, m.2.readBack) n).trans (ih m hm n)

end Json.Value

end Dialects
