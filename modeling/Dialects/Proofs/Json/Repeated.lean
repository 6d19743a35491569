import Dialects.Proofs.Cut
import Dialects.Proofs.Json.Rewritten

/-!
# Repeated keys

A key may come more than once in an object. What is read has it once, in the place where it came
first, with the value that came last. Keys are told apart by what they stand for, not by how they
are spelled.
-/

namespace Dialects

/-! ## Entries set one by one -/

namespace Entries

variable {α : Type} {given : List (String × α)}

/-- The value that came last with a name. -/
def last? (name : String) (given : List (String × α)) : Option α :=
  (given.filter (·.1 = name)).getLast?.map Prod.snd

/-- Whether entries have the names of given ones, each once and in the place where it came first,
with the value that came last. -/
structure KeepsLast (given : List (String × α)) (entries : Entries α) : Prop where
  nodup : (names entries).Nodup
  mem_names_iff (name : String) : name ∈ names entries ↔ name ∈ given.map Prod.fst
  ordered : (names entries).Pairwise fun m n =>
    (given.map Prod.fst).idxOf m < (given.map Prod.fst).idxOf n
  get?_eq (name : String) : get? name entries = last? name given

theorem setAll_concat (before given : List (String × α)) (entry : String × α) :
    setAll before (given ++ [entry]) = insert entry.1 entry.2 (setAll before given) := by
  rw [setAll, List.foldl_append]
  rfl

theorem last?_concat (name : String) (given : List (String × α)) (entry : String × α) :
    last? name (given ++ [entry]) = if name = entry.1 then some entry.2 else last? name given := by
  by_cases h : entry.1 = name
  · simp [last?, h]
  · simp [last?, h, Ne.symm h]

theorem KeepsLast.insert {entries : Entries α} (h : KeepsLast given entries) (entry : String × α) :
    KeepsLast (given ++ [entry]) (entries.insert entry.1 entry.2) where
  nodup := nodup_names_insert h.nodup entry.1 entry.2
  mem_names_iff name := by
    rw [names_insert, List.map_append, List.mem_append, ← h.mem_names_iff]
    split_ifs with hmem
    · have hname : name ∈ [entry].map Prod.fst → name ∈ names entries := by
        rintro hname
        obtain rfl : name = entry.1 := by simpa using hname
        exact hmem
      exact ⟨.inl, fun h => h.elim id hname⟩
    · simp
  ordered := by
    have hold : (names entries).Pairwise fun m n =>
        ((given ++ [entry]).map Prod.fst).idxOf m < ((given ++ [entry]).map Prod.fst).idxOf n := by
      refine h.ordered.imp_of_mem fun hm hn hlt => ?_
      rw [List.map_append, List.idxOf_append_of_mem ((h.mem_names_iff _).mp hm),
        List.idxOf_append_of_mem ((h.mem_names_iff _).mp hn)]
      exact hlt
    -- The names of before keep their first places, and a new one comes behind them all.
    rw [names_insert]
    split_ifs with hmem
    · exact hold
    · refine List.pairwise_append.mpr ⟨hold, List.pairwise_singleton _ _, fun m hm n hn => ?_⟩
      obtain rfl := List.mem_singleton.mp hn
      have hm' := (h.mem_names_iff m).mp hm
      rw [List.map_append, List.idxOf_append_of_mem hm',
        List.idxOf_append_of_notMem fun hn' => hmem ((h.mem_names_iff _).mpr hn')]
      exact Nat.lt_add_right _ (List.idxOf_lt_length_of_mem hm')
  get?_eq name := by rw [get?_insert, last?_concat, h.get?_eq]

theorem keepsLast_setAll (given : List (String × α)) : KeepsLast given (setAll [] given) := by
  induction given using List.reverseRecOn with
  | nil => exact ⟨List.nodup_nil, fun name => Iff.rfl, .nil, fun name => rfl⟩
  | append_singleton given entry ih =>
    rw [setAll_concat]
    exact ih.insert entry

end Entries

namespace Json

/-! ## Written values -/

/-- A value as it is written, with every member of an object where it stands. -/
inductive Tree
  | null
  | boolean (value : Bool)
  | number (literal : String)
  | string (text : String)
  | array (items : List Tree)
  | object (members : List (String × Tree))

namespace Tree

mutual

def symbols : Tree → List Symbol
  | null => [.null]
  | boolean value => [.boolean value]
  | number literal => [.number literal]
  | string text => [.string text]
  | array items => .leftBracket :: (separated (itemSymbols items) ++ [.rightBracket])
  | object members => .leftBrace :: (separated (memberSymbols members) ++ [.rightBrace])

def itemSymbols : List Tree → List (List Symbol)
  | [] => []
  | t :: ts => symbols t :: itemSymbols ts

def memberSymbols : List (String × Tree) → List (List Symbol)
  | [] => []
  | (key, t) :: ms => (.string key :: .colon :: symbols t) :: memberSymbols ms

end

theorem itemSymbols_eq (items : List Tree) : itemSymbols items = items.map symbols := by
  induction items with
  | nil => rfl
  | cons t ts ih => rw [itemSymbols, ih, List.map_cons]

theorem memberSymbols_eq (members : List (String × Tree)) :
    memberSymbols members = members.map fun m => .string m.1 :: .colon :: m.2.symbols := by
  induction members with
  | nil => rfl
  | cons m ms ih => rw [memberSymbols, ih, List.map_cons]

theorem induction {P : Tree → Prop} (null : P null) (boolean : ∀ b, P (boolean b))
    (number : ∀ literal, P (number literal)) (string : ∀ text, P (string text))
    (array : ∀ items, (∀ t ∈ items, P t) → P (array items))
    (object : ∀ members, (∀ m ∈ members, P m.2) → P (object members)) (t : Tree) : P t :=
  @Tree.rec P (fun items => ∀ t ∈ items, P t) (fun members => ∀ m ∈ members, P m.2)
    (fun m => P m.2) null boolean number string array object (by simp) (by simp +contextual)
    (by simp) (by simp +contextual) (fun _ _ h => h) t

/-- Whether a text is a written value: its symbols as they are spelled, with blanks between them. -/
def IsWrittenIn (source : String) (t : Tree) : Prop :=
  ∃ (ps : List (Piece Symbol)) (blanks : List Char), source.toList = Piece.text ps ++ blanks ∧
    Piece.AllSpelled ps blanks ∧ (∀ b ∈ blanks, Text.isBlank b) ∧ ps.map Piece.symbol = t.symbols

/-- Whether a value is what a written one stands for. -/
inductive StandsFor : Tree → Value → Prop
  | null : StandsFor null .null
  | boolean (b : Bool) : StandsFor (boolean b) (.boolean b)
  | number {literal : String} {x : Double} (h : Double.read? literal.toList = some x) :
    StandsFor (number literal) (.number x)
  | string (text : String) : StandsFor (string text) (.string text)
  | array (items : List (Tree × Value)) (h : ∀ i ∈ items, StandsFor i.1 i.2) :
    StandsFor (array (items.map Prod.fst)) (.array (items.map Prod.snd))
  | object (members : List (String × Tree × Value)) (h : ∀ m ∈ members, StandsFor m.2.1 m.2.2)
    {entries : Entries Value}
    (hentries : Entries.KeepsLast (members.map fun m => (m.1, m.2.2)) entries) :
    StandsFor (object (members.map fun m => (m.1, m.2.1))) (.object entries)

end Tree

/-! ## What was written -/

theorem Derives.exists_tree {ss : List Symbol} {v : Value} (h : Derives ss v) :
    ∃ t : Tree, t.symbols = ss := by
  have : Nonempty Tree := ⟨.null⟩
  induction h with
  | null => exact ⟨.null, rfl⟩
  | boolean b => exact ⟨.boolean b, rfl⟩
  | string text => exact ⟨.string text, rfl⟩
  | @number literal x h => exact ⟨.number literal, rfl⟩
  | array items h ih =>
    choose! tree htree using ih
    refine ⟨.array (items.map tree), ?_⟩
    rw [Tree.symbols, Tree.itemSymbols_eq, List.map_map]
    congr 3
    exact List.map_congr_left htree
  | object members h ih =>
    choose! tree htree using ih
    refine ⟨.object (members.map fun m => (m.1, tree m)), ?_⟩
    rw [Tree.symbols, Tree.memberSymbols_eq, List.map_map]
    congr 3
    refine List.map_congr_left fun m hm => ?_
    rw [Function.comp_apply, htree m hm]
    rfl

theorem mem_separated {s : Symbol} {part : List Symbol} {parts : List (List Symbol)}
    (hpart : part ∈ parts) (hs : s ∈ part) : s ∈ separated parts := by
  obtain ⟨first, later, rfl⟩ := List.exists_cons_of_ne_nil (List.ne_nil_of_mem hpart)
  rw [separated, List.mem_append]
  obtain rfl | hpart := List.mem_cons.mp hpart
  · exact .inl hs
  · exact .inr (List.mem_flatMap.mpr ⟨part, hpart, List.mem_cons_of_mem _ hs⟩)

namespace Tree

/-- Whether the numbers of a written value stand for doubles. -/
def HasNumbers (t : Tree) : Prop :=
  ∀ literal, .number literal ∈ t.symbols → (Double.read? literal.toList).isSome

theorem HasNumbers.exists_derives {t : Tree} (h : t.HasNumbers) :
    ∃ v, Derives t.symbols v ∧ t.StandsFor v := by
  have : Nonempty Value := ⟨.null⟩
  induction t using Tree.induction with
  | null => exact ⟨.null, .null, .null⟩
  | boolean b => exact ⟨.boolean b, .boolean b, .boolean b⟩
  | string text => exact ⟨.string text, .string text, .string text⟩
  | number literal =>
    obtain ⟨x, hx⟩ := Option.isSome_iff_exists.mp (h literal (List.mem_singleton_self _))
    exact ⟨.number x, .number hx, .number hx⟩
  | array items ih =>
    have hinside (t : Tree) (ht : t ∈ items) : t.HasNumbers := fun literal hliteral => by
      refine h literal (List.mem_cons_of_mem _ (List.mem_append_left _ ?_))
      exact mem_separated (itemSymbols_eq items ▸ List.mem_map_of_mem ht) hliteral
    -- Each item stands for a value, and the array for the array of these.
    choose! value hvalue using fun t ht => ih t ht (hinside t ht)
    have hderives := Derives.array (items.map fun t => (t.symbols, value t))
      (List.forall_mem_map.mpr fun t ht => (hvalue t ht).1)
    have hstands := StandsFor.array (items.map fun t => (t, value t))
      (List.forall_mem_map.mpr fun t ht => (hvalue t ht).2)
    refine ⟨.array (items.map value), ?_, by simpa [Function.comp_def] using hstands⟩
    rw [symbols, itemSymbols_eq]
    simpa [Function.comp_def] using hderives
  | object members ih =>
    have hinside (m : String × Tree) (hm : m ∈ members) : m.2.HasNumbers := by
      intro literal hliteral
      refine h literal (List.mem_cons_of_mem _ (List.mem_append_left _ ?_))
      refine mem_separated (memberSymbols_eq members ▸ List.mem_map_of_mem hm) ?_
      exact List.mem_cons_of_mem _ (List.mem_cons_of_mem _ hliteral)
    choose! value hvalue using fun m hm => ih m hm (hinside m hm)
    have hderives := Derives.object (members.map fun m => (m.1, m.2.symbols, value m))
      (List.forall_mem_map.mpr fun m hm => (hvalue m hm).1)
    have hstands := StandsFor.object (members.map fun m => (m.1, m.2, value m))
      (List.forall_mem_map.mpr fun m hm => (hvalue m hm).2) (Entries.keepsLast_setAll _)
    refine ⟨.object (Entries.setAll [] (members.map fun m => (m.1, value m))), ?_,
      by simpa [Function.comp_def] using hstands⟩
    rw [symbols, memberSymbols_eq]
    simpa [Function.comp_def, Json.memberSymbols, memberEntry] using hderives

variable {source : String} {t : Tree}

theorem IsWrittenIn.exists_scan (h : t.IsWrittenIn source) :
    ∃ ts position, (Scan.ofSource source : Scan Symbol) = ⟨ts, .eof position⟩ ∧
      ts.map Token.symbol = t.symbols := by
  obtain ⟨ps, blanks, hsource, hps, hblanks, hsymbols⟩ := h
  have hscan := Piece.ofCursor_text (Piece.allRead_of_allSpelled hps) 0
  rw [Scan.ofCursor_blanks hblanks, List.append_nil] at hscan
  have hstart : (Scan.ofSource source : Scan Symbol) =
      Scan.ofCursor ⟨0, Piece.text ps ++ blanks⟩ := by
    rw [Scan.ofSource, Text.Cursor.start, hsource]
  exact ⟨Piece.tokens 0 ps, _, hstart.trans hscan, by rw [Piece.map_symbol_tokens, hsymbols]⟩

theorem IsWrittenIn.hasNumbers (h : t.IsWrittenIn source) : t.HasNumbers := by
  obtain ⟨ts, position, hscan, hsymbols⟩ := h.exists_scan
  have hnumber : ∀ u ∈ (Scan.ofSource source : Scan Symbol).tokens, ∀ literal,
      u.symbol = .number literal → (Double.read? literal.toList).isSome :=
    Scan.forall_mem_tokens (fun _ _ _ hnext _ _ hu => isSome_read?_of_next hnext hu) _
  intro literal hliteral
  rw [← hsymbols] at hliteral
  obtain ⟨u, hu, husymbol⟩ := List.mem_map.mp hliteral
  exact hnumber u (hscan ▸ hu) literal husymbol

end Tree

/-! ## What is read -/

/-- What is read of a text is what any value written in it stands for, down to each object of each
object that is left: keys where they came first, with the values that came last. -/
theorem standsFor_of_parse {source : String} {v : Value} (h : parse source = .ok v) :
    (∃ t : Tree, t.IsWrittenIn source) ∧ ∀ t : Tree, t.IsWrittenIn source → t.StandsFor v := by
  obtain ⟨⟨position, hending⟩, hderives, hnested⟩ := run_eq_ok_iff.mp h
  constructor
  · have hscan : (Scan.ofSource source : Scan Symbol) =
        ⟨(Scan.ofSource source).tokens, .eof position⟩ := by rw [← hending]
    obtain ⟨ps, blanks, hsource, hps, hblanks, htokens⟩ := Scan.exists_pieces hscan
    obtain ⟨t, hsymbols⟩ := hderives.exists_tree
    refine ⟨t, ps, blanks, hsource, hps, hblanks, ?_⟩
    rw [hsymbols, htokens, Piece.map_symbol_tokens]
  · intro t ht
    -- What is written there stands for a value that is read, and only one can be.
    obtain ⟨w, hw, hstands⟩ := ht.hasNumbers.exists_derives
    obtain ⟨ts, position', hscan, hsymbols⟩ := ht.exists_scan
    have hread : parse source = .ok w := by
      refine run_eq_ok_iff.mpr ⟨⟨position, hending⟩, ?_, hnested⟩
      rwa [hscan, hsymbols]
    obtain rfl : w = v := Except.ok.inj (hread.symm.trans h)
    exact hstands

/-- The key `b` is spelled in two ways, and the second object under `a` takes the place of the
first. -/
theorem exists_standsFor_of_repeated_keys : ∃ t : Tree,
    t.IsWrittenIn
        "\x7b\"b\":null,\"a\":\x7b\"x\":true\x7d,\"\\u0062\":\"new\",\"a\":\x7b\"y\":[]\x7d\x7d" ∧
      t.StandsFor (.object [("b", .string "new"), ("a", .object [("y", .array [])])]) := by
  have hparse : parse
        "\x7b\"b\":null,\"a\":\x7b\"x\":true\x7d,\"\\u0062\":\"new\",\"a\":\x7b\"y\":[]\x7d\x7d" =
      .ok (.object [("b", .string "new"), ("a", .object [("y", .array [])])]) := by rfl
  obtain ⟨⟨t, ht⟩, hstands⟩ := standsFor_of_parse hparse
  exact ⟨t, ht, hstands t ht⟩

end Json

end Dialects
