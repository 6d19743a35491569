import Dialects.Proofs.Json.Accepted
import Dialects.Proofs.Json.RoundTrip

/-!
# What was read and written

A value that was read has no key twice and is not nested too deep, so that it is read back from its
text. The numbers without a spelling are lost then, and nothing more the next time.
-/

namespace Dialects

namespace Entries

variable {α : Type}

theorem nodup_names_insert {entries : Entries α} (h : (names entries).Nodup) (name : String)
    (value : α) : (names (insert name value entries)).Nodup := by
  rw [names_insert]
  split_ifs with hmem
  · exact h
  · refine List.nodup_append.mpr ⟨h, List.nodup_singleton name, fun n hn m hm hnm => hmem ?_⟩
    rwa [← List.mem_singleton.mp hm, ← hnm]

theorem nodup_names_setAll {before : Entries α} (h : (names before).Nodup)
    (entries : List (String × α)) : (names (setAll before entries)).Nodup := by
  induction entries generalizing before with
  | nil => exact h
  | cons entry entries ih => exact ih (nodup_names_insert h entry.1 entry.2)

theorem eq_or_mem_of_mem_insert {name : String} {value : α} {entries : Entries α}
    {entry : String × α} (h : entry ∈ insert name value entries) :
    entry = (name, value) ∨ entry ∈ entries := by
  induction entries with
  | nil => exact .inl (List.mem_singleton.mp h)
  | cons e entries ih =>
    rw [insert] at h
    split_ifs at h
    · exact (List.mem_cons.mp h).imp_right (List.mem_cons_of_mem e)
    · obtain rfl | h := List.mem_cons.mp h
      · exact .inr List.mem_cons_self
      · exact (ih h).imp_right (List.mem_cons_of_mem e)

theorem mem_or_mem_of_mem_setAll {before entries : List (String × α)} {entry : String × α}
    (h : entry ∈ setAll before entries) : entry ∈ before ∨ entry ∈ entries := by
  induction entries generalizing before with
  | nil => exact .inl h
  | cons e entries ih =>
    obtain h | h := ih h
    · obtain rfl | h := eq_or_mem_of_mem_insert h
      · exact .inr List.mem_cons_self
      · exact .inl h
    · exact .inr (List.mem_cons_of_mem e h)

end Entries

namespace Json

/-! ## Values that are derived -/

theorem Derives.uniqueKeys {ss : List Symbol} {v : Value} (h : Derives ss v) : v.UniqueKeys := by
  induction h with
  | null => exact .null
  | boolean b => exact .boolean b
  | string text => exact .string text
  | number h => exact .number _
  | array items h ih => exact .array (List.forall_mem_map.mpr ih)
  | object members h ih =>
    have hnil : (Entries.names ([] : Entries Value)).Nodup := List.nodup_nil
    refine .object (Entries.nodup_names_setAll hnil _) fun entry hentry => ?_
    obtain hentry | hentry := Entries.mem_or_mem_of_mem_setAll hentry
    · simp at hentry
    · obtain ⟨m, hm, rfl⟩ := List.mem_map.mp hentry
      exact ih m hm

theorem Derives.nesting_le {ss : List Symbol} {v : Value} (h : Derives ss v) {limit : Nat}
    (hlimit : NestedWithin limit ss) : v.nesting ≤ limit := by
  induction h generalizing limit with
  | array items h ih =>
    have hbalanced : ∀ part ∈ items.map Prod.fst, openings part = closings part :=
      List.forall_mem_map.mpr fun i hi => (h i hi).balanced
    rw [nestedWithin_container rfl rfl (separated_balanced hbalanced)] at hlimit
    obtain ⟨n, rfl, hbody⟩ := hlimit
    rw [nestedWithin_separated hbalanced, List.forall_mem_map] at hbody
    exact Value.nesting_array_le.mpr
      ⟨n, rfl, List.forall_mem_map.mpr fun i hi => ih i hi (hbody i hi)⟩
  | object members h ih =>
    have hbalanced : ∀ part ∈ members.map memberSymbols, openings part = closings part :=
      List.forall_mem_map.mpr fun m hm => (h m hm).member_balanced
    rw [nestedWithin_container rfl rfl (separated_balanced hbalanced)] at hlimit
    obtain ⟨n, rfl, hbody⟩ := hlimit
    rw [nestedWithin_separated hbalanced, List.forall_mem_map] at hbody
    refine Value.nesting_object_le.mpr ⟨n, rfl, fun entry hentry => ?_⟩
    obtain hentry | hentry := Entries.mem_or_mem_of_mem_setAll hentry
    · simp at hentry
    · obtain ⟨m, hm, rfl⟩ := List.mem_map.mp hentry
      exact ih m hm ((nestedWithin_member m n).mp (hbody m hm))
  | _ => exact Nat.zero_le limit

theorem uniqueKeys_and_nesting_le_of_parse {source : String} {v : Value}
    (h : parse source = .ok v) : v.UniqueKeys ∧ v.nesting ≤ nestingLimit := by
  obtain ⟨-, hderives, hnested⟩ := run_eq_ok_iff.mp h
  exact ⟨hderives.uniqueKeys, hderives.nesting_le hnested⟩

/-! ## Numbers without a spelling -/

theorem Value.pieces_finitePart (layout : Layout) (v : Value) (depth : Nat) (blanks : List Char) :
    v.finitePart.pieces layout depth blanks = v.pieces layout depth blanks := by
  induction v using Value.induction generalizing depth blanks with
  | number x =>
    by_cases hx : x.isFinite <;> simp [finitePart, pieces, fold, scalarSymbol, hx]
  | array items ih =>
    rw [finitePart_array, pieces_array, pieces_array, List.map_map]
    congr 1
    exact List.map_congr_left fun v hv => ih v hv _ _
  | object members ih =>
    rw [finitePart_object, pieces_object, pieces_object, List.map_map]
    congr 1
    exact List.map_congr_left fun m hm => by simp [ih m hm]
  | _ => rfl

theorem Value.text_finitePart (layout : Layout) (v : Value) :
    v.finitePart.text layout = v.text layout := by
  have htext (w : Value) : w.text layout = String.ofList (Piece.text (w.pieces layout 0 [])) := by
    rw [w.text_pieces, List.nil_append]
    rfl
  rw [htext, htext, v.pieces_finitePart]

theorem parse_text_of_parse {source : String} {v : Value} (h : parse source = .ok v)
    (layout : Layout) : parse (v.text layout) = .ok v.finitePart :=
  have ⟨hkeys, hnesting⟩ := uniqueKeys_and_nesting_le_of_parse h
  parse_text_of_nesting_le layout hkeys hnesting

end Json

end Dialects
