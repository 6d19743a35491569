import Mathlib
import Dialects.Text.Cursor

/-!
# Runs of characters

A lexeme is the longest run of a class of characters. Where the run is known, this says where it
stops.
-/

namespace Dialects.Text

/-- Whether a text does not go on with a character of a class. -/
def Stops (p : Char → Bool) (cs : List Char) : Prop := ∀ c ∈ cs.head?, p c = false

variable {p : Char → Bool} {cs ds : List Char}

@[simp] theorem stops_nil : Stops p [] := by simp [Stops]

@[simp] theorem stops_cons {c : Char} : Stops p (c :: cs) ↔ p c = false := by simp [Stops]

theorem Stops.mono {q : Char → Bool} (h : Stops p cs) (hq : ∀ c, q c → p c) : Stops q cs := by
  intro c hc
  have hp := h c hc
  by_contra hne
  simp [hq c (by simpa using hne)] at hp

theorem stops_dropWhile (p : Char → Bool) (cs : List Char) : Stops p (cs.dropWhile p) := by
  have h := List.head?_dropWhile_not p cs
  intro c hc
  rw [Option.mem_def] at hc
  simpa [hc] using h

theorem stops_of_takeWhile_eq_nil (h : cs.takeWhile p = []) : Stops p cs := by
  cases cs with
  | nil => simp
  | cons c cs => cases hc : p c <;> simp [hc] at h ⊢

theorem takeWhile_append_of_stops (hc : ∀ c ∈ cs, p c) (hd : Stops p ds) :
    (cs ++ ds).takeWhile p = cs := by
  rw [List.takeWhile_append_of_pos hc]
  cases ds with
  | nil => simp
  | cons d ds => simp [stops_cons.mp hd]

theorem dropWhile_append_of_stops (hc : ∀ c ∈ cs, p c) (hd : Stops p ds) :
    (cs ++ ds).dropWhile p = ds := by
  rw [List.dropWhile_append_of_pos hc]
  cases ds with
  | nil => simp
  | cons d ds => simp [stops_cons.mp hd]

theorem drop_length_takeWhile (p : Char → Bool) (cs : List Char) :
    cs.drop (cs.takeWhile p).length = cs.dropWhile p := by
  induction cs with
  | nil => rfl
  | cons c cs ih => cases h : p c <;> simp [h, ih]

theorem takeWhile_append_cons {α : Type} {p : α → Bool} {a : α} (ha : p a = false)
    (xs ys : List α) : (xs ++ a :: ys).takeWhile p = xs.takeWhile p := by
  induction xs with
  | nil => simp [ha]
  | cons x xs ih => cases hx : p x <;> simp [hx, ih]

theorem dropWhile_append_cons {α : Type} {p : α → Bool} {a : α} (ha : p a = false)
    (xs ys : List α) : (xs ++ a :: ys).dropWhile p = xs.dropWhile p ++ a :: ys := by
  induction xs with
  | nil => simp [ha]
  | cons x xs ih => cases hx : p x <;> simp [hx, ih]

theorem isDigit_iff {c : Char} : c.isDigit ↔ 48 ≤ c.toNat ∧ c.toNat ≤ 57 := by
  simp only [Char.isDigit, Bool.and_eq_true, decide_eq_true_eq, UInt32.le_iff_toNat_le]
  rfl

theorem isBlank_of_isDigit {c : Char} (h : c.isDigit) : isBlank c = false := by
  rw [isDigit_iff] at h
  simp [isBlank]
  omega

theorem isAlpha_iff {c : Char} :
    c.isAlpha ↔ 65 ≤ c.toNat ∧ c.toNat ≤ 90 ∨ 97 ≤ c.toNat ∧ c.toNat ≤ 122 := by
  simp only [Char.isAlpha, Char.isUpper, Char.isLower, Bool.or_eq_true, Bool.and_eq_true,
    decide_eq_true_eq, UInt32.le_iff_toNat_le]
  rfl

theorem isBlank_of_isAlpha {c : Char} (h : c.isAlpha) : isBlank c = false := by
  rw [isAlpha_iff] at h
  simp [isBlank]
  omega

theorem Stops.prefix_mono (h : Stops p ds) (hc : cs <+: ds) : Stops p cs := by
  obtain ⟨es, rfl⟩ := hc
  cases cs with
  | nil => simp
  | cons c cs => exact h

/-! ## Trimming -/

/-- Whether a text neither starts nor ends with a blank. -/
def IsTrimmed (cs : List Char) : Prop := Stops isBlank cs ∧ Stops isBlank cs.reverse

theorem isTrimmed_of_forall (h : ∀ c ∈ cs, isBlank c = false) : IsTrimmed cs :=
  ⟨fun c hc => h c (List.mem_of_mem_head? hc),
    fun c hc => h c (List.mem_reverse.mp (List.mem_of_mem_head? hc))⟩

theorem trimEnd_prefix_self (cs : List Char) : trimEnd cs <+: cs := by
  rw [trimEnd, ← List.reverse_suffix, List.reverse_reverse]
  exact List.dropWhile_suffix _

theorem isTrimmed_trim (cs : List Char) : IsTrimmed (trim cs) := by
  refine ⟨(stops_dropWhile _ _).prefix_mono (trimEnd_prefix_self _), ?_⟩
  rw [trim, trimEnd, List.reverse_reverse]
  exact stops_dropWhile _ _

theorem mem_of_mem_trim {c : Char} (h : c ∈ trim cs) : c ∈ cs :=
  (List.dropWhile_suffix _).subset ((trimEnd_prefix_self _).subset h)

theorem trim_ne_nil {c : Char} (hc : c ∈ cs) (h : isBlank c = false) : trim cs ≠ [] := by
  intro hnil
  have hend : ∀ d ∈ (trimStart cs).reverse, isBlank d :=
    List.dropWhile_eq_nil_iff.mp (List.reverse_eq_nil_iff.mp hnil)
  have hmem : c ∈ cs.takeWhile isBlank ++ cs.dropWhile isBlank := by
    rwa [List.takeWhile_append_dropWhile]
  rcases List.mem_append.mp hmem with hmem | hmem
  · simp [List.mem_takeWhile_imp hmem] at h
  · simp [hend c (List.mem_reverse.mpr hmem)] at h

theorem trim_dropWhile (cs : List Char) : trim (cs.dropWhile isBlank) = trim cs := by
  rw [trim, trimStart, List.dropWhile_idempotent]
  rfl

theorem trim_append_blanks (hc : IsTrimmed cs) (hd : ∀ c ∈ ds, isBlank c) :
    trim (cs ++ ds) = cs := by
  have hend : trimEnd (cs ++ ds) = cs := by
    rw [trimEnd, List.reverse_append,
      dropWhile_append_of_stops (by simpa using hd) hc.2, List.reverse_reverse]
  cases cs with
  | nil =>
    have hstart : trimStart ds = [] := List.dropWhile_eq_nil_iff.mpr hd
    rw [List.nil_append, trim, hstart]
    rfl
  | cons c cs =>
    have hstart : trimStart (c :: cs ++ ds) = c :: cs ++ ds := by
      have hblank : isBlank c = false := stops_cons.mp hc.1
      simp [trimStart, hblank]
    rw [trim, hstart, hend]

theorem trim_ne_nil_iff : trim cs ≠ [] ↔ ∃ c ∈ cs, isBlank c = false := by
  constructor
  · contrapose!
    intro h
    have htrim : trim ([] ++ cs) = [] :=
      trim_append_blanks (by simp [IsTrimmed]) (by simpa using h)
    simpa using htrim
  · rintro ⟨c, hc, hblank⟩
    exact trim_ne_nil hc hblank

theorem trimEnd_append_cons {d : Char} (hd : isBlank d = false) (cs ds : List Char) :
    trimEnd (cs ++ d :: ds) = cs ++ d :: trimEnd ds := by
  rw [trimEnd, trimEnd, List.reverse_append, List.reverse_cons, List.append_assoc,
    List.singleton_append, dropWhile_append_cons hd]
  simp

theorem exists_blanks_of_trim (h : Stops isBlank cs) :
    ∃ blanks, cs = trim cs ++ blanks ∧ ∀ b ∈ blanks, isBlank b := by
  have hstart : trimStart cs = cs := by
    cases cs with
    | nil => rfl
    | cons c cs => simp [trimStart, stops_cons.mp h]
  refine ⟨(cs.reverse.takeWhile isBlank).reverse, ?_, ?_⟩
  · rw [trim, hstart, trimEnd, ← List.reverse_append, List.takeWhile_append_dropWhile,
      List.reverse_reverse]
  · intro b hb
    exact List.mem_takeWhile_imp (List.mem_reverse.mp hb)

theorem trim_of_isTrimmed (h : IsTrimmed cs) : trim cs = cs := by
  simpa using trim_append_blanks h (List.forall_mem_nil _)

/-! ## Line breaks -/

theorem isBlank_of_mem_lineBreak {layout : Layout} {depth : Nat} {c : Char}
    (h : c ∈ layout.lineBreak depth) : isBlank c := by
  cases layout with
  | compact => simp [Layout.lineBreak] at h
  | indented =>
    rcases List.mem_cons.mp h with rfl | h
    · rfl
    · obtain rfl := List.eq_of_mem_replicate h
      rfl

/-! ## Offsets -/

theorem dropBytes?_byteLength (before after : List Char) :
    dropBytes? (byteLength before) (before ++ after) = some after := by
  induction before with
  | nil => cases after <;> simp [dropBytes?]
  | cons c before ih =>
    have hpos := c.utf8Size_pos
    rw [byteLength_cons, List.cons_append, dropBytes?, if_neg (by omega), if_pos (by omega),
      Nat.add_sub_cancel_left, ih]

theorem byteLength_pos (h : cs ≠ []) : 0 < byteLength cs := by
  obtain ⟨c, cs, rfl⟩ := List.exists_cons_of_ne_nil h
  rw [byteLength_cons]
  exact Nat.lt_add_right _ c.utf8Size_pos

/-! ## Cursors -/

namespace Cursor

theorem advance_append (offset : Nat) (cs ds : List Char) :
    (⟨offset, cs ++ ds⟩ : Cursor).advance cs.length = ⟨offset + byteLength cs, ds⟩ := by
  simp [advance]

theorem skipBlanks_append {cs ds : List Char} (hc : ∀ c ∈ cs, isBlank c) (hd : Stops isBlank ds)
    (offset : Nat) :
    (⟨offset, cs ++ ds⟩ : Cursor).skipBlanks = ⟨offset + byteLength cs, ds⟩ := by
  rw [skipBlanks, takeWhile_append_of_stops hc hd, advance_append]

theorem skipBlanks_append_skipBlanks {cs : List Char} (hc : ∀ c ∈ cs, isBlank c) (offset : Nat)
    (ds : List Char) : (⟨offset, cs ++ ds⟩ : Cursor).skipBlanks =
      (⟨offset + byteLength cs, ds⟩ : Cursor).skipBlanks := by
  have htake : ∀ c ∈ ds.takeWhile isBlank, isBlank c := fun c hmem => List.mem_takeWhile_imp hmem
  have hall : ∀ c ∈ cs ++ ds.takeWhile isBlank, isBlank c := by
    intro c hmem
    rcases List.mem_append.mp hmem with hmem | hmem
    · exact hc c hmem
    · exact htake c hmem
  have hleft := skipBlanks_append hall (stops_dropWhile isBlank ds) offset
  have hright := skipBlanks_append htake
    (stops_dropWhile isBlank ds) (offset + byteLength cs)
  rw [List.append_assoc, List.takeWhile_append_dropWhile] at hleft
  rw [List.takeWhile_append_dropWhile] at hright
  rw [hleft, hright, byteLength_append, Nat.add_assoc]

theorem skipBlanks_of_stops {c : Cursor} (h : Stops isBlank c.rest) : c.skipBlanks = c := by
  have := skipBlanks_append (List.forall_mem_nil _) h c.offset
  simpa using this

theorem stops_skipBlanks (c : Cursor) : Stops isBlank c.skipBlanks.rest := by
  rw [rest_skipBlanks]
  exact stops_dropWhile _ _

theorem skipBlanks_eq (c : Cursor) : c.skipBlanks =
    ⟨c.offset + byteLength (c.rest.takeWhile isBlank), c.rest.dropWhile isBlank⟩ := by
  have hblanks : ∀ d ∈ c.rest.takeWhile isBlank, isBlank d := fun d hd => List.mem_takeWhile_imp hd
  have hskip := skipBlanks_append hblanks (stops_dropWhile isBlank c.rest) c.offset
  rwa [List.takeWhile_append_dropWhile] at hskip

@[simp] theorem skipBlanks_skipBlanks (c : Cursor) : c.skipBlanks.skipBlanks = c.skipBlanks :=
  skipBlanks_of_stops c.stops_skipBlanks

theorem length_rest_skipBlanks_le (c : Cursor) : c.skipBlanks.rest.length ≤ c.rest.length := by
  rw [rest_skipBlanks]
  exact (List.dropWhile_sublist _).length_le

theorem length_rest_advance_lt {c : Cursor} {k : Nat} (hc : c.rest ≠ []) (hk : 0 < k) :
    (c.advance k).rest.length < c.rest.length := by
  have := List.length_pos_of_ne_nil hc
  rw [rest_advance, List.length_drop]
  omega

end Cursor

end Dialects.Text
