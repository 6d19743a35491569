import Dialects.Proofs.Expr.Beginning

/-!
# Places between symbols

Symbols are followed with a stack of what has been begun. They lead nowhere if nothing goes on with
them, and otherwise they tell whether an operand is due and how much has been begun.
-/

namespace Dialects.Expr

/-! ## Places -/

/-- What has been begun: a group, or an operand with the least power of the operators in it. -/
inductive Level
  | group
  | operand (power : Nat)
deriving DecidableEq

/-- Whether an operator of some power is no longer part of what has been begun. -/
def Level.endsAt (power : Nat) : Level → Bool
  | group => false
  | operand least => power < least

/-- Whether an operand is due, and what has been begun, from the inside out. -/
structure Place where
  due : Bool
  levels : List Level

namespace Place

def step (p : Place) (k : Kind) : Option Place :=
  if p.due then (Table.arithmetic.opening k).map fun
    | .number => ⟨false, p.levels⟩
    | .sign => ⟨true, .operand signPower :: p.levels⟩
    | .group => ⟨true, .group :: p.levels⟩
  else
    match Table.arithmetic.binding k with
    | some b => some ⟨true, .operand b.rightPower :: p.levels.dropWhile (·.endsAt b.power)⟩
    | none =>
      match k, p.levels.dropWhile (· ≠ .group) with
      | .closeParen, _ :: outer => some ⟨false, outer⟩
      | _, _ => none

def scan (p : Place) (ss : List Symbol) : Option Place := ss.foldlM (fun p s => p.step s.kind) p

theorem scan_nil (p : Place) : p.scan [] = some p := rfl

theorem scan_cons (p : Place) (s : Symbol) (ss : List Symbol) :
    p.scan (s :: ss) = (p.step s.kind).bind fun q => q.scan ss := rfl

theorem scan_append (p : Place) (ss rs : List Symbol) :
    p.scan (ss ++ rs) = (p.scan ss).bind fun q => q.scan rs := by
  simp [scan, List.foldlM_append]

theorem scan_concat (p : Place) (ss : List Symbol) (s : Symbol) :
    p.scan (ss ++ [s]) = (p.scan ss).bind fun q => q.step s.kind := by
  rw [scan_append]
  refine congrArg _ (funext fun q => ?_)
  rw [scan_cons]
  cases q.step s.kind <;> rfl

theorem step_of_sign {k : Kind} (hk : k = .plus ∨ k = .dash) (ls : List Level) :
    (⟨true, ls⟩ : Place).step k = some ⟨true, .operand signPower :: ls⟩ := by
  rcases hk with rfl | rfl <;> rfl

theorem step_openParen (ls : List Level) :
    (⟨true, ls⟩ : Place).step .openParen = some ⟨true, .group :: ls⟩ := rfl

theorem step_of_binding {k : Kind} {b : Binding} (hb : Table.arithmetic.binding k = some b)
    (ls : List Level) : (⟨false, ls⟩ : Place).step k =
      some ⟨true, .operand b.rightPower :: ls.dropWhile (·.endsAt b.power)⟩ := by
  simp [step, hb]

theorem step_closeParen (ls : List Level) : (⟨false, ls⟩ : Place).step .closeParen =
    match ls.dropWhile (· ≠ .group) with
    | _ :: outer => some ⟨false, outer⟩
    | [] => none := by
  simp only [step, binding_arithmetic]
  cases ls.dropWhile (· ≠ .group) <;> rfl

theorem due_of_step {p q : Place} {k : Kind} (h : p.step k = some q) :
    q.due = false ↔ k = .number ∨ k = .closeParen := by
  obtain ⟨due, ls⟩ := p
  cases due with
  | true => cases k <;> simp [step, opening_arithmetic] at h <;> simp [← h]
  | false =>
    by_cases hk : k = .closeParen
    · rw [hk, step_closeParen] at h
      split at h
      · obtain rfl := Option.some.inj h
        simp [hk]
      · simp at h
    · cases k <;> simp [step, binding_arithmetic] at h hk <;> simp [← h]

def groups (p : Place) : Nat := p.levels.count .group

theorem count_dropWhile_endsAt (power : Nat) (ls : List Level) :
    (ls.dropWhile (·.endsAt power)).count .group = ls.count .group := by
  induction ls with
  | nil => rfl
  | cons l ls ih =>
    rw [List.dropWhile_cons]
    split_ifs with hl
    · cases l <;> simp_all [Level.endsAt]
    · rfl

theorem count_dropWhile_group (ls : List Level) :
    (ls.dropWhile (· ≠ .group)).count .group = ls.count .group := by
  induction ls with
  | nil => rfl
  | cons l ls ih =>
    rw [List.dropWhile_cons]
    split_ifs with hl
    · rw [ih, List.count_cons_of_ne (by simpa using hl)]
    · rfl

theorem groups_of_step {p q : Place} {k : Kind} (h : p.step k = some q) :
    q.groups + (if k = .closeParen then 1 else 0) = p.groups + if k = .openParen then 1 else 0 := by
  obtain ⟨due, ls⟩ := p
  cases due with
  | true => cases k <;> simp [step, opening_arithmetic] at h <;> simp [← h, groups]
  | false =>
    by_cases hk : k = .closeParen
    · rw [hk, step_closeParen] at h
      split at h
      · rename_i l outer hdrop
        obtain rfl := Option.some.inj h
        have hhead := List.head?_dropWhile_not (· ≠ .group) ls
        rw [hdrop] at hhead
        obtain rfl : l = .group := by simpa using hhead
        have hcount := count_dropWhile_group ls
        rw [hdrop, List.count_cons_self] at hcount
        simp [hk, groups, hcount]
      · simp at h
    · cases k <;> simp [step, binding_arithmetic] at h hk <;> simp [← h, groups, count_dropWhile_endsAt]

theorem groups_of_scan {p q : Place} {ss : List Symbol} (h : p.scan ss = some q) :
    q.groups + (ss.countP fun s => s.kind = .closeParen) =
      p.groups + ss.countP fun s => s.kind = .openParen := by
  induction ss generalizing p with
  | nil =>
    obtain rfl := Option.some.inj h
    rfl
  | cons s ss ih =>
    rw [scan_cons, Option.bind_eq_some_iff] at h
    obtain ⟨p', hstep, hscan⟩ := h
    have hfirst := groups_of_step hstep
    have hrest := ih hscan
    simp only [List.countP_cons, decide_eq_true_eq]
    omega

end Place

/-! ## Derived symbols -/

/-- Whether what is open ends no earlier than what a category derives. -/
def Holds (c : Category) (ls : List Level) : Prop :=
  ∀ power, ls.head? = some (.operand power) → power ≤ c.tightness

theorem Holds.mono {c d : Category} {ls : List Level} (h : Holds d ls)
    (hle : d.tightness ≤ c.tightness) : Holds c ls := fun power hp => (h power hp).trans hle

theorem holds_operand {c : Category} {power : Nat} (h : power ≤ c.tightness) (ls : List Level) :
    Holds c (.operand power :: ls) := by
  intro least hleast
  obtain rfl : power = least := by simpa using hleast
  exact h

theorem holds_group (c : Category) (ls : List Level) : Holds c (.group :: ls) := by
  intro power hpower
  simp at hpower

/-- Whether what has been begun ends with each operator that may stand behind what a category
derives. -/
def Level.EndsWith (c : Category) (l : Level) : Prop := ∃ power, l = .operand power ∧
  ∀ k b, Table.arithmetic.binding k = some b → b.leftPower ≤ c.tightness → b.power < power

theorem Level.EndsWith.mono {c d : Category} {l : Level} (h : l.EndsWith c)
    (hle : d.tightness ≤ c.tightness) : l.EndsWith d := by
  obtain ⟨power, rfl, hpower⟩ := h
  exact ⟨power, rfl, fun k b hb hd => hpower k b hb (hd.trans hle)⟩

theorem Level.EndsWith.ne_group {c : Category} {l : Level} (h : l.EndsWith c) : l ≠ .group := by
  obtain ⟨power, rfl, -⟩ := h
  simp

namespace Place

theorem step_operator {k : Kind} {b : Binding} {c e : Category} {inner ls : List Level}
    (hb : Table.arithmetic.binding k = some b) (hinner : ∀ l ∈ inner, l.EndsWith c)
    (hc : b.leftPower ≤ c.tightness) (hls : Holds e ls) (he : e.tightness = b.power) :
    (⟨false, inner ++ ls⟩ : Place).step k = some ⟨true, .operand b.rightPower :: ls⟩ := by
  -- What has been begun in the left operand is tight enough to end here.
  have hends : ∀ l ∈ inner, l.endsAt b.power := by
    intro l hl
    obtain ⟨power, rfl, hpower⟩ := hinner l hl
    exact decide_eq_true (hpower k b hb hc)
  -- What is open around the operation is not.
  have hstays : ls.dropWhile (·.endsAt b.power) = ls := by
    cases ls with
    | nil => rfl
    | cons l ls =>
      refine List.dropWhile_cons_of_neg ?_
      cases l with
      | group => simp [Level.endsAt]
      | operand power =>
        have := hls power rfl
        simp only [Level.endsAt, decide_eq_true_eq]
        omega
  rw [step_of_binding hb, List.dropWhile_append_of_pos hends, hstays]

theorem step_closeParen_group {c : Category} {inner : List Level}
    (hinner : ∀ l ∈ inner, l.EndsWith c) (ls : List Level) :
    (⟨false, inner ++ .group :: ls⟩ : Place).step .closeParen = some ⟨false, ls⟩ := by
  have hdrop : (inner ++ .group :: ls).dropWhile (· ≠ .group) = .group :: ls := by
    rw [List.dropWhile_append_of_pos fun l hl => by simpa using (hinner l hl).ne_group]
    simp
  rw [step_closeParen, hdrop]

end Place

theorem Derives.exists_scan {c : Category} {ss : List Symbol} {t : Tree} (h : Derives c ss t)
    {ls : List Level} (hls : Holds c ls) : ∃ inner,
      (⟨true, ls⟩ : Place).scan ss = some ⟨false, inner ++ ls⟩ ∧ ∀ l ∈ inner, l.EndsWith c := by
  induction h using Derives.induction_operation generalizing ls with
  | loosen h hle ih =>
    obtain ⟨inner, hscan, hinner⟩ := ih (hls.mono hle)
    exact ⟨inner, hscan, fun l hl => (hinner l hl).mono hle⟩
  | @operation s o b c d e _ rs l r ho hb hl hc hr hd he h ihl ihr =>
    have hec : e.tightness ≤ c.tightness := he ▸ b.power_le_leftPower.trans hc
    have hed : e.tightness ≤ d.tightness := he ▸ b.power_le_rightPower.trans hd
    obtain ⟨inner, hleft, hinner⟩ := ihl (hls.mono hec)
    obtain ⟨inner', hright, hinner'⟩ := ihr (holds_operand hd ls)
    -- The operator itself ends only with what may stand behind its whole operation.
    have hlast : (Level.operand b.rightPower).EndsWith e :=
      ⟨_, rfl, fun k b' hb' hle => (power_lt_rightPower_iff hb hb').mpr (he ▸ hle)⟩
    refine ⟨inner' ++ [.operand b.rightPower], ?_, ?_⟩
    · rw [Place.scan_append, hleft, Option.bind_some, Place.scan_cons,
        Place.step_operator hb hinner hc hls he, Option.bind_some, hright, List.append_assoc]
      rfl
    · exact List.forall_mem_append.mpr
        ⟨fun l hl => (hinner' l hl).mono hed, List.forall_mem_singleton.mpr hlast⟩
  | @signed s negative ss t hs h ih =>
    have hsign : s.kind = .plus ∨ s.kind = .dash := hs.imp And.left And.left
    obtain ⟨inner, hscan, hinner⟩ := ih (holds_operand le_rfl ls)
    -- The operand of a sign ends with every operator.
    have hlast : (Level.operand signPower).EndsWith .unary :=
      ⟨_, rfl, fun k b hb _ => power_lt_signPower hb⟩
    refine ⟨inner ++ [.operand signPower], ?_, ?_⟩
    · rw [Place.scan_cons, Place.step_of_sign hsign, Option.bind_some]
      exact hscan.trans (by simp [Category.tightness])
    · exact List.forall_mem_append.mpr ⟨hinner, List.forall_mem_singleton.mpr hlast⟩
  | @number s hs =>
    refine ⟨[], ?_, by simp⟩
    rw [Place.scan_cons, hs]
    rfl
  | @group opening closing ss t hopening hclosing h ih =>
    obtain ⟨inner, hscan, hinner⟩ := ih (holds_group .sum ls)
    refine ⟨[], ?_, by simp⟩
    rw [Place.scan_cons, hopening, Place.step_openParen, Option.bind_some, Place.scan_concat, hscan,
      Option.bind_some, hclosing, Place.step_closeParen_group hinner]
    rfl

theorem Begins.exists_scan {c : Category} {ss : List Symbol} {n : Nat} (h : Begins c ss n)
    {ls : List Level} (hls : Holds c ls) : ∃ begun,
      (⟨true, ls⟩ : Place).scan ss = some ⟨true, begun ++ ls⟩ ∧ begun.length = n := by
  induction h using Begins.induction_operation generalizing ls with
  | start c => exact ⟨[], rfl, rfl⟩
  | loosen h hle ih => exact ih (hls.mono hle)
  | @operation s b c d e _ rs l n hb hl hc hr hd he h ih =>
    have hec : e.tightness ≤ c.tightness := he ▸ b.power_le_leftPower.trans hc
    obtain ⟨inner, hleft, hinner⟩ := hl.exists_scan (hls.mono hec)
    obtain ⟨begun, hright, hlength⟩ := ih (holds_operand hd ls)
    refine ⟨begun ++ [.operand b.rightPower], ?_, by simp [hlength]⟩
    rw [Place.scan_append, hleft, Option.bind_some, Place.scan_cons,
      Place.step_operator hb hinner hc hls he, Option.bind_some, hright, List.append_assoc]
    rfl
  | @signed s ss n hs h ih =>
    obtain ⟨begun, hscan, hlength⟩ := ih (holds_operand le_rfl ls)
    refine ⟨begun ++ [.operand signPower], ?_, by simp [hlength]⟩
    rw [Place.scan_cons, Place.step_of_sign hs, Option.bind_some]
    exact hscan.trans (by simp [Category.tightness])
  | @group opening ss n hopening h ih =>
    obtain ⟨begun, hscan, hlength⟩ := ih (holds_group .sum ls)
    refine ⟨begun ++ [.group], ?_, by simp [hlength]⟩
    rw [Place.scan_cons, hopening, Place.step_openParen, Option.bind_some, hscan, List.append_assoc]
    rfl

/-! ## Places behind symbols -/

/-- Where symbols lead to from the beginning. -/
def placeBehind (ss : List Symbol) : Option Place := (⟨true, []⟩ : Place).scan ss

theorem holds_nil (c : Category) : Holds c [] := by
  intro power hpower
  simp at hpower

theorem placeBehind_of_begins {ss : List Symbol} {n : Nat} (h : Begins .sum ss n) :
    ∃ begun, placeBehind ss = some ⟨true, begun⟩ ∧ begun.length = n := by
  obtain ⟨begun, hscan, hlength⟩ := h.exists_scan (holds_nil .sum)
  rw [List.append_nil] at hscan
  exact ⟨begun, hscan, hlength⟩

theorem Begins.unique {ss : List Symbol} {m n : Nat} (hm : Begins .sum ss m)
    (hn : Begins .sum ss n) : m = n := by
  obtain ⟨begun, hscan, hlength⟩ := placeBehind_of_begins hm
  obtain ⟨begun', hscan', hlength'⟩ := placeBehind_of_begins hn
  obtain rfl : begun = begun' := by simpa [hscan] using hscan'
  omega

theorem Begins.not_begins_of_lt {ss : List Symbol} {m n : Nat} (hm : Begins .sum ss m)
    (hlt : m < n) : ¬Begins .sum ss n := by
  intro hn
  have := hm.unique hn
  omega

theorem not_begins_of_placeBehind {ss : List Symbol} {ls : List Level}
    (h : placeBehind ss = some ⟨false, ls⟩) (n : Nat) : ¬Begins .sum ss n := by
  intro hbegins
  obtain ⟨begun, hplace, -⟩ := placeBehind_of_begins hbegins
  simp [h] at hplace

theorem placeBehind_of_isExpression {ss : List Symbol} (h : IsExpression ss) :
    ∃ ls, placeBehind ss = some ⟨false, ls⟩ ∧ .group ∉ ls := by
  obtain ⟨tree, hderives⟩ := h
  obtain ⟨inner, hscan, hinner⟩ := hderives.exists_scan (holds_nil .sum)
  rw [List.append_nil] at hscan
  exact ⟨inner, hscan, fun hmem => (hinner _ hmem).ne_group rfl⟩

theorem placeBehind_of_group {before inner : List Symbol} {opening : Symbol} {n : Nat} {t : Tree}
    (h : Begins .sum before n) (hopening : opening.kind = .openParen) (hinner : Derives .sum inner t) :
    ∃ ls, placeBehind (before ++ opening :: inner) = some ⟨false, ls⟩ ∧ .group ∈ ls := by
  obtain ⟨begun, hscan, -⟩ := placeBehind_of_begins h
  obtain ⟨ls, hscan', -⟩ := hinner.exists_scan (holds_group .sum begun)
  refine ⟨ls ++ .group :: begun, ?_, by simp⟩
  rw [placeBehind] at hscan ⊢
  rw [Place.scan_append, hscan, Option.bind_some, Place.scan_cons, hopening, Place.step_openParen,
    Option.bind_some, hscan']

theorem exists_placeBehind_of_canContinue {ss : List Symbol} (h : CanContinue ss) :
    ∃ p, placeBehind ss = some p := by
  obtain ⟨more, hexpression⟩ := h
  obtain ⟨ls, hscan, -⟩ := placeBehind_of_isExpression hexpression
  rw [placeBehind, Place.scan_append, Option.bind_eq_some_iff] at hscan
  obtain ⟨p, hp, -⟩ := hscan
  exact ⟨p, hp⟩

section

variable {ss : List Symbol} {s : Symbol} {p : Place} (h : placeBehind ss = some p)

include h

theorem not_canContinue_of_step (hs : p.step s.kind = none) : ¬CanContinue (ss ++ [s]) := by
  intro hcontinue
  obtain ⟨q, hq⟩ := exists_placeBehind_of_canContinue hcontinue
  rw [placeBehind, Place.scan_concat, show Place.scan _ ss = some p from h, Option.bind_some, hs] at hq
  simp at hq

theorem opensGroup_iff : OpensGroup ss ↔ .group ∈ p.levels := by
  have hgroups := Place.groups_of_scan h
  rw [OpensGroup, ← List.count_pos_iff]
  simp only [Place.groups, List.count_nil] at hgroups
  omega

theorem due_of_endsInOperand (hend : EndsInOperand ss) : p.due = false := by
  obtain ⟨before, operand, tree, rfl, hoperand⟩ := hend
  -- Only the last symbol matters, and the operand alone is an expression with the same.
  obtain ⟨ls, hscan, -⟩ := placeBehind_of_isExpression ⟨tree, hoperand.loosen (by decide)⟩
  cases operand using List.reverseRecOn with
  | nil => simp [placeBehind, Place.scan_nil] at hscan
  | append_singleton operand last =>
    rw [← List.append_assoc] at h
    rw [placeBehind, Place.scan_concat, Option.bind_eq_some_iff] at h hscan
    obtain ⟨q, -, hstep⟩ := h
    obtain ⟨q', -, hstep'⟩ := hscan
    exact (Place.due_of_step hstep).mpr ((Place.due_of_step hstep').mp rfl)

end

theorem Place.step_eq_none_of_opening {k : Kind} (hk : Table.arithmetic.opening k = none)
    (ls : List Level) : (⟨true, ls⟩ : Place).step k = none := by
  simp [step, hk]

theorem Place.step_eq_none_of_binding {k : Kind} (hk : Table.arithmetic.binding k = none)
    {ls : List Level} (hls : k = .closeParen → .group ∉ ls) : (⟨false, ls⟩ : Place).step k = none := by
  by_cases hclose : k = .closeParen
  · have hdrop : ls.dropWhile (· ≠ .group) = [] := by
      refine List.dropWhile_eq_nil_iff.mpr fun l hl => decide_eq_true ?_
      rintro rfl
      exact hls hclose hl
    rw [hclose, step_closeParen, hdrop]
  · simp only [step, hk]
    cases k <;> simp_all

end Dialects.Expr
