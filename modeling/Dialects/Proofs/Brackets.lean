import Mathlib

/-!
# Nesting

How deep trees are, and how many brackets are open at a time.
-/

namespace Dialects

/-! ## Depths of trees

A node is one level deeper than the deepest of its children.
-/

def depthOver (depths : List Nat) : Nat := depths.foldr max 0 + 1

theorem depthOver_le {depths : List Nat} {limit : Nat} :
    depthOver depths ≤ limit ↔ ∃ n, limit = n + 1 ∧ ∀ d ∈ depths, d ≤ n := by
  have hmax (n : Nat) : depths.foldr max 0 ≤ n ↔ ∀ d ∈ depths, d ≤ n := by
    induction depths with
    | nil => simp
    | cons d depths ih => simp [ih]
  constructor
  · intro h
    simp only [depthOver] at h
    exact ⟨limit - 1, by omega, (hmax _).mp (by omega)⟩
  · rintro ⟨n, rfl, h⟩
    exact Nat.succ_le_succ ((hmax n).mpr h)

/-! ## Open brackets

In a list where some elements open a bracket and others close one, how many are open at a time.
-/

variable {σ : Type} {opens closes : σ → Bool} {limit : Nat} {s : σ} {ss rs : List σ}

/-- Whether at most `limit` brackets are open at any point. -/
def OpenWithin (opens closes : σ → Bool) (limit : Nat) (ss : List σ) : Prop :=
  ∀ before, before <+: ss → before.countP opens ≤ before.countP closes + limit

theorem openWithin_cons : OpenWithin opens closes limit (s :: ss) ↔ ∀ before, before <+: ss →
    (s :: before).countP opens ≤ (s :: before).countP closes + limit := by
  constructor
  · intro h before hbefore
    exact h _ ((List.prefix_cons_inj s).mpr hbefore)
  · intro h before hbefore
    obtain rfl | ⟨behind, rfl, hbehind⟩ := List.prefix_cons_iff.mp hbefore
    · exact Nat.zero_le _
    · exact h behind hbehind

theorem openWithin_cons_of_neither (hopens : opens s = false) (hcloses : closes s = false) :
    OpenWithin opens closes limit (s :: ss) ↔ OpenWithin opens closes limit ss := by
  rw [openWithin_cons]
  simp only [List.countP_cons, hopens, hcloses, Bool.false_eq_true, if_false, Nat.add_zero]
  rfl

theorem openWithin_singleton (hopens : opens s = false) : OpenWithin opens closes limit [s] := by
  intro before hbefore
  have hzero : before.countP opens = 0 := by
    refine List.countP_eq_zero.mpr fun r hr => ?_
    obtain rfl := List.mem_singleton.mp (hbefore.subset hr)
    simp [hopens]
  omega

theorem openWithin_append (h : ss.countP opens = ss.countP closes) :
    OpenWithin opens closes limit (ss ++ rs) ↔
      OpenWithin opens closes limit ss ∧ OpenWithin opens closes limit rs := by
  have happend (before : List σ) :
      (ss ++ before).countP opens ≤ (ss ++ before).countP closes + limit ↔
        before.countP opens ≤ before.countP closes + limit := by
    rw [List.countP_append, List.countP_append]
    omega
  constructor
  · intro hall
    constructor
    · intro before hbefore
      exact hall before (hbefore.trans (List.prefix_append ss rs))
    · intro before hbefore
      exact (happend before).mp (hall _ ((List.prefix_append_right_inj ss).mpr hbefore))
  · rintro ⟨hss, hrs⟩ before hbefore
    -- A beginning ends in the first part, or it has all of that in it.
    obtain hinside | ⟨behind, rfl⟩ :=
      List.prefix_or_prefix_of_prefix hbefore (List.prefix_append ss rs)
    · exact hss before hinside
    · exact (happend behind).mpr (hrs behind ((List.prefix_append_right_inj ss).mp hbefore))

theorem openWithin_bracketed {opener closer : σ} (hopener : opens opener ∧ closes opener = false)
    (hcloser : opens closer = false) (h : ss.countP opens = ss.countP closes) :
    OpenWithin opens closes limit (opener :: (ss ++ [closer])) ↔
      ∃ n, limit = n + 1 ∧ OpenWithin opens closes n ss := by
  have hinner (n : Nat) :
      OpenWithin opens closes n (ss ++ [closer]) ↔ OpenWithin opens closes n ss := by
    rw [openWithin_append h]
    exact and_iff_left (openWithin_singleton hcloser)
  rw [openWithin_cons]
  simp only [List.countP_cons, hopener, if_true, Bool.false_eq_true, if_false, Nat.add_zero]
  constructor
  · intro hall
    -- The opener alone takes a level.
    have hfirst : 0 + 1 ≤ 0 + limit := hall [] List.nil_prefix
    obtain ⟨n, rfl⟩ : ∃ n, limit = n + 1 := ⟨limit - 1, by omega⟩
    refine ⟨n, rfl, (hinner n).mp fun before hbefore => ?_⟩
    have := hall before hbefore
    omega
  · rintro ⟨n, rfl, hss⟩ before hbefore
    have := (hinner n).mpr hss before hbefore
    omega

end Dialects
