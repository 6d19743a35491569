import Dialects.Markup.Document
import Dialects.Markup.Value
import Dialects.Proofs.Brackets
import Dialects.Proofs.Text

/-!
# Markup values as trees

The values that survive being written and read: their texts are spelled in one way, and no two of
their children run together.
-/

namespace Dialects.Markup

open Dialects.Text

/-- Whether a text stands for itself between brackets. -/
def IsPlain (cs : List Char) : Prop := cs ≠ [] ∧ IsTrimmed cs ∧ ∀ c ∈ cs, isBracket c = false

namespace Value

/-! ## Folds -/

section Fold

variable {α : Type} (leaf : Value → α) (onTag : String → List Value → List α → α)

mutual

/-- What is made of a value, from its children and what is made of them. -/
def fold : Value → α
  | tagged name children => onTag name children (foldAll children)
  | v => leaf v

def foldAll : List Value → List α
  | [] => []
  | v :: vs => fold v :: foldAll vs

end

theorem fold_tagged (name : String) (children : List Value) :
    fold leaf onTag (tagged name children) =
      onTag name children (children.map (fold leaf onTag)) := by
  have hall : foldAll leaf onTag children = children.map (fold leaf onTag) := by
    induction children with
    | nil => rfl
    | cons v vs ih => rw [foldAll, ih, List.map_cons]
  rw [fold, hall]

theorem fold_leaf {v : Value} (hv : v.isTag = false) : fold leaf onTag v = leaf v := by
  cases v with
  | tagged name children => simp [isTag] at hv
  | _ => rfl

end Fold

theorem induction {P : Value → Prop} (leaf : ∀ v, v.isTag = false → P v)
    (tagged : ∀ name children, (∀ v ∈ children, P v) → P (tagged name children)) (v : Value) :
    P v :=
  @Value.rec P (fun children => ∀ v ∈ children, P v) (leaf _ rfl) (fun _ => leaf _ rfl)
    (fun _ => leaf _ rfl) (fun _ => leaf _ rfl) tagged (by simp) (by simp +contextual) v

/-! ## Canonical values -/

inductive Everywhere (P : Value → Prop) : Value → Prop
  | leaf {v : Value} (hv : v.isTag = false) (h : P v) : Everywhere P v
  | tagged {name : String} {children : List Value} (h : P (tagged name children))
    (hchildren : ∀ v ∈ children, Everywhere P v) : Everywhere P (tagged name children)

/-- Whether the name of a tag, if this is one, is plain and does not start with a slash. -/
def HasName : Value → Prop
  | tagged name _ => IsPlain name.toList ∧ name.toList.head? ≠ some '/'
  | _ => True

/-- Whether a string, if this is one, is plain and spells no other leaf. -/
def HasText : Value → Prop
  | string text => IsPlain text.toList ∧ Symbol.ofText text.toList = .string text
  | _ => True

/-- Whether a tag, if this is one, has no two leaves next to one another. -/
def LeavesApart : Value → Prop
  | tagged _ children => children.IsChain fun a b => a.isTag ∨ b.isTag
  | _ => True

def tagNames (children : List Value) : List String :=
  (children.filterMap asTag?).map Tag.name

/-- Whether a tag, if this is one, has no two child tags of one name. -/
def NamesDistinct : Value → Prop
  | tagged _ children => (tagNames children).Nodup
  | _ => True

def nesting : Value → Nat := fold (fun _ => 0) fun _ _ depths => depthOver depths

def size : Value → Nat := fold (fun _ => 1) fun _ _ sizes => sizes.sum + 1

/-- Whether a value has the form in which it is read back as it was written. -/
structure IsCanonical (v : Value) : Prop where
  names : v.Everywhere HasName
  texts : v.Everywhere HasText
  apart : v.Everywhere LeavesApart
  distinct : v.Everywhere NamesDistinct
  nested : v.nesting ≤ nestingLimit

theorem everywhere_tagged {P : Value → Prop} {name : String} {children : List Value} :
    (tagged name children).Everywhere P ↔
      P (tagged name children) ∧ ∀ v ∈ children, v.Everywhere P := by
  constructor
  · rintro (⟨hv, -⟩ | ⟨h, hchildren⟩)
    · simp [isTag] at hv
    · exact ⟨h, hchildren⟩
  · rintro ⟨h, hchildren⟩
    exact .tagged h hchildren

theorem everywhere_leaf {P : Value → Prop} {v : Value} (hv : v.isTag = false) :
    v.Everywhere P ↔ P v := by
  constructor
  · rintro (⟨-, h⟩ | ⟨h, -⟩)
    · exact h
    · exact h
  · exact .leaf hv

theorem Everywhere.mono {P Q : Value → Prop} (h : ∀ v, P v → Q v) {v : Value}
    (hv : v.Everywhere P) : v.Everywhere Q := by
  induction hv with
  | leaf hleaf hv => exact .leaf hleaf (h _ hv)
  | tagged hv _ ih => exact .tagged (h _ hv) ih

theorem nesting_tagged_le {name : String} {children : List Value} {limit : Nat} :
    (tagged name children).nesting ≤ limit ↔ ∃ n, limit = n + 1 ∧ ∀ v ∈ children, v.nesting ≤ n := by
  rw [nesting, fold_tagged, depthOver_le]
  simp only [List.forall_mem_map]

theorem Everywhere.and {P Q : Value → Prop} {v : Value} (hP : v.Everywhere P)
    (hQ : v.Everywhere Q) : v.Everywhere fun w => P w ∧ Q w := by
  induction hP with
  | leaf hv h => exact .leaf hv ⟨h, (everywhere_leaf hv).mp hQ⟩
  | tagged h _ ih =>
    obtain ⟨hQ, hchildren⟩ := everywhere_tagged.mp hQ
    exact .tagged ⟨h, hQ⟩ fun w hw => ih w hw (hchildren w hw)

theorem add_nesting_tagged_le {around limit : Nat} {name : String} {children : List Value} :
    around + (tagged name children).nesting ≤ limit ↔
      around + 1 ≤ limit ∧ ∀ v ∈ children, around + 1 + v.nesting ≤ limit := by
  rw [show around + (tagged name children).nesting ≤ limit ↔
    around ≤ limit ∧ (tagged name children).nesting ≤ limit - around by omega, nesting_tagged_le]
  constructor
  · rintro ⟨hle, n, hn, hchildren⟩
    exact ⟨by omega, fun v hv => by have := hchildren v hv; omega⟩
  · rintro ⟨hle, hchildren⟩
    exact ⟨by omega, limit - around - 1, by omega,
      fun v hv => by have := hchildren v hv; omega⟩

theorem size_tagged (name : String) (children : List Value) :
    (tagged name children).size = (children.map size).sum + 1 := fold_tagged _ _ name children

theorem size_leaf {v : Value} (hv : v.isTag = false) : v.size = 1 := fold_leaf _ _ hv

end Value

end Dialects.Markup
