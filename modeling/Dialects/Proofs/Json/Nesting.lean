import Dialects.Json.Document
import Dialects.Proofs.Brackets
import Dialects.Proofs.Reader

/-!
# Nesting

At most `limit` containers are open at any point of a text exactly if every opening has room.
-/

namespace Dialects.Json

namespace Symbol

def isOpening : Symbol → Bool
  | leftBrace | leftBracket => true
  | _ => false

def isClosing : Symbol → Bool
  | rightBrace | rightBracket => true
  | _ => false

theorem opening_or_closing_or_neither (s : Symbol) :
    s.isOpening ∧ s.isClosing = false ∨ s.isOpening = false ∧ s.isClosing ∨
      s.isOpening = false ∧ s.isClosing = false := by
  cases s <;> simp [isOpening, isClosing]

end Symbol

def openings (ss : List Symbol) : Nat := ss.countP Symbol.isOpening

def closings (ss : List Symbol) : Nat := ss.countP Symbol.isClosing

/-- Whether at most `limit` containers are open at any point. -/
def NestedWithin (limit : Nat) (ss : List Symbol) : Prop :=
  ∀ before, before <+: ss → openings before ≤ closings before + limit

/-! ## Counting -/

theorem openings_cons (s : Symbol) (ss : List Symbol) :
    openings (s :: ss) = openings ss + if s.isOpening then 1 else 0 := by
  simp [openings, List.countP_cons]

theorem closings_cons (s : Symbol) (ss : List Symbol) :
    closings (s :: ss) = closings ss + if s.isClosing then 1 else 0 := by
  simp [closings, List.countP_cons]

theorem openings_append (ss rs : List Symbol) : openings (ss ++ rs) = openings ss + openings rs :=
  List.countP_append

theorem closings_append (ss rs : List Symbol) : closings (ss ++ rs) = closings ss + closings rs :=
  List.countP_append

theorem nestedWithin_cons (limit : Nat) (s : Symbol) (ss : List Symbol) :
    NestedWithin limit (s :: ss) ↔ ∀ before, before <+: ss →
      openings (s :: before) ≤ closings (s :: before) + limit := openWithin_cons

theorem not_isOpening_of_isClosing {s : Symbol} (h : s.isClosing) : s.isOpening = false := by
  cases s <;> simp_all [Symbol.isOpening, Symbol.isClosing]

theorem not_isClosing_of_isOpening {s : Symbol} (h : s.isOpening) : s.isClosing = false := by
  cases s <;> simp_all [Symbol.isOpening, Symbol.isClosing]

theorem nestedWithin_cons_of_neither {s : Symbol}
    (h : s.isOpening = false ∧ s.isClosing = false) (limit : Nat) (ss : List Symbol) :
    NestedWithin limit (s :: ss) ↔ NestedWithin limit ss := openWithin_cons_of_neither h.1 h.2

theorem nestedWithin_singleton {s : Symbol} (h : s.isOpening = false) (limit : Nat) :
    NestedWithin limit [s] := openWithin_singleton h

theorem nestedWithin_append {ss : List Symbol} (h : openings ss = closings ss) (limit : Nat)
    (rs : List Symbol) :
    NestedWithin limit (ss ++ rs) ↔ NestedWithin limit ss ∧ NestedWithin limit rs :=
  openWithin_append h

theorem nestedWithin_container {opener closer : Symbol} {body : List Symbol}
    (hopener : opener.isOpening) (hcloser : closer.isClosing)
    (h : openings body = closings body) (limit : Nat) :
    NestedWithin limit (opener :: (body ++ [closer])) ↔
      ∃ n, limit = n + 1 ∧ NestedWithin n body :=
  openWithin_bracketed ⟨hopener, not_isClosing_of_isOpening hopener⟩
    (not_isOpening_of_isClosing hcloser) h

/-! ## Room -/

/-- How many more containers may be opened behind some tokens, if `room` may in front of them. It
fails at the first container for which there is no room. -/
def roomAfter : Nat → List (Token Symbol) → Except Failure Nat
  | room, [] => .ok room
  | room, t :: ts =>
    if t.symbol.isOpening then
      if room = 0 then .error ⟨.tooDeep nestingLimit, t.position⟩ else roomAfter (room - 1) ts
    else if t.symbol.isClosing then roomAfter (room + 1) ts
    else roomAfter room ts

theorem roomAfter_cons {t : Token Symbol} {s : Symbol} (ht : t.symbol = s)
    (hs : s.isOpening = false ∧ s.isClosing = false) (room : Nat) (ts : List (Token Symbol)) :
    roomAfter room (t :: ts) = roomAfter room ts := by
  simp [roomAfter, ht, hs]

theorem roomAfter_append (room : Nat) (ts us : List (Token Symbol)) :
    roomAfter room (ts ++ us) = (roomAfter room ts).bind fun left => roomAfter left us := by
  induction ts generalizing room with
  | nil => rfl
  | cons t ts ih =>
    simp only [List.cons_append, roomAfter]
    split_ifs
    · rfl
    all_goals exact ih _

theorem roomAfter_ok {room left : Nat} {ts : List (Token Symbol)}
    (h : roomAfter room ts = .ok left) :
    left + openings (ts.map Token.symbol) = room + closings (ts.map Token.symbol) := by
  induction ts generalizing room with
  | nil =>
    obtain rfl := Except.ok.inj h
    rfl
  | cons t ts ih =>
    rw [List.map_cons, openings_cons, closings_cons]
    rw [roomAfter] at h
    obtain ⟨hopen, hclose⟩ | ⟨hopen, hclose⟩ | ⟨hopen, hclose⟩ :=
      t.symbol.opening_or_closing_or_neither
    · simp only [hopen, hclose, if_true, Bool.false_eq_true, if_false] at h ⊢
      split_ifs at h
      have := ih h
      omega
    · simp only [hopen, hclose, if_true, Bool.false_eq_true, if_false] at h ⊢
      have := ih h
      omega
    · simp only [hopen, hclose, Bool.false_eq_true, if_false] at h ⊢
      exact ih h

theorem roomAfter_append_bind {α : Type} {ts : List (Token Symbol)}
    (h : openings (ts.map Token.symbol) = closings (ts.map Token.symbol)) (room : Nat)
    (us : List (Token Symbol)) (f : Nat → Except Failure α) :
    (roomAfter room (ts ++ us)).bind f =
      (roomAfter room ts).bind fun _ => (roomAfter room us).bind f := by
  rw [roomAfter_append]
  cases hroom : roomAfter room ts with
  | error g => rfl
  | ok left =>
    have := roomAfter_ok hroom
    obtain rfl : left = room := by omega
    rfl

theorem roomAfter_container {α : Type} {opening closing : Token Symbol} {ts : List (Token Symbol)}
    (hopening : opening.symbol.isOpening) (hclosing : closing.symbol.isClosing)
    (h : openings (ts.map Token.symbol) = closings (ts.map Token.symbol)) (room : Nat)
    (x : Except Failure α) :
    ((roomAfter (room + 1) (opening :: (ts ++ [closing]))).bind fun _ => x) =
      (roomAfter room ts).bind fun _ => x := by
  have hlast (left : Nat) : roomAfter left [closing] = .ok (left + 1) := by
    simp [roomAfter, hclosing, not_isOpening_of_isClosing hclosing]
  simp only [roomAfter, hopening, if_true, Nat.succ_ne_zero, if_false, Nat.add_sub_cancel]
  rw [roomAfter_append_bind h, hlast]
  rfl

theorem nestedWithin_iff (room : Nat) (ts : List (Token Symbol)) :
    NestedWithin room (ts.map Token.symbol) ↔ ∃ left, roomAfter room ts = .ok left := by
  induction ts generalizing room with
  | nil => simp [NestedWithin, roomAfter, openings]
  | cons t ts ih =>
    rw [List.map_cons, nestedWithin_cons, roomAfter]
    simp only [openings_cons, closings_cons]
    obtain ⟨hopen, hclose⟩ | ⟨hopen, hclose⟩ | ⟨hopen, hclose⟩ :=
      t.symbol.opening_or_closing_or_neither
    · simp only [hopen, hclose, if_true, Bool.false_eq_true, if_false]
      split_ifs with hroom
      · -- The opening has no room, whatever comes behind it.
        simp only [exists_false, iff_false]
        intro h
        have := h [] (List.nil_prefix)
        simp [openings, closings, hroom] at this
      · rw [← ih]
        refine forall₂_congr fun before _ => ?_
        omega
    · simp only [hopen, hclose, if_true, Bool.false_eq_true, if_false]
      rw [← ih]
      refine forall₂_congr fun before _ => ?_
      omega
    · simp only [hopen, hclose, Bool.false_eq_true, if_false]
      exact ih room

end Dialects.Json
