/-
Words with brackets.

A word is nested when each opening symbol in it has a closing one behind it and
what stands between the two is nested.  A reader of such a word keeps the places
of the symbols that are still open on a stack.

* `Nested.append` — nested words one behind the other;
* `Pending.snoc`, `Pending.close` — what the reader's stack says after one more symbol;
* `Pending.nested` — with an empty stack the word is nested.
-/
import Mathlib

namespace Nesting

variable {α : Type} {inner opens : α → Prop} {closes : ℕ → α → α → Prop} {i : ℕ}
  {places : List ℕ} {a o c : α} {u v w : List α}

/-- A nested word whose first symbol stands at a place; `closes j o c` says that `c` closes the
`o` that stands at `j`. -/
inductive Nested (inner opens : α → Prop) (closes : ℕ → α → α → Prop) : ℕ → List α → Prop
  | nil (i : ℕ) : Nested inner opens closes i []
  | cons {i : ℕ} {a : α} {w : List α} (ha : inner a) (hw : Nested inner opens closes (i + 1) w) :
    Nested inner opens closes i (a :: w)
  | block {i : ℕ} {o c : α} {u v : List α} (ho : opens o) (hc : closes i o c)
    (hu : Nested inner opens closes (i + 1) u)
    (hv : Nested inner opens closes (i + 1 + u.length + 1) v) :
    Nested inner opens closes i (o :: (u ++ c :: v))

/-- A word and the places in it of what is open, the last one first. -/
inductive Pending (inner opens : α → Prop) (closes : ℕ → α → α → Prop) : List ℕ → List α → Prop
  | nil {w : List α} (hw : Nested inner opens closes 0 w) : Pending inner opens closes [] w
  | cons {places : List ℕ} {u w : List α} {o : α} (hu : Pending inner opens closes places u)
    (ho : opens o) (hw : Nested inner opens closes (u.length + 1) w) :
    Pending inner opens closes (u.length :: places) (u ++ o :: w)

theorem Nested.append (hu : Nested inner opens closes i u)
    (hv : Nested inner opens closes (i + u.length) v) : Nested inner opens closes i (u ++ v) := by
  induction hu with
  | nil i => exact hv
  | cons ha _ ih =>
    rw [List.length_cons, Nat.add_comm _ 1, ← Nat.add_assoc] at hv
    exact .cons ha (ih hv)
  | @block i o c u w ho hc hu _ _ ih =>
    rw [List.cons_append, List.append_assoc, List.cons_append]
    refine .block ho hc hu (ih ?_)
    rw [List.length_cons, List.length_append, List.length_cons] at hv
    rwa [show i + 1 + u.length + 1 + w.length = i + (u.length + (w.length + 1) + 1) by omega]

namespace Pending

/-- A nested word behind the others changes no stack. -/
theorem append (h : Pending inner opens closes places u)
    (hv : Nested inner opens closes u.length v) : Pending inner opens closes places (u ++ v) := by
  cases h with
  | nil hw => exact .nil (hw.append (by rwa [Nat.zero_add]))
  | @cons places u w o hu ho hw =>
    rw [List.append_assoc, List.cons_append]
    refine .cons hu ho (hw.append ?_)
    rwa [List.length_append, List.length_cons, Nat.add_comm w.length, ← Nat.add_assoc] at hv

theorem snoc (h : Pending inner opens closes places u) (ha : inner a) :
    Pending inner opens closes places (u ++ [a]) :=
  h.append (.cons ha (.nil _))

theorem push (h : Pending inner opens closes places u) (ho : opens o) :
    Pending inner opens closes (u.length :: places) (u ++ [o]) :=
  .cons h ho (.nil _)

/-- What was opened last is closed. -/
theorem close (h : Pending inner opens closes (i :: places) u)
    (hc : ∀ o, u[i]? = some o → closes i o c) : Pending inner opens closes places (u ++ [c]) := by
  cases h with
  | @cons _ u w o hu ho hw =>
    have hmatch : closes u.length o c := hc o (by
      rw [List.getElem?_append_right le_rfl, Nat.sub_self]
      rfl)
    rw [List.append_assoc, List.cons_append]
    exact hu.append (.block ho hmatch hw (.nil _))

theorem nested (h : Pending inner opens closes [] u) : Nested inner opens closes 0 u := by
  cases h with
  | nil hw => exact hw

end Pending

end Nesting
