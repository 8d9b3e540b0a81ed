/-
Occurrences of a list in a list.

A list occurs at an index when the rest from there on begins with it.  The empty list
occurs at every index, also behind the last element.  A list is cut at its first
occurrence of a delimiter, and behind it again.

* `exists_occursAt_iff` — what occurs somewhere is an infix;
* `occursAt_append_iff` — what comes behind an occurrence does not matter;
* `firstIndex_isFirst`, `IsFirst.unique` — there is one answer to a search;
* `IsFirst.prefix_iff` — when a search in one list answers for another with the same front;
* `exists_cuts`, `Cuts.unique` — a list is cut in one way;
* `Cuts.intercalate_eq`, `Cuts.intercalate_pieces` — the pieces make up the list again;
* `cuts_splitOn` — at a single element, the cuts are those of `List.splitOn`.
-/
import Mathlib

namespace Occurrences

variable {α : Type*} {p s t : List α} {i j : ℕ}

/-- `p` occurs in `s` at `i`. -/
def OccursAt (p s : List α) (i : ℕ) : Prop := i ≤ s.length ∧ p <+: s.drop i

/-- The least index where `p` occurs in `s`; none when there is none. -/
def IsFirst (p s : List α) : Option ℕ → Prop
  | some i => OccursAt p s i ∧ ∀ j, OccursAt p s j → i ≤ j
  | none => ∀ j, ¬ OccursAt p s j

/-- The largest one. -/
def IsLast (p s : List α) : Option ℕ → Prop
  | some i => OccursAt p s i ∧ ∀ j, OccursAt p s j → j ≤ i
  | none => ∀ j, ¬ OccursAt p s j

instance [DecidableEq α] (p s : List α) (i : ℕ) : Decidable (OccursAt p s i) :=
  inferInstanceAs (Decidable (_ ∧ _))

theorem OccursAt.add_le (h : OccursAt p s i) : i + p.length ≤ s.length := by
  obtain ⟨hi, hpre⟩ := h
  have hlen := hpre.length_le
  rw [List.length_drop] at hlen
  omega

theorem OccursAt.front {q : List α} (h : OccursAt p s i) (hq : q <+: p) : OccursAt q s i :=
  ⟨h.1, hq.trans h.2⟩

theorem OccursAt.mem {x : α} (h : OccursAt p s i) (hx : x ∈ p) : x ∈ s :=
  List.mem_of_mem_drop (h.2.subset hx)

theorem occursAt_iff : OccursAt p s i ↔ ∃ a b, s = a ++ p ++ b ∧ a.length = i := by
  constructor
  · rintro ⟨hi, b, hb⟩
    refine ⟨s.take i, b, ?_, List.length_take_of_le hi⟩
    rw [List.append_assoc, hb, List.take_append_drop]
  · rintro ⟨a, b, rfl, rfl⟩
    rw [OccursAt, List.append_assoc, List.drop_left]
    exact ⟨by simp, List.prefix_append p b⟩

theorem exists_occursAt_iff : (∃ i, OccursAt p s i) ↔ p <:+: s := by
  constructor
  · rintro ⟨i, h⟩
    obtain ⟨a, b, rfl, -⟩ := occursAt_iff.mp h
    exact ⟨a, b, rfl⟩
  · rintro ⟨a, b, rfl⟩
    exact ⟨a.length, occursAt_iff.mpr ⟨a, b, rfl, rfl⟩⟩

/-- What comes behind an occurrence does not matter. -/
theorem occursAt_append_iff (h : i + p.length ≤ s.length) :
    OccursAt p (s ++ t) i ↔ OccursAt p s i := by
  have hi : i ≤ s.length := by omega
  rw [OccursAt, OccursAt, List.drop_append_of_le_length hi, List.length_append]
  refine and_congr (iff_of_true (by omega) hi) ⟨fun hpre => ?_, fun hpre => ?_⟩
  · refine List.prefix_of_prefix_length_le hpre (List.prefix_append _ t) ?_
    rw [List.length_drop]
    omega
  · exact hpre.trans (List.prefix_append _ t)

theorem occursAt_nil_iff : OccursAt [] s i ↔ i ≤ s.length := and_iff_left List.nil_prefix

theorem occursAt_cons {x : α} : OccursAt p (x :: s) (i + 1) ↔ OccursAt p s i := by
  rw [OccursAt, OccursAt, List.length_cons, List.drop_succ_cons]
  exact and_congr_left fun _ => Nat.add_le_add_iff_right

theorem occursAt_zero_iff : OccursAt p s 0 ↔ p <+: s := and_iff_right (Nat.zero_le _)

theorem occursAt_singleton_iff {x : α} : OccursAt [x] s i ↔ s[i]? = some x := by
  rw [← List.head?_drop]
  constructor
  · rintro ⟨-, t, ht⟩
    rw [← ht]
    rfl
  · intro hx
    obtain ⟨t, ht⟩ := List.head?_eq_some_iff.mp hx
    have hlen := congrArg List.length ht
    rw [List.length_drop, List.length_cons] at hlen
    exact ⟨by omega, t, ht.symm⟩

/-- The occurrences in the front of a list are those that end there. -/
theorem occursAt_prefix_iff (h : t <+: s) :
    OccursAt p t i ↔ OccursAt p s i ∧ i + p.length ≤ t.length := by
  obtain ⟨u, rfl⟩ := h
  constructor
  · intro hat
    exact ⟨(occursAt_append_iff hat.add_le).mpr hat, hat.add_le⟩
  · rintro ⟨hat, hle⟩
    exact (occursAt_append_iff hle).mp hat

/-- A search that goes on behind the first element. -/
theorem IsFirst.cons {x : α} {r : Option ℕ} (hnot : ¬ p <+: x :: s) (h : IsFirst p s r) :
    IsFirst p (x :: s) (r.map (· + 1)) := by
  have hpos : ∀ j, OccursAt p (x :: s) j → ∃ k, j = k + 1 ∧ OccursAt p s k := by
    intro j hj
    cases j with
    | zero => exact absurd (occursAt_zero_iff.mp hj) hnot
    | succ k => exact ⟨k, rfl, occursAt_cons.mp hj⟩
  cases r with
  | none =>
    intro j hj
    obtain ⟨k, -, hk⟩ := hpos j hj
    exact h k hk
  | some i =>
    refine ⟨occursAt_cons.mpr h.1, fun j hj => ?_⟩
    obtain ⟨k, rfl, hk⟩ := hpos j hj
    exact Nat.succ_le_succ (h.2 k hk)

theorem IsFirst.exists_iff {r : Option ℕ} (h : IsFirst p s r) : r.isSome ↔ p <:+: s := by
  cases r with
  | none => exact iff_of_false Bool.false_ne_true fun hin =>
      (exists_occursAt_iff.mpr hin).elim fun i hi => h i hi
  | some i => exact iff_of_true rfl (exists_occursAt_iff.mp ⟨i, h.1⟩)

/-- Of two lists with the same front, the first occurrence is the same when both have one. -/
theorem IsFirst.prefix_iff {u : List α} {r : Option ℕ} (ht : t <+: s) (hu : u <+: s)
    (h : IsFirst p t r) : IsFirst p u r ↔ (p <:+: t ↔ p <:+: u) := by
  constructor
  · intro h'
    rw [← h.exists_iff, ← h'.exists_iff]
  · intro hiff
    rw [← h.exists_iff] at hiff
    cases r with
    | none => exact fun j hj => Bool.false_ne_true (hiff.mpr (exists_occursAt_iff.mp ⟨j, hj⟩))
    | some i =>
      obtain ⟨hs, hle⟩ := (occursAt_prefix_iff ht).mp h.1
      have hfirst : ∀ j, OccursAt p u j → i ≤ j := by
        intro j hj
        by_contra hlt
        have hj' := (occursAt_prefix_iff hu).mp hj
        exact hlt (h.2 j ((occursAt_prefix_iff ht).mpr ⟨hj'.1, by omega⟩))
      obtain ⟨j, hj⟩ := exists_occursAt_iff.mpr (hiff.mp rfl)
      have hij := hfirst j hj
      have hjle := hj.add_le
      exact ⟨(occursAt_prefix_iff hu).mpr ⟨hs, by omega⟩, hfirst⟩

theorem IsFirst.unique {r r' : Option ℕ} (h : IsFirst p s r) (h' : IsFirst p s r') : r = r' := by
  cases r with
  | none =>
    cases r' with
    | none => rfl
    | some i => exact absurd h'.1 (h i)
  | some i =>
    cases r' with
    | none => exact absurd h.1 (h' i)
    | some j => rw [le_antisymm (h.2 j h'.1) (h'.2 i h.1)]

theorem isFirst_none_iff : IsFirst p s none ↔ ¬ p <:+: s := by
  rw [← exists_occursAt_iff, not_exists]
  rfl

/-- The least index, looked for from the front. -/
def firstIndex [DecidableEq α] (p : List α) : List α → Option ℕ
  | [] => if p = [] then some 0 else none
  | x :: s => if p <+: x :: s then some 0 else (firstIndex p s).map (· + 1)

theorem firstIndex_isFirst [DecidableEq α] (p s : List α) : IsFirst p s (firstIndex p s) := by
  induction s with
  | nil =>
    rw [firstIndex]
    split_ifs with hp
    · rw [hp]
      exact ⟨occursAt_nil_iff.mpr le_rfl, fun j _ => Nat.zero_le j⟩
    · exact isFirst_none_iff.mpr (mt List.infix_nil.mp hp)
  | cons x s ih =>
    rw [firstIndex]
    split_ifs with hpre
    · exact ⟨occursAt_zero_iff.mpr hpre, fun j _ => Nat.zero_le j⟩
    · exact ih.cons hpre

/-! ### Cutting -/

/-- The pieces before each delimiter, and the rest behind the last. -/
inductive Cuts (d : List α) : List α → List (List α) → List α → Prop
  | rest {r : List α} (h : ¬ d <:+: r) : Cuts d r [] r
  | cut {a s r : List α} {ps : List (List α)} (h : IsFirst d (a ++ d ++ s) (some a.length))
      (hs : Cuts d s ps r) : Cuts d (a ++ d ++ s) (a :: ps) r

/-- The rest is a piece when it is not empty. -/
def lastPiece (r : List α) : List (List α) := if r.isEmpty then [] else [r]

variable {d r : List α} {ps : List (List α)}

theorem lastPiece_of_ne_nil (h : r ≠ []) : lastPiece r = [r] :=
  if_neg (by simpa using h)

theorem exists_cuts (hd : d ≠ []) (s : List α) : ∃ ps r, Cuts d s ps r := by
  classical
  induction hn : s.length using Nat.strong_induction_on generalizing s with
  | h n ih =>
    have hfirst := firstIndex_isFirst d s
    cases hidx : firstIndex d s with
    | none =>
      rw [hidx] at hfirst
      exact ⟨[], s, .rest (isFirst_none_iff.mp hfirst)⟩
    | some i =>
      rw [hidx] at hfirst
      obtain ⟨a, b, rfl, rfl⟩ := occursAt_iff.mp hfirst.1
      have hpos := List.length_pos_of_ne_nil hd
      simp only [List.length_append] at hn
      obtain ⟨ps, r, hcuts⟩ := ih b.length (by omega) b rfl
      exact ⟨a :: ps, r, .cut hfirst hcuts⟩

theorem Cuts.unique {ps' : List (List α)} {r' : List α} (h : Cuts d s ps r)
    (h' : Cuts d s ps' r') : ps = ps' ∧ r = r' := by
  induction h generalizing ps' with
  | @rest r hnot =>
    cases h' with
    | rest => exact ⟨rfl, rfl⟩
    | @cut a b _ _ hfirst => exact absurd ⟨a, b, rfl⟩ hnot
  | @cut a s r ps hfirst hs ih =>
    generalize htext : a ++ d ++ s = text at h' hfirst
    cases h' with
    | rest hnot => exact absurd ⟨a, s, htext⟩ hnot
    | @cut a' s' _ ps' hfirst' hs' =>
      have hlen : a.length = a'.length := Option.some.inj (hfirst.unique hfirst')
      rw [List.append_assoc, List.append_assoc] at htext
      obtain ⟨rfl, hrest⟩ := List.append_inj htext hlen
      obtain ⟨hps, hr⟩ := ih (List.append_cancel_left hrest ▸ hs')
      exact ⟨by rw [hps], hr⟩

theorem Cuts.not_infix (h : Cuts d s ps r) : ¬ d <:+: r := by
  induction h with
  | rest hnot => exact hnot
  | cut _ _ ih => exact ih

/-- **The pieces and the rest** with delimiters between them are the list. -/
theorem Cuts.intercalate_eq (h : Cuts d s ps r) : d.intercalate (ps ++ [r]) = s := by
  induction h with
  | rest => simp [List.intercalate]
  | @cut a s r ps _ _ ih =>
    cases ps with
    | nil =>
      rw [List.nil_append] at ih
      rw [List.cons_append, List.nil_append, List.intercalate_cons_cons, ih, List.append_assoc]
    | cons b ps =>
      rw [List.cons_append] at ih
      rw [List.cons_append, List.cons_append, List.intercalate_cons_cons, ih, List.append_assoc]

/-- Without an empty piece at the end, they are the list up to a delimiter there. -/
theorem Cuts.intercalate_pieces (h : Cuts d s ps r) :
    d.intercalate (ps ++ lastPiece r) = s ∨ d.intercalate (ps ++ lastPiece r) ++ d = s := by
  have hall := h.intercalate_eq
  by_cases hr : r = []
  · rw [hr] at hall ⊢
    rw [show lastPiece ([] : List α) = [] from rfl, List.append_nil]
    cases ps with
    | nil => exact .inl hall
    | cons a ps =>
      right
      rw [← hall]
      clear hall h
      induction ps generalizing a with
      | nil => simp [List.intercalate]
      | cons b ps ih =>
        show _ = d.intercalate (a :: b :: (ps ++ [[]]))
        rw [List.intercalate_cons_cons, List.append_assoc, ih b, List.cons_append,
          List.intercalate_cons_cons]
  · rw [lastPiece_of_ne_nil hr]
    exact .inl hall

theorem Cuts.length_le (h : Cuts d s ps r) : ∀ q ∈ ps ++ [r], q.length ≤ s.length := by
  induction h with
  | rest =>
    intro q hq
    rw [List.nil_append, List.mem_singleton] at hq
    rw [hq]
  | cut _ _ ih =>
    intro q hq
    rw [List.cons_append, List.mem_cons] at hq
    simp only [List.length_append]
    rcases hq with rfl | hq
    · omega
    · have hle := ih q hq
      omega

/-! ### One element as delimiter -/

variable {x : α}

theorem isFirst_singleton_iff {u : List α} :
    IsFirst [x] (p ++ [x] ++ u) (some p.length) ↔ x ∉ p := by
  rw [List.append_assoc]
  constructor
  · intro h hmem
    obtain ⟨i, hi⟩ := List.mem_iff_getElem?.mp hmem
    have hin := (List.getElem?_eq_some_iff.mp hi).1
    have hat : (p ++ ([x] ++ u))[i]? = some x := by
      rw [List.getElem?_append_left hin, hi]
    have hle := h.2 i (occursAt_singleton_iff.mpr hat)
    omega
  · refine fun h => ⟨occursAt_iff.mpr ⟨p, u, (List.append_assoc p [x] u).symm, rfl⟩, fun j hj => ?_⟩
    by_contra hlt
    have hat := occursAt_singleton_iff.mp hj
    rw [List.getElem?_append_left (not_le.mp hlt)] at hat
    exact h (List.mem_of_getElem? hat)

theorem Cuts.not_mem (h : Cuts [x] s ps r) : ∀ q ∈ ps ++ [r], x ∉ q := by
  induction h with
  | rest hnot =>
    intro q hq hmem
    rw [List.nil_append, List.mem_singleton] at hq
    exact hnot ((List.singleton_infix_iff x _).mpr (hq ▸ hmem))
  | cut hfirst _ ih =>
    intro q hq
    rw [List.cons_append, List.mem_cons] at hq
    rcases hq with rfl | hq
    · exact isFirst_singleton_iff.mp hfirst
    · exact ih q hq

/-- The cuts at an element. -/
theorem cuts_splitOn [BEq α] [LawfulBEq α] (x : α) (s : List α) :
    Cuts [x] s (s.splitOn x).dropLast ((s.splitOn x).getLastD []) := by
  obtain ⟨ps, r, hcuts⟩ := exists_cuts (List.cons_ne_nil x []) s
  have hsplit := List.splitOn_intercalate x hcuts.not_mem (by simp)
  rw [hcuts.intercalate_eq] at hsplit
  rw [hsplit, List.dropLast_concat, List.getLastD_concat]
  exact hcuts

end Occurrences
