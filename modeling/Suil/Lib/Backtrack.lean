/-
Backtracking search over one shared stack.

A depth-first search tries its alternatives in order.  Some alternatives carry
a value, which is pushed on a stack before the alternative is searched and
popped afterwards.  At a stop the search does not copy the stack: it hands the
stack over and goes on with an empty one.  `run` is that search, with a stack
that may refuse a push (`fits`).

* `run_eq` — the search in closed form: the stack at every push (`entered`),
  what every stop was handed (`results`) and the stack at the end (`after`);
* `under`, `run_under` — a word of alternatives without values leaves the results
  as they are;
* `kept_of_mem_entered` — the stack at a path holds the values of the path
  beyond the longest prefix it shares with an earlier stop;
* `handed_length` — a stop loses the values of the longest piece that its path
  shares with an earlier stop;
* `overflow_iff` — which searches the stack's bound cuts short.

Alternatives at one place are told apart by their labels, which have an order
`r` that the search follows (`Sorted`).
-/
import Mathlib

namespace Backtrack

variable {E V A : Type}

/-- A search tree: a stop, no (further) alternative, or an alternative labelled
`e` that carries the value `v`, followed by the other alternatives. -/
inductive Search (E V A : Type) where
  | stop (a : A)
  | fail
  | branch (e : E) (v : Option V) (sub next : Search E V A)

/-- The alternatives taken, with the values they carry. -/
abbrev Path (E V : Type) := List (E × Option V)

/-- The values a path carries, in order. -/
def values (p : Path E V) : List V := p.filterMap Prod.snd

@[simp] theorem values_nil : values ([] : Path E V) = [] := rfl

@[simp] theorem values_cons (x : E × Option V) (p : Path E V) :
    values (x :: p) = x.2.toList ++ values p := by
  rcases x with ⟨e, _ | v⟩ <;> simp [values]

@[simp] theorem values_append (p q : Path E V) : values (p ++ q) = values p ++ values q :=
  List.filterMap_append

/-- Values carried by a prefix are carried by the path. -/
theorem values_isPrefix {p q : Path E V} (h : p <+: q) : values p <+: values q := by
  obtain ⟨t, rfl⟩ := h
  exact ⟨values t, (values_append p t).symm⟩

/-- Run the search on a stack whose bound is `fits`: what every stop was
handed, in order, and the stack at the end; `none` when a push is refused. -/
def run (fits : List V → Bool) : Search E V A → List V → Option (List (List V × A) × List V)
  | .stop a, s => some ([(s, a)], [])
  | .fail, s => some ([], s)
  | .branch _ v sub next, s =>
    if fits (s ++ v.toList) then do
      let (r₁, s₁) ← run fits sub (s ++ v.toList)
      let (r₂, s₂) ← run fits next (if v.isSome then s₁.dropLast else s₁)
      some (r₁ ++ r₂, s₂)
    else none

/-- The stops of a search with the paths that lead to them, in search order. -/
def stops : Search E V A → List (Path E V × A)
  | .stop a => [([], a)]
  | .fail => []
  | .branch e v sub next => (stops sub).map (fun x => ((e, v) :: x.1, x.2)) ++ stops next

/-- The paths a search enters, in search order. -/
def paths : Search E V A → List (Path E V)
  | .stop _ => []
  | .fail => []
  | .branch e v sub next => [(e, v)] :: (paths sub).map (fun p => (e, v) :: p) ++ paths next

/-- The stack after a search that no push was refused to. -/
def after (t : Search E V A) (s : List V) : List V := if stops t = [] then s else []

/-- The paths entered with the stack right after entering them. -/
def entered : Search E V A → List V → List (Path E V × List V)
  | .stop _, _ => []
  | .fail, _ => []
  | .branch e v sub next, s =>
    ([(e, v)], s ++ v.toList) ::
      (entered sub (s ++ v.toList)).map (fun x => ((e, v) :: x.1, x.2)) ++
        entered next (after sub s)

/-- The stops with their paths and the stack each was handed. -/
def results : Search E V A → List V → List (Path E V × List V × A)
  | .stop a, s => [([], s, a)]
  | .fail, _ => []
  | .branch e v sub next, s =>
    (results sub (s ++ v.toList)).map (fun x => ((e, v) :: x.1, x.2)) ++ results next (after sub s)

theorem results_stops (t : Search E V A) (s : List V) :
    (results t s).map (fun x => (x.1, x.2.2)) = stops t := by
  induction t generalizing s with
  | stop a => rfl
  | fail => rfl
  | branch e v sub next ihs ihn =>
    rw [results, stops, List.map_append, ihn, ← ihs (s ++ v.toList), List.map_map, List.map_map]
    rfl

theorem mem_stops_iff {t : Search E V A} {s : List V} {p : Path E V} {a : A} :
    (p, a) ∈ stops t ↔ ∃ k, (p, k, a) ∈ results t s := by
  rw [← results_stops t s, List.mem_map]
  constructor
  · rintro ⟨⟨p', k, a'⟩, h, heq⟩
    rw [Prod.mk.injEq] at heq
    obtain ⟨rfl, rfl⟩ := heq
    exact ⟨k, h⟩
  · rintro ⟨k, h⟩
    exact ⟨(p, k, a), h, rfl⟩

theorem entered_paths (t : Search E V A) (s : List V) :
    (entered t s).map Prod.fst = paths t := by
  induction t generalizing s with
  | stop a => rfl
  | fail => rfl
  | branch e v sub next ihs ihn =>
    rw [entered, paths, List.map_append, ihn, List.map_cons, List.map_map,
      ← ihs (s ++ v.toList), List.map_map]
    rfl

/-- A search without a stop gives the stack back as it was, any other leaves it
empty; either way the pop after a pushed value restores the stack before it. -/
theorem pop_after (t : Search E V A) (s : List V) (v : Option V) :
    (if v.isSome then (after t (s ++ v.toList)).dropLast else after t (s ++ v.toList))
      = after t s := by
  rcases v with _ | v
  · simp
  · by_cases h : stops t = []
    · simp [after, h]
    · simp [after, h]

/-- **The search in closed form.** -/
theorem run_eq (fits : List V → Bool) (t : Search E V A) (s : List V) :
    run fits t s
      = if ∀ x ∈ entered t s, fits x.2 = true
          then some ((results t s).map (fun x => x.2), after t s) else none := by
  induction t generalizing s with
  | stop a => simp [run, entered, results, after, stops]
  | fail => simp [run, entered, results, after, stops]
  | branch e v sub next ihs ihn =>
    have hafter : after (.branch e v sub next) s = after next (after sub s) := by
      by_cases h : stops sub = [] <;> simp [after, stops, h]
    rw [run, ihs]
    by_cases hf : fits (s ++ v.toList) = true
    · rw [if_pos hf]
      by_cases hsub : ∀ x ∈ entered sub (s ++ v.toList), fits x.2 = true
      · rw [if_pos hsub]
        simp only [Option.bind_eq_bind, Option.bind_some]
        rw [pop_after, ihn]
        by_cases hnext : ∀ x ∈ entered next (after sub s), fits x.2 = true
        · rw [if_pos hnext, if_pos]
          · rw [hafter]
            simp [results]
          · intro x hx
            simp only [entered, List.cons_append, List.mem_cons, List.mem_append,
              List.mem_map] at hx
            rcases hx with rfl | ⟨y, hy, rfl⟩ | hx
            · exact hf
            · exact hsub y hy
            · exact hnext x hx
        · rw [if_neg hnext, if_neg]
          · rfl
          · exact fun hall => hnext fun x hx => hall x (by simp [entered, hx])
      · rw [if_neg hsub, if_neg]
        · rfl
        · intro hall
          refine hsub fun x hx => hall ((e, v) :: x.1, x.2) ?_
          simp only [entered, List.cons_append, List.mem_cons, List.mem_append, List.mem_map]
          exact .inr (.inl ⟨x, hx, rfl⟩)
    · rw [if_neg hf, if_neg]
      exact fun hall => hf (hall ([(e, v)], s ++ v.toList) (by simp [entered]))

/-! ### Words -/

/-- The alternatives of a word, one letter after the other and without values,
and the search after its last letter. -/
def under : List E → Search E V A → Search E V A
  | [], t => t
  | e :: w, t => .branch e none (under w t) .fail

/-- The path along a word. -/
def spelled (w : List E) : Path E V := w.map fun e => (e, none)

@[simp] theorem values_spelled (w : List E) : values (spelled w : Path E V) = [] := by
  induction w with
  | nil => rfl
  | cons e w ih => simpa [spelled] using ih

/-- A stack that fits is not changed by the letters of a word. -/
theorem run_under {fits : List V → Bool} {s : List V} (hs : fits s = true) (w : List E)
    (t : Search E V A) : run fits (under w t) s = run fits t s := by
  induction w with
  | nil => rfl
  | cons e w ih =>
    simp only [under, run, Option.toList_none, List.append_nil, hs, if_true, ih,
      Option.isSome_none, Bool.false_eq_true, if_false]
    rcases run fits t s with _ | x
    · rfl
    · simp

theorem mem_stops_under {w : List E} {t : Search E V A} {p : Path E V} {a : A} :
    (p, a) ∈ stops (under w t) ↔ ∃ p', p = spelled w ++ p' ∧ (p', a) ∈ stops t := by
  induction w generalizing p with
  | nil => simp [under, spelled]
  | cons e w ih =>
    simp only [under, stops, List.append_nil, List.mem_map, Prod.mk.injEq, Prod.exists]
    constructor
    · rintro ⟨q, a', hq, rfl, rfl⟩
      obtain ⟨p', rfl, hp'⟩ := ih.mp hq
      exact ⟨p', rfl, hp'⟩
    · rintro ⟨p', rfl, hp'⟩
      exact ⟨_, a, ih.mpr ⟨p', rfl, hp'⟩, rfl, rfl⟩

theorem mem_paths_under {w : List E} {t : Search E V A} {p : Path E V} :
    p ∈ paths (under w t) ↔
      (p ≠ [] ∧ p <+: spelled w) ∨ ∃ p', p = spelled w ++ p' ∧ p' ∈ paths t := by
  induction w generalizing p with
  | nil => simp [under, spelled]
  | cons e w ih =>
    simp only [under, paths, List.append_nil, List.mem_cons, List.mem_map, ih, spelled,
      List.map_cons]
    constructor
    · rintro (rfl | ⟨q, hq, rfl⟩)
      · exact .inl ⟨by simp, by simp⟩
      · rcases hq with ⟨-, hq⟩ | ⟨p', rfl, hp'⟩
        · exact .inl ⟨by simp, List.cons_prefix_cons.mpr ⟨rfl, hq⟩⟩
        · exact .inr ⟨p', rfl, hp'⟩
    · rintro (⟨hne, hp⟩ | ⟨p', rfl, hp'⟩)
      · obtain ⟨x, q, rfl⟩ := List.exists_cons_of_ne_nil hne
        obtain ⟨rfl, hq⟩ := List.cons_prefix_cons.mp hp
        by_cases h : q = []
        · exact .inl (by rw [h])
        · exact .inr ⟨q, .inl ⟨h, hq⟩, rfl⟩
      · exact .inr ⟨_, .inr ⟨p', rfl, hp'⟩, rfl⟩

/-! ### What the stack keeps -/

/-- `q` comes before `p` in a search whose alternatives are tried in the order
`r`: at the first place where they part, `q` took the smaller label. -/
def Earlier (r : E → E → Prop) : Path E V → Path E V → Prop
  | x :: q, y :: p => r x.1 y.1 ∨ (x = y ∧ Earlier r q p)
  | _, _ => False

@[simp] theorem not_earlier_nil (r : E → E → Prop) (q : Path E V) : ¬Earlier r q [] := by
  cases q <;> simp [Earlier]

@[simp] theorem not_nil_earlier (r : E → E → Prop) (p : Path E V) : ¬Earlier r [] p := by
  cases p <;> simp [Earlier]

theorem earlier_iff {r : E → E → Prop} {q p : Path E V} :
    Earlier r q p ↔ ∃ c x y q' p', q = c ++ x :: q' ∧ p = c ++ y :: p' ∧ r x.1 y.1 := by
  constructor
  · intro h
    induction q generalizing p with
    | nil => simp at h
    | cons x q ih =>
      cases p with
      | nil => simp at h
      | cons y p =>
        rcases h with h | ⟨rfl, h⟩
        · exact ⟨[], x, y, q, p, rfl, rfl, h⟩
        · obtain ⟨c, x', y', q', p', rfl, rfl, hr⟩ := ih h
          exact ⟨x :: c, x', y', q', p', rfl, rfl, hr⟩
  · rintro ⟨c, x, y, q', p', rfl, rfl, h⟩
    induction c with
    | nil => exact .inl h
    | cons z c ih => exact .inr ⟨rfl, ih⟩

/-- Nothing past the place where two paths part is a prefix of both. -/
theorem prefix_of_parting {r : E → E → Prop} [Std.Irrefl r] {c c' q' p' : Path E V}
    {x y : E × Option V} (hr : r x.1 y.1) (hq : c' <+: c ++ x :: q') (hp : c' <+: c ++ y :: p') :
    c' <+: c := by
  induction c generalizing c' with
  | nil =>
    cases c' with
    | nil => exact List.nil_prefix
    | cons z c' =>
      obtain ⟨rfl, -⟩ := List.cons_prefix_cons.mp hq
      obtain ⟨rfl, -⟩ := List.cons_prefix_cons.mp hp
      exact absurd hr (Std.Irrefl.irrefl _)
  | cons z c ih =>
    cases c' with
    | nil => exact List.nil_prefix
    | cons z' c' =>
      obtain ⟨rfl, hq'⟩ := List.cons_prefix_cons.mp hq
      obtain ⟨-, hp'⟩ := List.cons_prefix_cons.mp hp
      exact List.cons_prefix_cons.mpr ⟨rfl, ih hq' hp'⟩

theorem Earlier.append_right {r : E → E → Prop} {q p : Path E V} (h : Earlier r q p)
    (p' : Path E V) : Earlier r q (p ++ p') := by
  obtain ⟨c, x, y, q', p₀, rfl, rfl, hr⟩ := earlier_iff.mp h
  exact earlier_iff.mpr ⟨c, x, y, q', p₀ ++ p', rfl, by simp, hr⟩

theorem Earlier.asymm {r : E → E → Prop} [Std.Irrefl r] [Std.Asymm r] {q p : Path E V}
    (h : Earlier r q p) : ¬Earlier r p q := by
  induction q generalizing p with
  | nil => simp at h
  | cons x q ih =>
    cases p with
    | nil => simp at h
    | cons y p =>
      rcases h with h | ⟨rfl, h⟩
      · rintro (h' | ⟨rfl, -⟩)
        · exact Std.Asymm.asymm _ _ h h'
        · exact Std.Irrefl.irrefl _ h
      · rintro (h' | ⟨-, h'⟩)
        · exact Std.Irrefl.irrefl _ h'
        · exact ih h h'

/-- The labels of the alternatives at the top of a search. -/
def labels : Search E V A → List E
  | .branch e _ _ next => e :: labels next
  | _ => []

/-- Every place tries its alternatives in the order `r` and ends with `fail`. -/
def Sorted (r : E → E → Prop) : Search E V A → Prop
  | .branch e _ sub next =>
    Sorted r sub ∧ Sorted r next ∧ (∀ e' ∈ labels next, r e e') ∧ ∀ a, next ≠ .stop a
  | _ => True

theorem sorted_under {r : E → E → Prop} {w : List E} {t : Search E V A} (ht : Sorted r t) :
    Sorted r (under w t) := by
  induction w with
  | nil => exact ht
  | cons e w ih => exact ⟨ih, trivial, by simp [labels], by simp⟩

/-- The stack `k` at `p` when the search started from the stack `s`: with no
stop before `p` nothing is lost; otherwise the values beyond the longest prefix
shared with an earlier stop are what is left. -/
def Kept (r : E → E → Prop) (t : Search E V A) (s : List V) (p : Path E V) (k : List V) : Prop :=
  ((¬∃ q ∈ stops t, Earlier r q.1 p) ∧ k = s ++ values p) ∨
  ∃ a b, p = a ++ b ∧ k = values b ∧ (∃ q ∈ stops t, Earlier r q.1 p ∧ a <+: q.1) ∧
    ∀ q ∈ stops t, Earlier r q.1 p → ∀ c, c <+: q.1 → c <+: p → c <+: a

section Kept

variable {r : E → E → Prop}

/-- The first label of a path is one of the search's alternatives. -/
theorem label_mem_of_stop {t : Search E V A} {x : E × Option V} {q : Path E V} {a : A}
    (h : (x :: q, a) ∈ stops t) : x.1 ∈ labels t := by
  induction t with
  | stop a => simp [stops] at h
  | fail => simp [stops] at h
  | branch e v sub next _ ihn =>
    simp only [stops, List.mem_append, List.mem_map] at h
    rcases h with ⟨y, _, hy⟩ | h
    · obtain ⟨hy, -⟩ := Prod.mk.inj hy
      obtain ⟨rfl, -⟩ := List.cons.inj hy
      simp [labels]
    · exact List.mem_cons_of_mem _ (ihn h)

theorem label_mem_of_path {t : Search E V A} {x : E × Option V} {p : Path E V}
    (h : x :: p ∈ paths t) : x.1 ∈ labels t := by
  induction t with
  | stop a => simp [paths] at h
  | fail => simp [paths] at h
  | branch e v sub next _ ihn =>
    simp only [paths, List.cons_append, List.mem_cons, List.mem_append, List.mem_map] at h
    rcases h with h | ⟨y, _, hy⟩ | h
    · obtain ⟨rfl, -⟩ := List.cons.inj h
      simp [labels]
    · obtain ⟨rfl, -⟩ := List.cons.inj hy
      simp [labels]
    · exact List.mem_cons_of_mem _ (ihn h)

/-- Only a stop has the empty path. -/
theorem eq_stop_of_mem_stops {t : Search E V A} (hs : Sorted r t) {a : A}
    (h : ([], a) ∈ stops t) : ∃ b, t = .stop b := by
  induction t with
  | stop b => exact ⟨b, rfl⟩
  | fail => simp [stops] at h
  | branch e v sub next _ ihn =>
    simp only [stops, List.mem_append, List.mem_map, Prod.mk.injEq, reduceCtorEq, false_and,
      and_false, exists_false, false_or] at h
    obtain ⟨b, rfl⟩ := ihn hs.2.1 h
    exact absurd rfl (hs.2.2.2 b)

/-- A sorted search reaches its stops in the order of their paths. -/
theorem stops_pairwise {t : Search E V A} (hs : Sorted r t) :
    (stops t).Pairwise fun x y => Earlier r x.1 y.1 := by
  induction t with
  | stop a => simp [stops]
  | fail => simp [stops]
  | branch e v sub next ihs ihn =>
    obtain ⟨hsub, hnext, hlabels, hstop⟩ := hs
    rw [stops, List.pairwise_append, List.pairwise_map]
    refine ⟨(ihs hsub).imp fun h => .inr ⟨rfl, h⟩, ihn hnext, ?_⟩
    intro x hx y hy
    obtain ⟨z, -, rfl⟩ := List.mem_map.mp hx
    obtain ⟨q, a⟩ := y
    cases q with
    | nil =>
      obtain ⟨b, hb⟩ := eq_stop_of_mem_stops hnext hy
      exact absurd hb (hstop b)
    | cons z' q => exact .inl (hlabels _ (label_mem_of_stop hy))

/-- The stops of a branch that come before a path in its own alternative. -/
theorem stops_before_sub [Std.Irrefl r] [Std.Asymm r] {e : E} {v : Option V}
    {sub next : Search E V A} (hs : Sorted r (.branch e v sub next)) {q : Path E V} {a : A}
    {p : Path E V} :
    ((q, a) ∈ stops (.branch e v sub next) ∧ Earlier r q ((e, v) :: p)) ↔
      ∃ q', q = (e, v) :: q' ∧ (q', a) ∈ stops sub ∧ Earlier r q' p := by
  constructor
  · rintro ⟨hq, hlt⟩
    simp only [stops, List.mem_append, List.mem_map] at hq
    rcases hq with ⟨y, hy, heq⟩ | hq
    · obtain ⟨rfl, rfl⟩ := Prod.mk.inj heq
      refine ⟨y.1, rfl, hy, ?_⟩
      simpa [Earlier, Std.Irrefl.irrefl (r := r)] using hlt
    · cases q with
      | nil => simp at hlt
      | cons x q =>
        have hx := hs.2.2.1 x.1 (label_mem_of_stop hq)
        rcases hlt with hlt | ⟨rfl, -⟩
        · exact absurd hlt (Std.Asymm.asymm _ _ hx)
        · exact absurd hx (Std.Irrefl.irrefl _)
  · rintro ⟨q', rfl, hq, hlt⟩
    refine ⟨?_, .inr ⟨rfl, hlt⟩⟩
    simp only [stops, List.mem_append, List.mem_map]
    exact .inl ⟨(q', a), hq, rfl⟩

/-- The stops of a branch that come before a path in a later alternative: all
those of the branch's own alternative, and the earlier ones of the later ones. -/
theorem stops_before_next [Std.Irrefl r] {e : E} {v : Option V}
    {sub next : Search E V A} (hs : Sorted r (.branch e v sub next)) {q : Path E V} {a : A}
    {y : E × Option V} {p : Path E V} (hp : y.1 ∈ labels next) :
    ((q, a) ∈ stops (.branch e v sub next) ∧ Earlier r q (y :: p)) ↔
      (∃ q', q = (e, v) :: q' ∧ (q', a) ∈ stops sub) ∨
        ((q, a) ∈ stops next ∧ Earlier r q (y :: p)) := by
  have hey := hs.2.2.1 y.1 hp
  simp only [stops, List.mem_append, List.mem_map]
  constructor
  · rintro ⟨⟨z, hz, heq⟩ | hq, hlt⟩
    · obtain ⟨rfl, rfl⟩ := Prod.mk.inj heq
      exact .inl ⟨z.1, rfl, hz⟩
    · exact .inr ⟨hq, hlt⟩
  · rintro (⟨q', rfl, hq⟩ | ⟨hq, hlt⟩)
    · exact ⟨.inl ⟨(q', a), hq, rfl⟩, .inl hey⟩
    · exact ⟨.inr hq, hlt⟩

theorem Kept.sub [Std.Irrefl r] [Std.Asymm r] {e : E} {v : Option V} {sub next : Search E V A}
    (hs : Sorted r (.branch e v sub next)) {s : List V} {p : Path E V} {k : List V}
    (h : Kept r sub (s ++ v.toList) p k) :
    Kept r (.branch e v sub next) s ((e, v) :: p) k := by
  rcases h with ⟨hno, rfl⟩ | ⟨a, b, rfl, rfl, ⟨q, hq, hlt, haq⟩, hmax⟩
  · left
    refine ⟨?_, by simp⟩
    rintro ⟨⟨q, x⟩, hq, hlt⟩
    obtain ⟨q', -, hq', hlt'⟩ := (stops_before_sub hs).mp ⟨hq, hlt⟩
    exact hno ⟨(q', x), hq', hlt'⟩
  · right
    refine ⟨(e, v) :: a, b, rfl, rfl, ?_, ?_⟩
    · obtain ⟨h₁, h₂⟩ := (stops_before_sub hs).mpr ⟨q.1, rfl, hq, hlt⟩
      exact ⟨_, h₁, h₂, (List.cons_prefix_cons).mpr ⟨rfl, haq⟩⟩
    · rintro ⟨q', x⟩ hq' hlt' c hcq hcp
      obtain ⟨q'', rfl, hq'', hlt''⟩ := (stops_before_sub hs).mp ⟨hq', hlt'⟩
      cases c with
      | nil => exact List.nil_prefix
      | cons z c =>
        obtain ⟨hz, hcq'⟩ := List.cons_prefix_cons.mp hcq
        obtain ⟨-, hcp'⟩ := List.cons_prefix_cons.mp hcp
        exact List.cons_prefix_cons.mpr ⟨hz, hmax _ hq'' hlt'' c hcq' hcp'⟩

theorem Kept.next [Std.Irrefl r] {e : E} {v : Option V} {sub next : Search E V A}
    (hs : Sorted r (.branch e v sub next)) {s : List V} {y : E × Option V} {p : Path E V}
    {k : List V} (hp : y.1 ∈ labels next) (h : Kept r next (after sub s) (y :: p) k) :
    Kept r (.branch e v sub next) s (y :: p) k := by
  have hne : (e, v) ≠ y := by
    rintro rfl
    exact Std.Irrefl.irrefl _ (hs.2.2.1 _ hp)
  -- A stop of the branch's own alternative shares nothing with a later path.
  have hnil : ∀ q' : Path E V, ∀ c, c <+: (e, v) :: q' → c <+: y :: p → c = [] := by
    intro q' c hcq hcp
    cases c with
    | nil => rfl
    | cons z c =>
      obtain ⟨rfl, -⟩ := List.cons_prefix_cons.mp hcq
      exact absurd (List.cons_prefix_cons.mp hcp).1 hne
  rcases h with ⟨hno, rfl⟩ | ⟨a, b, hab, rfl, ⟨q, hq, hlt, haq⟩, hmax⟩
  · rcases hst : stops sub with _ | ⟨z, zs⟩
    · left
      refine ⟨?_, by simp [after, hst]⟩
      rintro ⟨⟨q, x⟩, hq, hlt⟩
      rcases (stops_before_next hs hp).mp ⟨hq, hlt⟩ with ⟨q', -, hq'⟩ | ⟨hq', hlt'⟩
      · simp [hst] at hq'
      · exact hno ⟨(q, x), hq', hlt'⟩
    · right
      refine ⟨[], y :: p, rfl, by simp [after, hst], ?_, ?_⟩
      · obtain ⟨h₁, h₂⟩ := (stops_before_next hs hp).mpr
          (.inl ⟨z.1, rfl, (by simp [hst] : (z.1, z.2) ∈ stops sub)⟩)
        exact ⟨_, h₁, h₂, List.nil_prefix⟩
      · rintro ⟨q, x⟩ hq hlt c hcq hcp
        rcases (stops_before_next hs hp).mp ⟨hq, hlt⟩ with ⟨q', rfl, -⟩ | ⟨hq', hlt'⟩
        · rw [hnil q' c hcq hcp]
        · exact absurd ⟨(q, x), hq', hlt'⟩ hno
  · right
    refine ⟨a, b, hab, rfl, ?_, ?_⟩
    · obtain ⟨h₁, h₂⟩ := (stops_before_next hs hp).mpr (.inr ⟨hq, hlt⟩)
      exact ⟨_, h₁, h₂, haq⟩
    · rintro ⟨q', x⟩ hq' hlt' c hcq hcp
      rcases (stops_before_next hs hp).mp ⟨hq', hlt'⟩ with ⟨q'', rfl, -⟩ | ⟨hq'', hlt''⟩
      · rw [hnil q'' c hcq hcp]
        exact List.nil_prefix
      · exact hmax _ hq'' hlt'' c hcq hcp

theorem path_mem_of_entered {t : Search E V A} {s : List V} {p : Path E V} {k : List V}
    (h : (p, k) ∈ entered t s) : p ∈ paths t := by
  rw [← entered_paths t s]
  exact List.mem_map_of_mem h

/-- A later alternative contributes paths that start with its own labels. -/
theorem exists_cons_of_path {t : Search E V A} {p : Path E V} (h : p ∈ paths t) :
    ∃ y p', p = y :: p' ∧ y.1 ∈ labels t := by
  cases p with
  | nil =>
    exfalso
    induction t with
    | stop a => simp [paths] at h
    | fail => simp [paths] at h
    | branch e v sub next _ ihn => exact ihn (by simpa [paths] using h)
  | cons y p => exact ⟨y, p, rfl, label_mem_of_path h⟩

/-- **What the stack keeps**, at every path the search enters. -/
theorem kept_of_mem_entered [Std.Irrefl r] [Std.Asymm r] {t : Search E V A} (hs : Sorted r t) :
    ∀ {s : List V} {p : Path E V} {k : List V}, (p, k) ∈ entered t s → Kept r t s p k := by
  induction t with
  | stop a => simp [entered]
  | fail => simp [entered]
  | branch e v sub next ihs ihn =>
    intro s p k h
    simp only [entered, List.cons_append, List.mem_cons, List.mem_append, List.mem_map] at h
    rcases h with h | ⟨x, hx, heq⟩ | h
    · obtain ⟨rfl, rfl⟩ := Prod.mk.inj h
      refine Kept.sub hs (.inl ⟨?_, by simp⟩)
      rintro ⟨q, -, hlt⟩
      exact not_earlier_nil r _ hlt
    · obtain ⟨rfl, rfl⟩ := Prod.mk.inj heq
      exact Kept.sub hs (ihs hs.1 hx)
    · obtain ⟨y, p', rfl, hy⟩ := exists_cons_of_path (path_mem_of_entered h)
      exact Kept.next hs hy (ihn hs.2.1 h)

/-- A stop is handed the stack of its path. -/
theorem entered_of_mem_results {t : Search E V A} (hs : Sorted r t) :
    ∀ {s : List V} {p : Path E V} {k : List V} {a : A}, (p, k, a) ∈ results t s →
      (t = .stop a ∧ p = [] ∧ k = s) ∨ (p, k) ∈ entered t s := by
  induction t with
  | stop a =>
    intro s p k a h
    simp only [results, List.mem_singleton, Prod.mk.injEq] at h
    obtain ⟨rfl, rfl, rfl⟩ := h
    exact .inl ⟨rfl, rfl, rfl⟩
  | fail => simp [results]
  | branch e v sub next ihs ihn =>
    intro s p k a h
    right
    simp only [results, List.mem_append, List.mem_map] at h
    simp only [entered, List.cons_append, List.mem_cons, List.mem_append, List.mem_map]
    rcases h with ⟨⟨p', k', a'⟩, hx, heq⟩ | h
    · simp only [Prod.mk.injEq] at heq
      obtain ⟨rfl, rfl, rfl⟩ := heq
      rcases ihs hs.1 hx with ⟨-, rfl, rfl⟩ | hx
      · exact .inl rfl
      · exact .inr (.inl ⟨_, hx, rfl⟩)
    · rcases ihn hs.2.1 h with ⟨hstop, -⟩ | h
      · exact absurd hstop (hs.2.2.2 a)
      · exact .inr (.inr h)

theorem kept_of_mem_results [Std.Irrefl r] [Std.Asymm r] {t : Search E V A} (hs : Sorted r t)
    {s : List V} {p : Path E V} {k : List V} {a : A} (h : (p, k, a) ∈ results t s) :
    Kept r t s p k := by
  rcases entered_of_mem_results hs h with ⟨-, rfl, rfl⟩ | h
  · refine .inl ⟨?_, by simp⟩
    rintro ⟨q, -, hlt⟩
    exact not_earlier_nil r _ hlt
  · exact kept_of_mem_entered hs h

/-- **What a stop loses**: exactly the values of the longest piece it shares
with an earlier stop. -/
theorem handed_length [Std.Irrefl r] [Std.Asymm r] {t : Search E V A} (hs : Sorted r t)
    {p : Path E V} {k : List V} {a : A} (h : (p, k, a) ∈ results t []) :
    (∀ q ∈ stops t, Earlier r q.1 p → ∀ c, c <+: q.1 → c <+: p →
      (values c).length + k.length ≤ (values p).length) ∧
    (k.length = (values p).length ∨ ∃ q ∈ stops t, Earlier r q.1 p ∧ ∃ c, c <+: q.1 ∧ c <+: p ∧
      (values c).length + k.length = (values p).length) := by
  rcases kept_of_mem_results hs h with ⟨hno, rfl⟩ | ⟨a', b, rfl, rfl, ⟨q, hq, hlt, haq⟩, hmax⟩
  · refine ⟨fun q hq hlt => absurd ⟨q, hq, hlt⟩ hno, .inl rfl⟩
  · refine ⟨fun q' hq' hlt' c hcq hcp => ?_, .inr ⟨q, hq, hlt, a', haq, List.prefix_append _ _, ?_⟩⟩
    · have hpre := (values_isPrefix (hmax q' hq' hlt' c hcq hcp)).length_le
      rw [values_append, List.length_append]
      omega
    · rw [values_append, List.length_append]

/-- A handed stack is always a final piece of the path's values. -/
theorem handed_isSuffix [Std.Irrefl r] [Std.Asymm r] {t : Search E V A} (hs : Sorted r t)
    {p : Path E V} {k : List V} {a : A} (h : (p, k, a) ∈ results t []) : k <:+ values p := by
  rcases kept_of_mem_results hs h with ⟨-, rfl⟩ | ⟨a', b, rfl, rfl, -⟩
  · simp
  · rw [values_append]
    exact List.suffix_append _ _

/-- **Where the stack's bound is met.**  For a bound that every final piece of
a fitting stack meets, the search is cut short iff it enters a path `a ++ b`
whose values along `b` are too many and whose earlier stops all part from it
inside `a`. -/
theorem overflow_iff [Std.Irrefl r] [Std.Asymm r] {t : Search E V A} (hs : Sorted r t)
    {fits : List V → Bool} (hfits : ∀ l k, fits (l ++ k) = true → fits k = true) :
    (¬∀ x ∈ entered t [], fits x.2 = true) ↔
      ∃ a b, a ++ b ∈ paths t ∧ fits (values b) = false ∧
        ∀ q ∈ stops t, Earlier r q.1 (a ++ b) → ∀ c, c <+: q.1 → c <+: a ++ b → c <+: a := by
  constructor
  · intro h
    push Not at h
    obtain ⟨⟨p, k⟩, hx, hk⟩ := h
    replace hk : fits k = false := Bool.eq_false_iff.mpr hk
    have hp := path_mem_of_entered hx
    rcases kept_of_mem_entered hs hx with ⟨hno, rfl⟩ | ⟨a, b, rfl, rfl, -, hmax⟩
    · exact ⟨[], p, hp, hk, fun q hq hlt => absurd ⟨q, hq, hlt⟩ hno⟩
    · exact ⟨a, b, hp, hk, hmax⟩
  · rintro ⟨a, b, hp, hb, hmax⟩ hall
    rw [← entered_paths t [], List.mem_map] at hp
    obtain ⟨⟨p, k⟩, hx, rfl⟩ := hp
    have hk := hall _ hx
    have hbk : ∃ l, k = l ++ values b := by
      rcases kept_of_mem_entered hs hx with ⟨-, rfl⟩ | ⟨a', b', hab, rfl, ⟨q, hq, hlt, haq⟩, -⟩
      · exact ⟨values a, by simp⟩
      · obtain ⟨d, rfl⟩ := hmax q hq hlt a' haq (hab ▸ List.prefix_append a' b')
        rw [List.append_assoc, List.append_cancel_left_eq] at hab
        exact ⟨values d, by rw [← hab, values_append]⟩
    obtain ⟨l, rfl⟩ := hbk
    rw [hfits l _ hk] at hb
    exact absurd hb (by simp)

end Kept

end Backtrack
