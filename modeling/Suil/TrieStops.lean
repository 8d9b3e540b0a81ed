/-
The stops of `find`.

The search tree of `find` in terms of the paths of the trie: where it stops and
what it enters, told by matching paths against the URL.

* `trace` — matching a path against a URL, with the value of every step;
* `spelledTree` — the search of `find` with every fragment spelled out, which
  hands over the same (`run_spelledTree`);
* `mem_stops_spelledTree` — it stops exactly at the paths of the trie that match
  the whole URL;
* `mem_paths_of_entered`, `entered_of_mem_paths` — it enters the paths along
  whole links that match a first piece of the URL, and pieces of fragments;
* `spelledTree_sorted` — at every node it follows the order of `rank`.
-/
import Suil.TrieShape

open Backtrack

namespace Suil

/-- The number of parameters along a path. -/
def paramCount : List Token → ℕ
  | [] => 0
  | .lit _ :: q => paramCount q
  | .param _ :: q => paramCount q + 1

theorem paramCount_eq_zero_iff {q : List Token} : paramCount q = 0 ↔ ∀ k, Token.param k ∉ q := by
  induction q with
  | nil => simp [paramCount]
  | cons tok q ih =>
    cases tok with
    | lit c => simp [paramCount, ih]
    | param k =>
      simp only [paramCount, Nat.add_eq_zero_iff, Nat.one_ne_zero, and_false, false_iff, not_forall,
        not_not]
      exact ⟨k, List.mem_cons_self⟩

section Trace

variable {D : Type} (strtod : Strtod D)

/-- One step against a URL: its value, if it has one, and the bytes left. -/
def Token.step : Token → Bytes → Option (Option (Value D) × Bytes)
  | .lit _, [] => none
  | .lit c, b :: rest => if b = c then some (none, rest) else none
  | .param k, rest => (scan strtod k rest).map fun x => (some x.1, rest.drop x.2)

/-- A path against a URL: its steps with their values, and the bytes left. -/
def trace : List Token → Bytes → Option (Path Token (Value D) × Bytes)
  | [], rest => some ([], rest)
  | tok :: q, rest =>
    (tok.step strtod rest).bind fun x =>
      (trace q x.2).map fun y => ((tok, x.1) :: y.1, y.2)

variable {strtod}

theorem Token.step_length {tok : Token} {rest rest' : Bytes} {v : Option (Value D)}
    (h : tok.step strtod rest = some (v, rest')) : rest'.length < rest.length := by
  cases tok with
  | lit c =>
    cases rest with
    | nil => simp [Token.step] at h
    | cons b rest =>
      simp only [Token.step, Option.ite_none_right_eq_some, Option.some.injEq, Prod.mk.injEq] at h
      obtain ⟨-, -, rfl⟩ := h
      simp
  | param k =>
    simp only [Token.step, Option.map_eq_some_iff, Prod.mk.injEq] at h
    obtain ⟨x, hx, -, rfl⟩ := h
    have := scan_consumed strtod hx
    rw [List.length_drop]
    omega

theorem Token.step_nil (tok : Token) : tok.step strtod [] = none := by
  rcases h : tok.step strtod [] with _ | ⟨v, rest⟩
  · rfl
  · exact absurd (Token.step_length h) (Nat.not_lt_zero _)

theorem trace_labels {q : List Token} {rest rest' : Bytes} {p : Path Token (Value D)}
    (h : trace strtod q rest = some (p, rest')) : p.map Prod.fst = q := by
  induction q generalizing rest p with
  | nil =>
    simp only [trace, Option.some.injEq, Prod.mk.injEq] at h
    rw [← h.1]
    rfl
  | cons tok q ih =>
    simp only [trace, Option.bind_eq_some_iff, Option.map_eq_some_iff, Prod.mk.injEq] at h
    obtain ⟨x, -, y, hy, rfl, rfl⟩ := h
    rw [List.map_cons, ih hy]

theorem trace_append (p q : List Token) (rest : Bytes) :
    trace strtod (p ++ q) rest =
      (trace strtod p rest).bind fun x => (trace strtod q x.2).map fun y => (x.1 ++ y.1, y.2) := by
  induction p generalizing rest with
  | nil => simp [trace]
  | cons tok p ih =>
    simp only [List.cons_append, trace, ih, Option.bind_assoc, Option.map_bind]
    refine congrArg _ (funext fun x => ?_)
    rcases trace strtod p x.2 with _ | y
    · rfl
    · simp only [Option.bind_some, Function.comp, Option.map_some]
      rcases trace strtod q y.2 with _ | z <;> rfl

theorem trace_append_eq_some {p q : List Token} {rest r : Bytes} {s : Path Token (Value D)} :
    trace strtod (p ++ q) rest = some (s, r) ↔
      ∃ sp r' sq, trace strtod p rest = some (sp, r') ∧ trace strtod q r' = some (sq, r) ∧
        s = sp ++ sq := by
  simp only [trace_append, Option.bind_eq_some_iff, Option.map_eq_some_iff, Prod.mk.injEq,
    Prod.exists]
  constructor
  · rintro ⟨sp, r', hp, sq, r'', hq, rfl, rfl⟩
    exact ⟨sp, r', sq, hp, hq, rfl⟩
  · rintro ⟨sp, r', sq, hp, hq, rfl⟩
    exact ⟨sp, r', hp, sq, r, hq, rfl, rfl⟩

/-- A first piece of a traced path is traced by its own steps. -/
theorem trace_of_append {p q : Path Token (Value D)} {rest r : Bytes}
    (h : trace strtod ((p ++ q).map Prod.fst) rest = some (p ++ q, r)) :
    ∃ r', trace strtod (p.map Prod.fst) rest = some (p, r') ∧
      trace strtod (q.map Prod.fst) r' = some (q, r) := by
  rw [List.map_append, trace_append_eq_some] at h
  obtain ⟨sp, r', sq, hp, hq, heq⟩ := h
  have hlen : p.length = sp.length := by simpa using (congrArg List.length (trace_labels hp)).symm
  obtain ⟨rfl, rfl⟩ := List.append_inj heq hlen
  exact ⟨r', hp, hq⟩

/-- Matching a route is tracing it and keeping the values. -/
theorem matchPattern_eq_trace (q : List Token) (rest : Bytes) :
    matchPattern strtod q rest = (trace strtod q rest).map fun x => (values x.1, x.2) := by
  induction q generalizing rest with
  | nil => rfl
  | cons tok q ih =>
    cases tok with
    | lit c =>
      cases rest with
      | nil => rfl
      | cons b rest =>
        simp only [matchPattern, trace, Token.step]
        split_ifs with hb
        · rw [ih, Option.bind_some, Option.map_map]
          rfl
        · rfl
    | param k =>
      simp only [matchPattern, trace, Token.step]
      rcases scan strtod k rest with _ | ⟨v, n⟩
      · rfl
      · simp only [Option.bind_eq_bind, Option.bind_some, Option.map_some, ih, Option.map_map]
        rcases trace strtod q (rest.drop n) with _ | y <;> rfl

/-- Along a traced path exactly the parameters carry values. -/
theorem trace_values_length {q : List Token} {rest rest' : Bytes} {p : Path Token (Value D)}
    (h : trace strtod q rest = some (p, rest')) : (values p).length = paramCount q := by
  induction q generalizing rest p with
  | nil =>
    simp only [trace, Option.some.injEq, Prod.mk.injEq] at h
    rw [← h.1]
    rfl
  | cons tok q ih =>
    simp only [trace, Option.bind_eq_some_iff, Option.map_eq_some_iff, Prod.mk.injEq] at h
    obtain ⟨⟨v, r⟩, hx, y, hy, rfl, rfl⟩ := h
    rw [values_cons, List.length_append, ih hy]
    cases tok with
    | lit c =>
      cases rest with
      | nil => simp [Token.step] at hx
      | cons b rest =>
        simp only [Token.step, Option.ite_none_right_eq_some, Option.some.injEq,
          Prod.mk.injEq] at hx
        obtain ⟨-, rfl, -⟩ := hx
        simp [paramCount]
    | param k =>
      simp only [Token.step, Option.map_eq_some_iff, Prod.mk.injEq] at hx
      obtain ⟨x, -, rfl, -⟩ := hx
      simp [paramCount, Nat.add_comm]

/-- At the end of the URL nothing but the empty path matches. -/
theorem trace_nil_eq_some {q : List Token} {x : Path Token (Value D) × Bytes} :
    trace strtod q [] = some x ↔ q = [] ∧ x = ([], []) := by
  cases q with
  | nil => simp [trace, eq_comm]
  | cons tok q => simp [trace, Token.step_nil]

/-- Literal characters against a URL. -/
theorem trace_lits {f rest r : Bytes} {s : Path Token (Value D)} :
    trace strtod (f.map .lit) rest = some (s, r) ↔
      rest = f ++ r ∧ s = spelled (f.map .lit) := by
  induction f generalizing rest s with
  | nil => simp [trace, spelled, eq_comm, and_comm]
  | cons c f ih =>
    cases rest with
    | nil => simp [trace, Token.step]
    | cons b rest =>
      simp only [List.map_cons, trace, Token.step, Option.bind_eq_some_iff,
        Option.ite_none_right_eq_some, Option.some.injEq, Option.map_eq_some_iff, Prod.mk.injEq,
        List.cons_append, List.cons.injEq]
      constructor
      · rintro ⟨x, ⟨rfl, rfl⟩, ⟨s', r'⟩, hs', rfl, rfl⟩
        obtain ⟨rfl, rfl⟩ := ih.mp hs'
        exact ⟨⟨rfl, rfl⟩, rfl⟩
      · rintro ⟨⟨rfl, rfl⟩, rfl⟩
        exact ⟨_, ⟨rfl, rfl⟩, (_, _), ih.mpr ⟨rfl, rfl⟩, rfl, rfl⟩

end Trace

namespace RoutesTrie

section Spelled

variable {D : Type} (strtod : Strtod D)

/-- The alternatives at a node, with every fragment spelled out. -/
def spelledAlternatives (search : ℕ → Bytes → Search Token (Value D) ℕ) (rest : Bytes) :
    List Edge → Search Token (Value D) ℕ
  | [] => .fail
  | e :: es =>
    match e.take strtod rest with
    | none => spelledAlternatives search rest es
    | some (v, rest') =>
      .branch e.token v (under e.tokens.tail (search e.child rest'))
        (spelledAlternatives search rest es)

/-- The search of `find` with every fragment spelled out. -/
def spelledTree (t : RoutesTrie) : ℕ → ℕ → Bytes → Search Token (Value D) ℕ
  | 0, _, _ => .fail
  | _ + 1, i, [] => .stop (t.node i).index
  | fuel + 1, i, rest => spelledAlternatives strtod (spelledTree t fuel) rest (t.node i).edges

variable {strtod}

/-- What is left of a stack that fits still fits. -/
theorem fits_after {T : Search Token (Value D) ℕ} {s : List (Value D)}
    (hs : RoutingParams.fits s = true) : RoutingParams.fits (after T s) = true := by
  rw [after]
  split_ifs
  · exact hs
  · rfl

theorem run_spelledAlternatives {search search' : ℕ → Bytes → Search Token (Value D) ℕ}
    {rest : Bytes} {es : List Edge}
    (hsearch : ∀ j r s, RoutingParams.fits s = true →
      run RoutingParams.fits (search' j r) s = run RoutingParams.fits (search j r) s) :
    ∀ s, RoutingParams.fits s = true →
      run RoutingParams.fits (spelledAlternatives strtod search' rest es) s =
        run RoutingParams.fits (alternatives strtod search rest es) s := by
  induction es with
  | nil => exact fun _ _ => rfl
  | cons e es ih =>
    intro s hs
    rcases htake : e.take strtod rest with _ | ⟨v, rest'⟩
    · simpa only [spelledAlternatives, alternatives, htake] using ih s hs
    · simp only [spelledAlternatives, alternatives, htake, run]
      by_cases hf : RoutingParams.fits (s ++ v.toList) = true
      · rw [if_pos hf, if_pos hf, run_under hf, hsearch _ _ _ hf]
        rcases hrun : run RoutingParams.fits (search e.child rest') (s ++ v.toList) with _ | ⟨r, s'⟩
        · rfl
        · have hst := run_stack hrun
          subst hst
          simp only [Option.bind_eq_bind, Option.bind_some, pop_after]
          rw [ih _ (fits_after hs)]
      · rw [if_neg hf, if_neg hf]

/-- Spelling the fragments out changes nothing that the search hands over. -/
theorem run_spelledTree (t : RoutesTrie) (fuel i : ℕ) (rest : Bytes) {s : List (Value D)}
    (hs : RoutingParams.fits s = true) :
    run RoutingParams.fits (t.spelledTree strtod fuel i rest) s =
      run RoutingParams.fits (t.searchTree strtod fuel i rest) s := by
  induction fuel generalizing i rest s with
  | zero => rfl
  | succ fuel ih =>
    cases rest with
    | nil => rfl
    | cons c rest => exact run_spelledAlternatives (fun j r s hs => ih j r hs) s hs

end Spelled

section Stops

variable {D : Type} {strtod : Strtod D} {t : RoutesTrie}

/-- What a link adds to a path. -/
def Edge.path (e : Edge) (v : Option (Value D)) : Path Token (Value D) :=
  (e.token, v) :: spelled e.tokens.tail

/-- The links of a node that take something from the URL are those whose steps
match. -/
theorem take_iff {i : ℕ} {e : Edge} {rest r : Bytes} (ht : t.Shaped rest)
    (he : e ∈ (t.node i).edges) {s : Path Token (Value D)} :
    trace strtod e.tokens rest = some (s, r) ↔
      ∃ v, e.take strtod rest = some (v, r) ∧ s = e.path v := by
  cases e with
  | param k j =>
    simp only [Edge.tokens, trace, Token.step, Option.bind_eq_some_iff, Option.map_eq_some_iff,
      Prod.mk.injEq, Edge.take, Edge.path, Edge.token]
    constructor
    · rintro ⟨_, ⟨x, hx, rfl⟩, _, ⟨rfl⟩, rfl, rfl⟩
      exact ⟨_, ⟨x, hx, rfl, rfl⟩, rfl⟩
    · rintro ⟨_, ⟨x, hx, rfl, rfl⟩, rfl⟩
      exact ⟨_, ⟨x, hx, rfl⟩, _, rfl, rfl, rfl⟩
  | text f j =>
    have hmem := Node.text_mem_edges.mp he
    have hne := ht.nonempty _ hmem
    have hpre := ht.prefixes _ hmem rest (List.suffix_refl _)
    simp only at hne hpre
    have hpath : spelled (f.map .lit) = (Edge.text f j).path (none : Option (Value D)) := by
      cases f with
      | nil => exact absurd rfl hne
      | cons c f => rfl
    simp only [Edge.tokens, Edge.take, trace_lits, hpre, Option.ite_none_right_eq_some,
      Option.some.injEq, Prod.mk.injEq]
    constructor
    · rintro ⟨rfl, rfl⟩
      exact ⟨none, ⟨List.prefix_append f r, rfl, by simp⟩, hpath⟩
    · rintro ⟨_, ⟨⟨r', rfl⟩, rfl, rfl⟩, rfl⟩
      exact ⟨by simp, hpath.symm⟩

theorem Edge.path_labels (ht : t.Branching) {i : ℕ} {e : Edge} (he : e ∈ (t.node i).edges)
    (v : Option (Value D)) : (e.path v).map Prod.fst = e.tokens := by
  have hlab : ∀ w : List Token, (spelled w : Path Token (Value D)).map Prod.fst = w := by
    intro w
    simp [spelled, Function.comp_def]
  cases e with
  | param k j => rfl
  | text f j =>
    obtain ⟨c, f', hf⟩ := List.exists_cons_of_ne_nil (ht.nonempty _ (Node.text_mem_edges.mp he))
    simp only at hf
    subst hf
    simp [Edge.path, Edge.tokens, Edge.token, hlab]

/-! ### Stops and paths -/

theorem mem_stops_spelled {search : ℕ → Bytes → Search Token (Value D) ℕ} {rest : Bytes}
    {es : List Edge} {p : Path Token (Value D)} {a : ℕ} :
    (p, a) ∈ stops (spelledAlternatives strtod search rest es) ↔
      ∃ e ∈ es, ∃ x, e.take strtod rest = some x ∧
        ∃ p', p = e.path x.1 ++ p' ∧ (p', a) ∈ stops (search e.child x.2) := by
  induction es with
  | nil => simp [spelledAlternatives, stops]
  | cons e es ih =>
    rcases htake : e.take strtod rest with _ | ⟨v, rest'⟩
    · simp [spelledAlternatives, htake, ih]
    · simp only [spelledAlternatives, htake, stops, List.mem_append, List.mem_map, ih, List.mem_cons,
        exists_eq_or_imp, Prod.exists, mem_stops_under]
      refine or_congr ⟨?_, ?_⟩ Iff.rfl
      · rintro ⟨_, _, ⟨p', rfl, hp'⟩, heq⟩
        obtain ⟨rfl, rfl⟩ := Prod.mk.inj heq
        exact ⟨_, _, rfl, p', rfl, hp'⟩
      · rintro ⟨_, _, hx, p', rfl, hp'⟩
        obtain ⟨rfl, rfl⟩ := Prod.mk.inj (Option.some.inj hx)
        exact ⟨_, _, ⟨p', rfl, hp'⟩, rfl⟩

theorem mem_paths_spelled {search : ℕ → Bytes → Search Token (Value D) ℕ} {rest : Bytes}
    {es : List Edge} {p : Path Token (Value D)} :
    p ∈ paths (spelledAlternatives strtod search rest es) ↔
      ∃ e ∈ es, ∃ x, e.take strtod rest = some x ∧
        ((p ≠ [] ∧ p <+: e.path x.1) ∨
          ∃ p', p = e.path x.1 ++ p' ∧ p' ∈ paths (search e.child x.2)) := by
  induction es with
  | nil => simp [spelledAlternatives, paths]
  | cons e es ih =>
    rcases htake : e.take strtod rest with _ | ⟨v, rest'⟩
    · simp [spelledAlternatives, htake, ih]
    · simp only [spelledAlternatives, htake, paths, List.cons_append, List.mem_cons, List.mem_append,
        List.mem_map, ih, exists_eq_or_imp, ← or_assoc, mem_paths_under]
      refine or_congr ⟨?_, ?_⟩ Iff.rfl
      · rintro (rfl | ⟨y, ⟨hy, hpre⟩ | ⟨p', rfl, hp'⟩, rfl⟩)
        · exact ⟨_, rfl, .inl ⟨by simp, List.cons_prefix_cons.mpr ⟨rfl, List.nil_prefix⟩⟩⟩
        · exact ⟨_, rfl, .inl ⟨by simp, List.cons_prefix_cons.mpr ⟨rfl, hpre⟩⟩⟩
        · exact ⟨_, rfl, .inr ⟨p', rfl, hp'⟩⟩
      · rintro ⟨x, hx, hp⟩
        rw [Option.some_inj] at hx
        subst hx
        rcases hp with ⟨hne, hpre⟩ | ⟨p', rfl, hp'⟩
        · obtain ⟨z, p, rfl⟩ := List.exists_cons_of_ne_nil hne
          obtain ⟨rfl, hpre'⟩ := List.cons_prefix_cons.mp hpre
          by_cases h : p = []
          · exact .inl (by rw [h])
          · exact .inr ⟨p, .inl ⟨h, hpre'⟩, rfl⟩
        · exact .inr ⟨_, .inr ⟨p', rfl, hp'⟩, rfl⟩

theorem take_length (ht : t.Branching) {i : ℕ} {e : Edge} (he : e ∈ (t.node i).edges)
    {rest rest' : Bytes} {v : Option (Value D)} (h : e.take strtod rest = some (v, rest')) :
    rest'.length < rest.length := by
  refine Edge.take_length (fun f j hf => ?_) h
  subst hf
  exact ht.nonempty _ (Node.text_mem_edges.mp he)

theorem take_suffix {e : Edge} {rest rest' : Bytes} {v : Option (Value D)}
    (h : e.take strtod rest = some (v, rest')) : rest' <:+ rest := by
  cases e with
  | param k j =>
    simp only [Edge.take, Option.map_eq_some_iff, Prod.mk.injEq] at h
    obtain ⟨x, -, -, rfl⟩ := h
    exact List.drop_suffix _ _
  | text f j =>
    simp only [Edge.take, Option.ite_none_right_eq_some, Option.some.injEq, Prod.mk.injEq] at h
    obtain ⟨-, -, rfl⟩ := h
    exact List.drop_suffix _ _

/-- **Where `find` stops**: at the paths that match the whole URL. -/
theorem mem_stops_spelledTree {fuel i : ℕ} {rest : Bytes} (ht : t.Shaped rest)
    (hfuel : rest.length < fuel) {p : Path Token (Value D)} {a : ℕ} :
    (p, a) ∈ stops (t.spelledTree strtod fuel i rest) ↔
      trace strtod (p.map Prod.fst) rest = some (p, []) ∧
        ∃ j, t.Leads i (p.map Prod.fst) j ∧ (t.node j).index = a := by
  induction fuel generalizing i rest p with
  | zero => omega
  | succ fuel ih =>
    constructor
    · intro h
      cases rest with
      | nil =>
        obtain ⟨rfl, rfl⟩ := by
          simpa only [spelledTree, stops, List.mem_singleton, Prod.mk.injEq] using h
        exact ⟨rfl, i, .here i, rfl⟩
      | cons c rest =>
        obtain ⟨e, he, ⟨v, rest'⟩, hx, p', rfl, hp'⟩ := mem_stops_spelled.mp h
        have hlen := lt_of_lt_of_le (take_length ht.toBranching he hx) (Nat.le_of_lt_succ hfuel)
        obtain ⟨h₁, j, h₂, ha⟩ := (ih (ht.suffix (take_suffix hx)) hlen).mp hp'
        have htake := (take_iff ht he).mpr ⟨v, hx, rfl⟩
        rw [List.map_append, Edge.path_labels ht.toBranching he]
        exact ⟨trace_append_eq_some.mpr ⟨_, _, _, htake, h₁, rfl⟩, j, .edge he h₂, ha⟩
    · rintro ⟨h₁, j, h₂, ha⟩
      cases rest with
      | nil =>
        obtain ⟨hp, -⟩ := trace_nil_eq_some.mp h₁
        obtain rfl := List.map_eq_nil_iff.mp hp
        obtain rfl := leads_nil ht.toBranching h₂
        simp [spelledTree, stops, ha]
      | cons c rest =>
        generalize hq : p.map Prod.fst = q at h₁ h₂
        cases h₂ with
        | here => simp [trace] at h₁
        | @edge _ _ e q he h₂ =>
          obtain ⟨sp, r, sq, hsp, hsq, rfl⟩ := trace_append_eq_some.mp h₁
          obtain ⟨v, hx, rfl⟩ := (take_iff ht he).mp hsp
          have hlen := lt_of_lt_of_le (take_length ht.toBranching he hx) (Nat.le_of_lt_succ hfuel)
          have hlab : sq.map Prod.fst = q := trace_labels hsq
          refine mem_stops_spelled.mpr ⟨e, he, (v, r), hx, sq, rfl, (ih (ht.suffix (take_suffix hx)) hlen).mpr ?_⟩
          rw [hlab]
          exact ⟨hsq, j, h₂, ha⟩

/-- The head of the search and the paths along whole links that match a first
piece of the URL. -/
def Entered (strtod : Strtod D) (t : RoutesTrie) (i : ℕ) (rest : Bytes)
    (p : Path Token (Value D)) : Prop :=
  (∃ r, trace strtod (p.map Prod.fst) rest = some (p, r)) ∧ ∃ j, t.Leads i (p.map Prod.fst) j

/-- **What `find` enters**: the paths that match a first piece of the URL. -/
theorem mem_paths_of_entered {fuel i : ℕ} {rest : Bytes} (ht : t.Shaped rest)
    (hfuel : rest.length < fuel) {p : Path Token (Value D)} (hne : p ≠ [])
    (hp : Entered strtod t i rest p) : p ∈ paths (t.spelledTree strtod fuel i rest) := by
  induction fuel generalizing i rest p with
  | zero => omega
  | succ fuel ih =>
    obtain ⟨⟨r, h₁⟩, j, h₂⟩ := hp
    cases rest with
    | nil => exact absurd (List.map_eq_nil_iff.mp (trace_nil_eq_some.mp h₁).1) hne
    | cons c rest =>
      generalize hq : p.map Prod.fst = q at h₁ h₂
      cases h₂ with
      | here => exact absurd (List.map_eq_nil_iff.mp hq) hne
      | @edge _ _ e q he h₂ =>
        obtain ⟨sp, r', sq, hsp, hsq, rfl⟩ := trace_append_eq_some.mp h₁
        obtain ⟨v, hx, rfl⟩ := (take_iff ht he).mp hsp
        have hlen := lt_of_lt_of_le (take_length ht.toBranching he hx) (Nat.le_of_lt_succ hfuel)
        have hlab : sq.map Prod.fst = q := trace_labels hsq
        refine mem_paths_spelled.mpr ⟨e, he, (v, r'), hx, ?_⟩
        by_cases hsq₀ : sq = []
        · exact .inl ⟨hne, by rw [hsq₀, List.append_nil]⟩
        · refine .inr ⟨sq, rfl, ih (ht.suffix (take_suffix hx)) hlen hsq₀ ⟨⟨r, ?_⟩, j, ?_⟩⟩
          · rwa [hlab]
          · rwa [hlab]

/-- Inside a fragment the stack is that of the last whole link. -/
theorem entered_of_mem_paths {fuel i : ℕ} {rest : Bytes} (ht : t.Shaped rest)
    (hfuel : rest.length < fuel) {p : Path Token (Value D)}
    (hp : p ∈ paths (t.spelledTree strtod fuel i rest)) :
    ∃ p₀ w, p = p₀ ++ spelled w ∧ Entered strtod t i rest p₀ := by
  induction fuel generalizing i rest p with
  | zero => omega
  | succ fuel ih =>
    cases rest with
    | nil => simp [spelledTree, paths] at hp
    | cons c rest =>
      obtain ⟨e, he, ⟨v, rest'⟩, hx, hp⟩ := mem_paths_spelled.mp hp
      have hlen := lt_of_lt_of_le (take_length ht.toBranching he hx) (Nat.le_of_lt_succ hfuel)
      have htake := (take_iff ht he).mpr ⟨v, hx, rfl⟩
      have hlab := Edge.path_labels ht.toBranching he v
      have hlead : ∃ j, t.Leads i ((e.path v).map Prod.fst) j := ⟨e.child, hlab ▸ .single he⟩
      rcases hp with ⟨hne, hpre⟩ | ⟨p', rfl, hp'⟩
      · -- The piece of one link is the whole link or carries no value.
        cases e with
        | param k j =>
          obtain rfl : p = (Edge.param k j).path v := by
            have : (Edge.param k j).path v = [(.param k, v)] := rfl
            rw [this] at hpre ⊢
            rcases List.prefix_cons_iff.mp hpre with rfl | ⟨p', rfl, hp'⟩
            · exact absurd rfl hne
            · rw [List.prefix_nil.mp hp']
          exact ⟨_, [], by simp [spelled], ⟨⟨rest', hlab ▸ htake⟩, hlead⟩⟩
        | text f j =>
          have hv : v = none := by
            simp only [Edge.take, Option.ite_none_right_eq_some, Option.some.injEq,
              Prod.mk.injEq] at hx
            exact hx.2.1.symm
          subst hv
          have hspell : (Edge.text f j).path (none : Option (Value D)) =
              spelled ((Edge.text f j).token :: (Edge.text f j).tokens.tail) := rfl
          rw [hspell] at hpre
          have hp : p = spelled (p.map Prod.fst) := by
            obtain ⟨s, hs⟩ := hpre
            have hall : ∀ x ∈ p, x.2 = none := by
              intro x hx
              have hmem : x ∈ (spelled ((Edge.text f j).token :: (Edge.text f j).tokens.tail) :
                Path Token (Value D)) := hs ▸ List.mem_append_left s hx
              obtain ⟨tok, -, rfl⟩ := List.mem_map.mp hmem
              rfl
            rw [spelled, List.map_map]
            refine (List.map_id p).symm.trans (List.map_congr_left fun x hx => ?_)
            exact Prod.ext rfl (hall x hx)
          exact ⟨[], p.map Prod.fst, hp, ⟨_, rfl⟩, i, .here i⟩
      · obtain ⟨p₀, w, rfl, ⟨r, h₁⟩, j, h₂⟩ := ih (ht.suffix (take_suffix hx)) hlen hp'
        refine ⟨e.path v ++ p₀, w, by simp, ⟨r, ?_⟩, j, ?_⟩
        · rw [List.map_append, hlab]
          exact trace_append_eq_some.mpr ⟨_, _, _, htake, h₁, rfl⟩
        · rw [List.map_append, hlab]
          exact .edge he h₂

/-! ### The order -/

/-- The place of a step in the order `find` tries the links of a node. -/
def rank : Token → ℕ
  | .param .int => 0
  | .param .uint => 1
  | .param .double => 2
  | .param .string => 3
  | .param .path => 4
  | .lit _ => 5

/-- The order `find` follows at a node. -/
def Before (x y : Token) : Prop := rank x < rank y

instance : Std.Irrefl Before := ⟨fun _ => lt_irrefl _⟩

instance : Std.Asymm Before := ⟨fun _ _ h h' => absurd h (lt_asymm h')⟩

instance : DecidableRel Before := fun _ _ => inferInstanceAs (Decidable (_ < _))

/-- The links of a node follow the order, but for different fragments of one
length. -/
theorem edges_pairwise (ht : t.Branching) (i : ℕ) :
    (t.node i).edges.Pairwise fun e e' => Before e.token e'.token ∨
      ∃ f f' j j', e = .text f j ∧ e' = .text f' j' ∧ f ≠ f' ∧ f.length = f'.length := by
  rw [Node.edges, List.pairwise_append]
  refine ⟨?_, ?_, ?_⟩
  · rw [List.pairwise_map]
    refine (List.Pairwise.filter _ ?_).imp (fun h => Or.inl h)
    show List.Pairwise (fun a b => rank (.param a) < rank (.param b)) _
    simp [rank]
  · rw [List.pairwise_map]
    have hkeys := ht.keys i
    rw [List.nodup_iff_pairwise_ne, List.pairwise_map] at hkeys
    refine hkeys.imp_of_mem fun {c c'} hc hc' hne => Or.inr ?_
    exact ⟨c.1, c'.1, c.2, c'.2, rfl, rfl, hne, ht.lengths c hc c' hc'⟩
  · intro e he e' he'
    simp only [List.mem_map, List.mem_filter] at he he'
    obtain ⟨k, -, rfl⟩ := he
    obtain ⟨c, -, rfl⟩ := he'
    left
    cases k <;> simp [Before, Edge.token, rank]

theorem labels_spelled {search : ℕ → Bytes → Search Token (Value D) ℕ} {rest : Bytes}
    {es : List Edge} {tok : Token}
    (h : tok ∈ labels (spelledAlternatives strtod search rest es)) :
    ∃ e ∈ es, e.token = tok ∧ ∃ x, e.take strtod rest = some x := by
  induction es with
  | nil => simp [spelledAlternatives, labels] at h
  | cons e es ih =>
    rcases htake : e.take strtod rest with _ | x
    · simp only [spelledAlternatives, htake] at h
      obtain ⟨e', he', h⟩ := ih h
      exact ⟨e', List.mem_cons_of_mem _ he', h⟩
    · simp only [spelledAlternatives, htake, labels, List.mem_cons] at h
      rcases h with rfl | h
      · exact ⟨e, List.mem_cons_self, rfl, x, htake⟩
      · obtain ⟨e', he', h⟩ := ih h
        exact ⟨e', List.mem_cons_of_mem _ he', h⟩

theorem spelled_ne_stop {search : ℕ → Bytes → Search Token (Value D) ℕ} {rest : Bytes}
    {es : List Edge} {a : ℕ} : spelledAlternatives strtod search rest es ≠ .stop a := by
  induction es with
  | nil => simp [spelledAlternatives]
  | cons e es ih =>
    rcases htake : e.take strtod rest with _ | x
    · simpa [spelledAlternatives, htake] using ih
    · simp [spelledAlternatives, htake]

theorem spelled_sorted {i : ℕ} {search : ℕ → Bytes → Search Token (Value D) ℕ} {rest : Bytes}
    (ht : t.Shaped rest) {es : List Edge} (hmem : ∀ e ∈ es, e ∈ (t.node i).edges)
    (hsub : ∀ j r, r <:+ rest → Sorted Before (search j r))
    (hes : es.Pairwise fun e e' => Before e.token e'.token ∨
      ∃ f f' j j', e = .text f j ∧ e' = .text f' j' ∧ f ≠ f' ∧ f.length = f'.length) :
    Sorted Before (spelledAlternatives strtod search rest es) := by
  induction es with
  | nil => trivial
  | cons e es ih =>
    rw [List.pairwise_cons] at hes
    have hrest := ih (fun e' he' => hmem e' (List.mem_cons_of_mem _ he')) hes.2
    rcases htake : e.take strtod rest with _ | ⟨v, rest'⟩
    · simpa only [spelledAlternatives, htake] using hrest
    · simp only [spelledAlternatives, htake]
      refine ⟨sorted_under (hsub _ _ (take_suffix htake)), hrest, fun tok htok => ?_,
        fun _ => spelled_ne_stop⟩
      obtain ⟨e', he', rfl, ⟨v', rest''⟩, hx⟩ := labels_spelled htok
      rcases hes.1 e' he' with h | ⟨f, f', j, j', rfl, rfl, hne, hlen⟩
      · exact h
      · -- Two fragments of one length cannot both be next in the URL.
        have h₁ := (take_iff ht (hmem _ List.mem_cons_self)).mpr ⟨v, htake, rfl⟩
        have h₂ := (take_iff ht (hmem _ (List.mem_cons_of_mem _ he'))).mpr ⟨v', hx, rfl⟩
        obtain ⟨rfl, -⟩ := trace_lits.mp h₁
        obtain ⟨heq, -⟩ := trace_lits.mp h₂
        exact absurd (List.append_inj heq hlen).1 hne

theorem spelledTree_sorted (strtod : Strtod D) (fuel i : ℕ) {rest : Bytes} (ht : t.Shaped rest) :
    Sorted Before (t.spelledTree strtod fuel i rest) := by
  induction fuel generalizing i rest with
  | zero => trivial
  | succ fuel ih =>
    cases rest with
    | nil => trivial
    | cons c rest =>
      exact spelled_sorted ht (fun _ he => he) (fun j r hr => ih j (ht.suffix hr))
        (edges_pairwise ht.toBranching i)

end Stops

end RoutesTrie

end Suil
