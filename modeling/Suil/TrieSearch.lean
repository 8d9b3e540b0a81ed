/-
`find` as a backtracking search.

`find` is an instance of the search of `Suil.Lib.Backtrack`: the links that
take something from the URL are the alternatives, the parameter values are what
is pushed, the ends of the URL are the stops.

* `searchTree` — the search `find` makes from a node;
* `findFrom_run` — `find` and the search agree: the parameter set holds the
  stack, and the result is the best of what the stops were handed.
-/
import Suil.Lib.Backtrack
import Suil.RoutesTrie

open Backtrack

namespace Suil

namespace RoutesTrie

/-- The label of a link: one-character fragments are labelled by the character. -/
def Edge.token : Edge → Token
  | .param k _ => .param k
  | .text f _ => .lit (f.headD 0)

section Update

variable {β : Type}

/-- The best of the results of the stops, in the order they were reached. -/
def best (rs : List (β × ℕ)) (init : ℕ × β) : ℕ × β :=
  rs.foldl (fun b r => updateFound b (r.2, r.1)) init

@[simp] theorem best_nil (init : ℕ × β) : best [] init = init := rfl

theorem best_append (rs rs' : List (β × ℕ)) (init : ℕ × β) :
    best (rs ++ rs') init = best rs' (best rs init) := List.foldl_append

/-- Keeping the better one associates, with a zero index as the unit. -/
theorem updateFound_assoc (a b c : ℕ × β) :
    updateFound (updateFound a b) c = updateFound a (updateFound b c) := by
  simp only [updateFound]
  split_ifs <;> first | rfl | omega

theorem updateFound_zero (a : ℕ × β) (x : β) : updateFound a (0, x) = a := by
  simp [updateFound]

/-- The results of a sub-search may be merged first. -/
theorem best_eq_updateFound (rs : List (β × ℕ)) (init : ℕ × β) (x : β) :
    best rs init = updateFound init (best rs (0, x)) := by
  induction rs generalizing init x with
  | nil => simp [updateFound_zero]
  | cons r rs ih =>
    have hstep : ∀ b : ℕ × β, best (r :: rs) b = best rs (updateFound b (r.2, r.1)) := fun _ => rfl
    rw [hstep, hstep]
    by_cases h : r.2 = 0
    · rw [h, updateFound_zero, updateFound_zero, ih]
    · have hfirst : updateFound (0, x) (r.2, r.1) = (r.2, r.1) := by simp [updateFound, h]
      rw [hfirst, ih _ x, ih (r.2, r.1) x, updateFound_assoc]

/-- The best result is the initial one, or the first of the results with the
least non-zero index. -/
theorem best_spec (rs : List (β × ℕ)) (init : ℕ × β) :
    (best rs init = init ∧ ∀ r ∈ rs, r.2 = 0 ∨ (init.1 ≠ 0 ∧ init.1 ≤ r.2)) ∨
      ∃ l₁ r l₂, rs = l₁ ++ r :: l₂ ∧ r.2 ≠ 0 ∧ best rs init = (r.2, r.1) ∧
        (init.1 = 0 ∨ r.2 < init.1) ∧ (∀ x ∈ l₁, x.2 = 0 ∨ r.2 < x.2) ∧
        ∀ x ∈ l₂, x.2 = 0 ∨ r.2 ≤ x.2 := by
  induction rs generalizing init with
  | nil => exact .inl ⟨rfl, by simp⟩
  | cons r rs ih =>
    have hstep : best (r :: rs) init = best rs (updateFound init (r.2, r.1)) := rfl
    rw [hstep]
    by_cases hr : r.2 ≠ 0 ∧ (init.1 = 0 ∨ r.2 < init.1)
    · -- The first result becomes the best one so far.
      have hnew : updateFound init (r.2, r.1) = (r.2, r.1) := if_pos hr
      rw [hnew]
      right
      rcases ih (r.2, r.1) with ⟨h, hall⟩ | ⟨l₁, x, l₂, rfl, hne, h, hlt, h₁, h₂⟩
      · exact ⟨[], r, rs, rfl, hr.1, h, hr.2, by simp, fun x hx => (hall x hx).imp_right And.right⟩
      · have hxr : x.2 < r.2 := hlt.resolve_left hr.1
        refine ⟨r :: l₁, x, l₂, rfl, hne, h, ?_, ?_, h₂⟩
        · exact hr.2.imp_right hxr.trans
        · simp only [List.mem_cons, forall_eq_or_imp]
          exact ⟨.inr hxr, h₁⟩
    · have hold : updateFound init (r.2, r.1) = init := if_neg hr
      have hr₀ : r.2 = 0 ∨ (init.1 ≠ 0 ∧ init.1 ≤ r.2) := by omega
      rw [hold]
      rcases ih init with ⟨h, hall⟩ | ⟨l₁, x, l₂, rfl, hne, h, hlt, h₁, h₂⟩
      · left
        simp only [List.mem_cons, forall_eq_or_imp]
        exact ⟨h, hr₀, hall⟩
      · right
        refine ⟨r :: l₁, x, l₂, rfl, hne, h, hlt, ?_, h₂⟩
        simp only [List.mem_cons, forall_eq_or_imp]
        exact ⟨by omega, h₁⟩

end Update

section Search

variable {D : Type} (strtod : Strtod D)

/-- The alternatives at a node with the remaining URL `rest`. -/
def alternatives (search : ℕ → Bytes → Search Token (Value D) ℕ) (rest : Bytes) :
    List Edge → Search Token (Value D) ℕ
  | [] => .fail
  | e :: es =>
    match e.take strtod rest with
    | none => alternatives search rest es
    | some (v, rest') => .branch e.token v (search e.child rest') (alternatives search rest es)

/-- The search `find` makes from node `i` with the remaining URL `rest`. -/
def searchTree (t : RoutesTrie) : ℕ → ℕ → Bytes → Search Token (Value D) ℕ
  | 0, _, _ => .fail
  | _ + 1, i, [] => .stop (t.node i).index
  | fuel + 1, i, rest => alternatives strtod (searchTree t fuel) rest (t.node i).edges

/-- No link of the trie has an empty fragment. -/
def Fragments (t : RoutesTrie) : Prop := ∀ i, ∀ c ∈ (t.node i).children, c.1 ≠ []

variable {strtod}

/-- A link takes at least one byte. -/
theorem Edge.take_length {e : Edge} {rest rest' : Bytes} {v : Option (Value D)}
    (hne : ∀ f j, e = .text f j → f ≠ []) (h : e.take strtod rest = some (v, rest')) :
    rest'.length < rest.length := by
  cases e with
  | param k j =>
    simp only [Edge.take, Option.map_eq_some_iff, Prod.mk.injEq] at h
    obtain ⟨x, hx, -, rfl⟩ := h
    have := scan_consumed strtod hx
    rw [List.length_drop]
    omega
  | text f j =>
    simp only [Edge.take, Option.ite_none_right_eq_some, Option.some.injEq, Prod.mk.injEq] at h
    obtain ⟨hs, -, rfl⟩ := h
    have hpos := List.length_pos_iff.mpr (hne f j rfl)
    simp only [startsWith, Bool.and_eq_true, decide_eq_true_eq] at hs
    rw [List.length_drop]
    omega

theorem Node.text_mem_edges {n : Node} {f : Bytes} {j : ℕ} :
    Edge.text f j ∈ n.edges ↔ (f, j) ∈ n.children := by
  simp [Node.edges]

theorem Node.param_mem_edges {n : Node} {k : ParamType} {j : ℕ} :
    Edge.param k j ∈ n.edges ↔ n.paramChildren k ≠ 0 ∧ n.paramChildren k = j := by
  have hall : k ∈ [ParamType.int, .uint, .double, .string, .path] := by cases k <;> simp
  simp only [Node.edges, List.mem_append, List.mem_map, List.mem_filter, decide_eq_true_eq,
    Edge.param.injEq, reduceCtorEq, and_false, exists_false, or_false]
  constructor
  · rintro ⟨k', ⟨-, hne⟩, rfl, rfl⟩
    exact ⟨hne, rfl⟩
  · rintro ⟨hne, rfl⟩
    exact ⟨k, ⟨hall, hne⟩, rfl, rfl⟩

/-- A result of `find` is a result of the search; parameters count when the
index is not zero. -/
def Answers (ret : RouterParams D) (b : ℕ × List (Value D)) : Prop :=
  ret.1 = b.1 ∧ (ret.1 ≠ 0 → ret.2.Holds b.2)

theorem Answers.updateFound {ret ret' : RouterParams D} {b b' : ℕ × List (Value D)}
    (h : Answers ret b) (h' : Answers ret' b') :
    Answers (updateFound ret ret') (updateFound b b') := by
  simp only [RoutesTrie.updateFound, ← h.1, ← h'.1]
  split_ifs
  · exact h'
  · exact h

/-- What `find` has to agree with: the search's results from the best result so
far, and its stack. -/
def Agrees (b : ℕ × List (Value D)) (r : Option (List (List (Value D) × ℕ) × List (Value D)))
    (out : Option (RouterParams D × RoutingParams D)) : Prop :=
  match r with
  | none => out = none
  | some (rs, s') => ∃ ret params', out = some (ret, params') ∧ params'.Holds s' ∧
      Answers ret (best rs b)

/-- The stack after a search that was not cut short. -/
theorem run_stack {t : Search Token (Value D) ℕ} {s s' : List (Value D)}
    {rs : List (List (Value D) × ℕ)} (h : run RoutingParams.fits t s = some (rs, s')) :
    s' = after t s := by
  rw [run_eq] at h
  split_ifs at h
  exact (Prod.mk.inj (Option.some.inj h)).2.symm

/-- The parameter set after a sub-search and its pop. -/
theorem pop_holds_after {t : Search Token (Value D) ℕ} {s : List (Value D)} {v : Value D}
    {p : RoutingParams D} (h : p.Holds (after t (s ++ [v]))) :
    (p.pop v).Holds (after t (s ++ [v])).dropLast := by
  by_cases hst : stops t = []
  · simp only [after, hst, if_pos, List.dropLast_concat] at h ⊢
    exact RoutingParams.pop_holds h
  · simp only [after, if_neg hst, List.dropLast_nil] at h ⊢
    exact RoutingParams.pop_holds_nil h v

/-- One link of `find` against one alternative of the search, given that the
sub-searches agree. -/
theorem tryEdge_agrees {e : Edge} {rest rest' : Bytes} {v : Option (Value D)}
    {search : ℕ → Bytes → RoutingParams D → Option (RouterParams D × RoutingParams D)}
    {sub : Search Token (Value D) ℕ}
    (htake : e.take strtod rest = some (v, rest'))
    (hsub : ∀ p s, p.Holds s →
      Agrees (0, []) (run RoutingParams.fits sub s) (search e.child rest' p))
    {b : ℕ × List (Value D)} {ret : RouterParams D} {p : RoutingParams D} {s : List (Value D)}
    (hp : p.Holds s) (hret : Answers ret b) :
    match (if RoutingParams.fits (s ++ v.toList) then
        (run RoutingParams.fits sub (s ++ v.toList)).map fun x =>
          (best x.1 b, if v.isSome then x.2.dropLast else x.2)
      else none) with
    | none => tryEdge strtod search rest (ret, p) e = none
    | some (b', s') => ∃ ret' p', tryEdge strtod search rest (ret, p) e = some (ret', p') ∧
        p'.Holds s' ∧ Answers ret' b' := by
  -- Merging the result of a sub-search keeps the two best results in step.
  have hmerge : ∀ (rs : List (List (Value D) × ℕ)) (r : RouterParams D),
      Answers r (best rs (0, [])) → Answers (updateFound ret r) (best rs b) := by
    intro rs r h
    rw [best_eq_updateFound rs b []]
    exact hret.updateFound h
  cases v with
  | none =>
    have hfit : RoutingParams.fits (s ++ (none : Option (Value D)).toList) = true := by
      simpa using hp.fits
    rw [if_pos hfit]
    simp only [Option.toList_none, List.append_nil, Option.isSome_none, Bool.false_eq_true, if_false]
    have h := hsub p s hp
    rcases hrun : run RoutingParams.fits sub s with _ | ⟨rs, s'⟩
    · rw [hrun] at h
      have h : search e.child rest' p = none := h
      simp [tryEdge, htake, h]
    · rw [hrun] at h
      obtain ⟨r, p', hs, hp', hans⟩ := h
      exact ⟨updateFound ret r, p', by simp [tryEdge, htake, hs], hp', hmerge rs r hans⟩
  | some v =>
    simp only [Option.toList_some, Option.isSome_some, if_true]
    rcases hpush : p.push v with _ | p₁
    · rw [(RoutingParams.push_eq_none_iff hp v).mp hpush, if_neg (by simp)]
      simp [tryEdge, htake, hpush]
    · have hp₁ := RoutingParams.push_holds hp hpush
      rw [if_pos hp₁.fits]
      have h := hsub p₁ _ hp₁
      rcases hrun : run RoutingParams.fits sub (s ++ [v]) with _ | ⟨rs, s'⟩
      · rw [hrun] at h
        have h : search e.child rest' p₁ = none := h
        simp [tryEdge, htake, hpush, h]
      · rw [hrun] at h
        obtain ⟨r, p', hs, hp', hans⟩ := h
        have hst := run_stack hrun
        refine ⟨updateFound ret r, p'.pop v, by simp [tryEdge, htake, hpush, hs], ?_,
          hmerge rs r hans⟩
        subst hst
        exact pop_holds_after hp'

/-- The links of a node against the alternatives of the search. -/
theorem foldlM_agrees {rest : Bytes} {es : List Edge}
    {search : ℕ → Bytes → RoutingParams D → Option (RouterParams D × RoutingParams D)}
    {sub : ℕ → Bytes → Search Token (Value D) ℕ}
    (hsub : ∀ e ∈ es, ∀ v rest', e.take strtod rest = some (v, rest') → ∀ p s, p.Holds s →
      Agrees (0, []) (run RoutingParams.fits (sub e.child rest') s) (search e.child rest' p)) :
    ∀ {b : ℕ × List (Value D)} {ret : RouterParams D} {p : RoutingParams D} {s : List (Value D)},
      p.Holds s → Answers ret b →
      Agrees b (run RoutingParams.fits (alternatives strtod sub rest es) s)
        (es.foldlM (tryEdge strtod search rest) (ret, p)) := by
  induction es with
  | nil =>
    intro b ret p s hp hret
    exact ⟨ret, p, rfl, hp, hret⟩
  | cons e es ih =>
    intro b ret p s hp hret
    have ih' := @ih fun e' he' => hsub e' (List.mem_cons_of_mem _ he')
    rw [List.foldlM_cons]
    rcases htake : e.take strtod rest with _ | ⟨v, rest'⟩
    · have hskip : tryEdge strtod search rest (ret, p) e = some (ret, p) := by
        simp [tryEdge, htake]
      simp only [alternatives, htake, hskip, Option.bind_eq_bind, Option.bind_some]
      exact ih' hp hret
    · have hedge := tryEdge_agrees htake (hsub e List.mem_cons_self v rest' htake) hp hret
      simp only [alternatives, htake, run]
      by_cases hfit : RoutingParams.fits (s ++ v.toList) = true
      · simp only [hfit, if_true] at hedge ⊢
        rcases hrun : run RoutingParams.fits (sub e.child rest') (s ++ v.toList) with _ | ⟨rs, s'⟩
        · simp only [hrun, Option.map_none] at hedge
          simp [Agrees, hedge]
        · simp only [hrun, Option.map_some] at hedge
          obtain ⟨ret', p', hout, hp', hret'⟩ := hedge
          have hrec := ih' hp' hret'
          simp only [hout, Option.bind_eq_bind, Option.bind_some]
          rcases hnext : run RoutingParams.fits (alternatives strtod sub rest es)
              (if v.isSome then s'.dropLast else s') with _ | ⟨rs', s''⟩
          · rw [hnext] at hrec
            exact hrec
          · rw [hnext] at hrec
            obtain ⟨ret'', p'', hout', hp'', hans⟩ := hrec
            exact ⟨ret'', p'', hout', hp'', by rwa [best_append]⟩
      · rw [Bool.not_eq_true] at hfit
        simp only [hfit, Bool.false_eq_true, if_false] at hedge ⊢
        simp [Agrees, hedge]

/-- **`find` is the search.** -/
theorem findFrom_run {t : RoutesTrie} (ht : t.Fragments) :
    ∀ {fuel i : ℕ} {rest : Bytes} {p : RoutingParams D} {s : List (Value D)},
      rest.length < fuel → p.Holds s →
      Agrees (0, []) (run RoutingParams.fits (t.searchTree strtod fuel i rest) s)
        (t.findFrom strtod fuel i rest p) := by
  intro fuel
  induction fuel with
  | zero =>
    intro i rest p s hlt
    exact absurd hlt (Nat.not_lt_zero _)
  | succ fuel ih =>
    intro i rest p s hlt hp
    cases rest with
    | nil =>
      refine ⟨((t.node i).index, p), .empty, rfl, RoutingParams.holds_empty, ?_⟩
      show Answers _ (updateFound (0, []) ((t.node i).index, s))
      by_cases h0 : (t.node i).index = 0
      · simp [Answers, updateFound, h0]
      · simp [Answers, updateFound, h0, hp]
    | cons c rest =>
      refine foldlM_agrees (fun e he v rest' htake p s hp => ih ?_ hp) hp
        ⟨rfl, fun _ => RoutingParams.holds_empty⟩
      have hlen := Edge.take_length (fun f j hf => ?_) htake
      · omega
      · subst hf
        exact ht i _ (Node.text_mem_edges.mp he)

end Search

end RoutesTrie

end Suil
