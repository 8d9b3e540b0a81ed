/-
Runs of a machine.

A machine answers an input with an output and a new state, or does not answer
at all.  A run is the list of the moves it made; a move records the state
before and after it.

* `Run.rule` — what holds at the start and is preserved by every move holds at
  the end, told by the moves made so far;
* `Run.moves_of` — the same for what holds of every move and an invariant of the states;
* `Run.moves_iff`, `Run.rule_iff` — the same as an equivalence, for the moves that preserve it;
* `Run.at_move` — a run up to one of its moves is a run;
* `run_final` — the run of a list of inputs;
* `outputs_iff` — when the answers of a machine are those of another one;
* `latest_concat` — what was stored last, told by one more move.
-/
import Mathlib

namespace Runs

variable {S I O : Type}

/-- One move of a machine. -/
structure Move (S I O : Type) where
  before : S
  input : I
  output : O
  after : S

/-- The runs of a machine, by their last move. -/
inductive Run (step : S → I → Option (O × S)) : S → List (Move S I O) → S → Prop where
  | nil (s : S) : Run step s [] s
  | snoc {s u v : S} {ms : List (Move S I O)} {i : I} {o : O} (h : Run step s ms u)
      (hstep : step u i = some (o, v)) : Run step s (ms ++ [⟨u, i, o, v⟩]) v

variable {step : S → I → Option (O × S)}

/-- **The rule of runs**: an assertion about the moves made and the state
reached, true at the start and preserved by every move that `G` allows. -/
theorem Run.rule {G : S → I → Prop} {J : List (Move S I O) → S → Prop} {s t : S}
    {ms : List (Move S I O)} (h : Run step s ms t) (hinit : J [] s)
    (hmove : ∀ ms u i o v, J ms u → G u i → step u i = some (o, v) → J (ms ++ [⟨u, i, o, v⟩]) v)
    (hG : ∀ m ∈ ms, G m.before m.input) : J ms t := by
  induction h with
  | nil => exact hinit
  | snoc h hstep ih =>
    refine hmove _ _ _ _ _ (ih fun m hm => hG m (List.mem_append_left _ hm)) ?_ hstep
    exact hG _ (List.mem_append_right _ (List.mem_singleton.mpr rfl))

/-- **The rule of runs with an invariant**: when `G` allows only moves that are `R` from a state
with `K`, and these keep `K`, a run of such moves has nothing else. -/
theorem Run.moves_of {G : S → I → Prop} {R : Move S I O → Prop} {K : S → Prop} {s t : S}
    {ms : List (Move S I O)} (h : Run step s ms t) (hK : K s)
    (hmove : ∀ u i o v, K u → G u i → step u i = some (o, v) → K v ∧ R ⟨u, i, o, v⟩)
    (hG : ∀ m ∈ ms, G m.before m.input) : (∀ m ∈ ms, R m) ∧ K t := by
  refine h.rule (J := fun ms u => (∀ m ∈ ms, R m) ∧ K u) ⟨List.forall_mem_nil _, hK⟩ ?_ hG
  rintro ms u i o v ⟨hR, hKu⟩ hGu hstep
  obtain ⟨hKv, hRv⟩ := hmove u i o v hKu hGu hstep
  refine ⟨?_, hKv⟩
  rw [List.forall_mem_append, List.forall_mem_singleton]
  exact ⟨hR, hRv⟩

/-- **The rule of runs, told by the moves**: when `G` tells which moves from a state with `K`
are `R`, and these keep `K`, the moves of a run are `R` iff every one is as `G` says. -/
theorem Run.moves_iff {G : S → I → Prop} {R : Move S I O → Prop} {K : S → Prop} {s t : S}
    {ms : List (Move S I O)} (h : Run step s ms t) (hK : K s)
    (hmove : ∀ u i o v, K u → step u i = some (o, v) → (R ⟨u, i, o, v⟩ ↔ G u i) ∧ (G u i → K v)) :
    (∀ m ∈ ms, R m) ↔ ∀ m ∈ ms, G m.before m.input := by
  have hboth : ((∀ m ∈ ms, R m) ↔ ∀ m ∈ ms, G m.before m.input) ∧
      ((∀ m ∈ ms, G m.before m.input) → K t) := by
    induction h with
    | nil => exact ⟨by simp, fun _ => hK⟩
    | snoc h hstep ih =>
      simp only [List.forall_mem_append, List.forall_mem_singleton]
      refine ⟨?_, fun hall => (hmove _ _ _ _ (ih.2 hall.1) hstep).2 hall.2⟩
      rw [ih.1]
      exact and_congr_right fun hall => (hmove _ _ _ _ (ih.2 hall) hstep).1
  exact hboth.1

/-- **The rule of runs, exactly**: when `G` tells which moves preserve an assertion, the
assertion holds after every move iff every move is one of these.  `K` is what else the
moves preserve. -/
theorem Run.rule_iff {G : S → I → Prop} {K J : S → Prop} {s t : S} {ms : List (Move S I O)}
    (h : Run step s ms t) (hK : K s) (hJ : J s)
    (hmove : ∀ u i o v, K u → J u → step u i = some (o, v) → K v ∧ (J v ↔ G u i)) :
    (∀ m ∈ ms, J m.after) ↔ ∀ m ∈ ms, G m.before m.input := by
  refine h.moves_iff (R := fun m => J m.after) (K := fun u => K u ∧ J u) ⟨hK, hJ⟩ ?_
  rintro u i o v ⟨hKu, hJu⟩ hstep
  obtain ⟨hKv, hiff⟩ := hmove u i o v hKu hJu hstep
  exact ⟨hiff, fun hG => ⟨hKv, hiff.mpr hG⟩⟩

/-- A run up to one of its moves, and the move. -/
theorem Run.at_move {s t : S} {pre post : List (Move S I O)} {m : Move S I O}
    (h : Run step s (pre ++ m :: post) t) :
    Run step s pre m.before ∧ step m.before m.input = some (m.output, m.after) := by
  generalize hms : pre ++ m :: post = ms at h
  induction h generalizing pre m post with
  | nil => simp at hms
  | snoc h hstep ih =>
    rcases List.eq_nil_or_concat' post with rfl | ⟨post, m', rfl⟩
    · obtain ⟨rfl, hm⟩ := List.append_inj' hms rfl
      obtain rfl := (List.cons.inj hm).1
      exact ⟨h, hstep⟩
    · rw [← List.cons_append, ← List.append_assoc] at hms
      exact ih (List.append_inj' hms rfl).1

/-- Every move of a run is a step. -/
theorem Run.step_of_mem {s t : S} {ms : List (Move S I O)} {m : Move S I O} (h : Run step s ms t)
    (hm : m ∈ ms) : step m.before m.input = some (m.output, m.after) := by
  obtain ⟨pre, post, rfl⟩ := List.append_of_mem hm
  exact h.at_move.2

/-- The moves of a machine on a list of inputs, up to the first one it does not
answer. -/
def moves (step : S → I → Option (O × S)) (s : S) : List I → List (Move S I O)
  | [] => []
  | i :: is =>
    match step s i with
    | none => []
    | some (o, s') => ⟨s, i, o, s'⟩ :: moves step s' is

theorem Run.cons {s u t : S} {ms : List (Move S I O)} {i : I} {o : O}
    (hstep : step s i = some (o, u)) (h : Run step u ms t) : Run step s (⟨s, i, o, u⟩ :: ms) t := by
  induction h with
  | nil => exact .snoc (.nil s) hstep
  | snoc _ hnext ih => exact .snoc ih hnext

/-- A run and a run from where it ended. -/
theorem Run.append {s u t : S} {ms ms' : List (Move S I O)} (h : Run step s ms u)
    (h' : Run step u ms' t) : Run step s (ms ++ ms') t := by
  induction h' with
  | nil => rwa [List.append_nil]
  | snoc _ hnext ih =>
    rw [← List.append_assoc]
    exact .snoc ih hnext

/-- The state in which these moves end. -/
def final (step : S → I → Option (O × S)) (s : S) : List I → S
  | [] => s
  | i :: is =>
    match step s i with
    | none => s
    | some (_, s') => final step s' is

theorem run_final (step : S → I → Option (O × S)) (s : S) (is : List I) :
    Run step s (moves step s is) (final step s is) := by
  induction is generalizing s with
  | nil => exact .nil s
  | cons i is ih =>
    rw [moves, final]
    rcases hstep : step s i with _ | ⟨o, u⟩
    · exact .nil s
    · exact .cons hstep (ih u)

/-! ### Simulation -/

/-- What a machine answers to a list of inputs; none when it does not answer one of them. -/
def outputs (step : S → I → Option (O × S)) (s : S) : List I → Option (List O)
  | [] => some []
  | i :: is => (step s i).bind fun m => (outputs step m.2 is).map (m.1 :: ·)

/-- What a machine that answers all of them does. -/
def answers {A : Type} (spec : A → I → O × A) (a : A) : List I → List O
  | [] => []
  | i :: is => (spec a i).1 :: answers spec (spec a i).2 is

/-- All inputs are as `G` says, in the states of such a machine. -/
def Throughout {A : Type} (spec : A → I → O × A) (G : A → I → Prop) (a : A) : List I → Prop
  | [] => True
  | i :: is => G a i ∧ Throughout spec G (spec a i).2 is

/-- **The rule of simulation**: when a machine follows another one in the inputs that `G` allows, and
does not answer the others, its answers are those of the other iff all inputs are allowed. -/
theorem outputs_iff {A : Type} {spec : A → I → O × A} {G : A → I → Prop} {R : S → A → Prop}
    (hstep : ∀ s a i, R s a →
      (G a i → ∃ s', step s i = some ((spec a i).1, s') ∧ R s' (spec a i).2) ∧
      (¬ G a i → step s i = none))
    {s : S} {a : A} (hR : R s a) (is : List I) :
    outputs step s is = some (answers spec a is) ↔ Throughout spec G a is := by
  induction is generalizing s a with
  | nil => exact iff_of_true rfl trivial
  | cons i is ih =>
    rw [outputs, answers, Throughout]
    obtain ⟨hallowed, hrefused⟩ := hstep s a i hR
    by_cases hG : G a i
    · obtain ⟨s', hs, hR'⟩ := hallowed hG
      rw [hs, Option.bind_some, ← ih hR', and_iff_right hG]
      constructor
      · intro h
        obtain ⟨os, hos, heq⟩ := Option.map_eq_some_iff.mp h
        rw [hos, (List.cons.inj heq).2]
      · intro h
        rw [h]
        rfl
    · rw [hrefused hG]
      exact iff_of_false (fun h => by cases h) fun h => hG h.1

/-! ### What was stored last -/

/-- A value that one of the moves stored, and no later one cleared or stored over. -/
def Latest {M V : Type} (stores : M → V → Prop) (clears : M → Prop) (ms : List M) (v : V) : Prop :=
  ∃ pre m post, ms = pre ++ m :: post ∧ stores m v ∧ ∀ m' ∈ post, ¬clears m' ∧ ∀ v', ¬stores m' v'

theorem latest_concat {M V : Type} {stores : M → V → Prop} {clears : M → Prop} {ms : List M} {m : M}
    {v : V} : Latest stores clears (ms ++ [m]) v ↔
      stores m v ∨ Latest stores clears ms v ∧ ¬clears m ∧ ∀ v', ¬stores m v' := by
  constructor
  · rintro ⟨pre, m', post, heq, hstores, hpost⟩
    rcases List.eq_nil_or_concat' post with rfl | ⟨post, m'', rfl⟩
    · obtain ⟨-, hm⟩ := List.append_inj' heq rfl
      obtain ⟨rfl, -⟩ := List.cons.inj hm
      exact Or.inl hstores
    · rw [← List.cons_append, ← List.append_assoc] at heq
      obtain ⟨rfl, hm⟩ := List.append_inj' heq rfl
      obtain ⟨rfl, -⟩ := List.cons.inj hm
      rw [List.forall_mem_append, List.forall_mem_singleton] at hpost
      exact Or.inr ⟨⟨pre, m', post, rfl, hstores, hpost.1⟩, hpost.2⟩
  · rintro (hstores | ⟨⟨pre, m', post, rfl, hstores, hpost⟩, hm⟩)
    · exact ⟨ms, m, [], rfl, hstores, fun m' hm' => absurd hm' List.not_mem_nil⟩
    · refine ⟨pre, m', post ++ [m], by rw [List.append_assoc, List.cons_append], hstores, ?_⟩
      rw [List.forall_mem_append, List.forall_mem_singleton]
      exact ⟨hpost, hm⟩

theorem not_latest_nil {M V : Type} {stores : M → V → Prop} {clears : M → Prop} {v : V} :
    ¬Latest stores clears [] v := by
  rintro ⟨pre, m, post, heq, -⟩
  exact absurd heq (by simp)

end Runs
