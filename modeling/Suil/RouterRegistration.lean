/-
Registering rules one after the other.

`internalAddRule` puts the rule into the table before the trie is asked for its pattern,
and the pattern into the trie before the one without the slash; what throws in between
takes nothing back.

* `tokens_slash` — a slash behind a pattern is one step more;
* `internalAddRule_eq_ok_iff` — which rules are registered without an exception;
* `run_registers_iff` — the runs of registrations that are done in full or not at all.
-/
import Suil.Router
import Suil.Lib.Runs

open Runs

namespace Suil

/-- No parameter name ends in a slash. -/
theorem isPrefixOf_slash {k : ParamType} {name : Bytes} (h : (k, name) ∈ paramTraits) (cs : Bytes) :
    name.isPrefixOf (cs ++ [47]) = name.isPrefixOf cs := by
  rw [Bool.eq_iff_iff, List.isPrefixOf_iff_prefix, List.isPrefixOf_iff_prefix]
  refine ⟨fun hname => ?_, fun hname => hname.trans (List.prefix_append cs [47])⟩
  rcases List.prefix_concat_iff.mp hname with rfl | hname
  · have hlast : ∀ x ∈ paramTraits, x.2.getLast? ≠ some 47 := by decide
    exact absurd List.getLast?_concat (hlast _ h)
  · exact hname

theorem find_slash (cs : Bytes) : (paramTraits.find? fun x => x.2.isPrefixOf (cs ++ [47])) =
    paramTraits.find? fun x => x.2.isPrefixOf cs :=
  List.find?_congr fun _ hx => isPrefixOf_slash hx cs

theorem tokensFrom_slash {skip : ℕ} {cs : Bytes} (h : skip ≤ cs.length) :
    tokensFrom skip (cs ++ [47]) = tokensFrom skip cs ++ [.lit 47] := by
  induction cs generalizing skip with
  | nil =>
    obtain rfl := Nat.le_zero.mp h
    rfl
  | cons c cs ih =>
    cases skip with
    | succ skip => exact ih (Nat.succ_le_succ_iff.mp h)
    | zero =>
      rw [List.cons_append, tokensFrom, tokensFrom]
      split_ifs with hc
      · rw [← List.cons_append, find_slash]
        rcases hfind : paramTraits.find? fun x => x.2.isPrefixOf (c :: cs) with _ | ⟨k, name⟩
        · simp only [hfind]
          exact ih (Nat.zero_le _)
        · -- the name of a parameter stands before the slash
          have hprefix : name.isPrefixOf (c :: cs) = true := by
            simpa using List.find?_some hfind
          have hlen := (List.isPrefixOf_iff_prefix.mp hprefix).length_le
          rw [List.length_cons] at hlen
          simp only [hfind, List.cons_append]
          rw [ih (by omega)]
      · rw [ih (Nat.zero_le _), List.cons_append]

/-- **A slash behind a pattern** is one step more. -/
theorem tokens_slash (r : Bytes) : tokens (r ++ [47]) = tokens r ++ [.lit 47] :=
  tokensFrom_slash (Nat.zero_le _)

namespace Router

variable {D : Type} {router : Router D} {rule : Bytes} {obj : BaseRule D}

/-- A pattern that has an index. -/
def Taken (t : RoutesTrie) (url : Bytes) : Prop := (t.lookup (tokens url)).getD 0 ≠ 0

/-- Registrations as a machine. -/
def register (router : Router D) (call : Bytes × BaseRule D) :
    Option (Except RoutesTrie.AddError Unit × Router D) :=
  some (router.internalAddRule call.1 call.2)

/-- A rule is registered under its own index, and its path without the slash, if it ends in
one, under that of a redirect; or an exception leaves everything as it was. -/
structure Registers (m : Move (Router D) (Bytes × BaseRule D) (Except RoutesTrie.AddError Unit)) :
    Prop where
  rule : m.output = .ok () → m.after.rules[m.before.rules.length]? = some (some m.input.2) ∧
    m.after.trie.lookup (tokens m.input.1) = some m.before.rules.length
  redirect : m.output = .ok () → back m.input.1 = 47 →
    m.after.trie.lookup (tokens m.input.1.dropLast) = some RuleSpecialRedirectSlash
  kept : m.output ≠ .ok () → m.after = m.before

/-- The rule is not registered, and if it ends in a slash, it is longer than that and not
registered without it. -/
def Free (router : Router D) (rule : Bytes) : Prop :=
  ¬Taken router.trie rule ∧ (back rule = 47 → rule ≠ [47] ∧ ¬Taken router.trie rule.dropLast)

/-- The table has the rule behind it whatever the outcome. -/
theorem internalAddRule_rules (router : Router D) (rule : Bytes) (obj : BaseRule D) :
    (router.internalAddRule rule obj).2.rules = router.rules ++ [some obj] := by
  rw [internalAddRule]
  simp only
  split
  · rfl
  · split_ifs <;> rfl

/-- What the second `add` meets at the pattern without the slash. -/
theorem taken_after {t : RoutesTrie} (ht : t.WellFormed) {r : Bytes} {n : ℕ} :
    Taken (t.add (r ++ [47]) n).2 r ↔ Taken t r := by
  have hne : tokens r ≠ tokens (r ++ [47]) := by
    rw [tokens_slash]
    exact fun h => by simpa using congrArg List.length h
  rw [Taken, Taken, RoutesTrie.lookup_add ht, if_neg fun h => hne h.2, RoutesTrie.thread]
  split_ifs <;> simp

/-- **The rules that are registered** without an exception. -/
theorem internalAddRule_eq_ok_iff (obj : BaseRule D) (ht : router.trie.WellFormed)
    (hrules : router.rules ≠ []) :
    (router.internalAddRule rule obj).1 = .ok () ↔ router.Free rule := by
  have hindex : (router.rules ++ [some obj]).length - 1 = router.rules.length := by simp
  have hok := RoutesTrie.add_eq_ok_iff ht rule router.rules.length
  have hadded := RoutesTrie.lookup_add ht rule router.rules.length (tokens rule)
  rw [internalAddRule, Free, Taken, not_not, ← hok]
  simp only [hindex]
  rcases hadd : router.trie.add rule router.rules.length with ⟨_ | ⟨⟩, t⟩
  · simp
  rw [hadd] at hadded
  by_cases hback : back rule = 47
  · obtain ⟨r, rfl⟩ := back_eq_slash hback
    have hwf : t.WellFormed := by
      have hkeeps := RoutesTrie.add_wellFormed ht (r ++ [47]) router.rules.length
      rwa [hadd] at hkeeps
    have htaken := taken_after (n := router.rules.length) ht (r := r)
    rw [hadd] at htaken
    simp only [hback, if_true, List.dropLast_concat, true_and, forall_const]
    rw [RoutesTrie.add_eq_ok_iff hwf]
    by_cases hr : r = []
    · -- the count of zero stands for the whole pattern, which is registered by now
      subst hr
      rw [show withoutTrailingSlash ([] ++ [47]) = [] ++ [47] by decide, hadded, if_pos ⟨rfl, rfl⟩]
      simpa using hrules
    · rw [withoutTrailingSlash_eq hr, ← htaken, Taken, not_not]
      exact (and_iff_right (by simpa using hr)).symm
  · simp [hback]

/-- What is registered after a call that returns. -/
theorem registers_of_ok (ht : router.trie.WellFormed) (hrules : router.rules ≠ [])
    (hok : (router.internalAddRule rule obj).1 = .ok ()) :
    (router.internalAddRule rule obj).2.trie.lookup (tokens rule) = some router.rules.length ∧
      (back rule = 47 → (router.internalAddRule rule obj).2.trie.lookup (tokens rule.dropLast) =
        some RuleSpecialRedirectSlash) := by
  have hfree := (internalAddRule_eq_ok_iff obj ht hrules).mp hok
  have hindex : (router.rules ++ [some obj]).length - 1 = router.rules.length := by simp
  have hn : router.rules.length ≠ 0 := by simpa using hrules
  have hadded := RoutesTrie.lookup_add_eq_some_iff ht rule router.rules.length (tokens rule) hn
  have hwf := RoutesTrie.add_wellFormed ht rule router.rules.length
  rw [internalAddRule] at hok ⊢
  simp only [hindex] at hok ⊢
  rcases hadd : router.trie.add rule router.rules.length with ⟨_ | ⟨⟩, t⟩
  · rw [hadd] at hok
    cases hok
  rw [hadd] at hok hadded hwf
  have hrule : t.lookup (tokens rule) = some router.rules.length := hadded.mpr (.inl ⟨rfl, rfl, rfl⟩)
  by_cases hback : back rule = 47
  · -- the second `add` keeps what the first one has registered
    obtain ⟨r, rfl⟩ := back_eq_slash hback
    have hr : r ≠ [] := by simpa using (hfree.2 hback).1
    simp only [if_pos hback] at hok ⊢
    rw [withoutTrailingSlash_eq hr] at hok ⊢
    rw [List.dropLast_concat]
    constructor
    · exact (RoutesTrie.lookup_add_eq_some_iff hwf r _ _ hn).mpr (.inr hrule)
    · intro _
      exact (RoutesTrie.lookup_add_eq_some_iff hwf r _ _ Nat.one_ne_zero).mpr
        (.inl ⟨hok, rfl, rfl⟩)
  · simp only [if_neg hback]
    exact ⟨hrule, fun h => absurd h hback⟩

/-- **The runs of registrations** of which each is done in full or not at all are those of rules
that are not registered yet, with or without a slash at their end, and are not a slash alone. -/
theorem run_registers_iff (base : Bytes)
    {ms : List (Move (Router D) (Bytes × BaseRule D) (Except RoutesTrie.AddError Unit))}
    (h : Run register (create base) ms router) :
    (∀ m ∈ ms, Registers m) ↔ ∀ m ∈ ms, m.before.Free m.input.1 := by
  refine h.moves_iff (G := fun router call => router.Free call.1)
    (K := fun router => ∃ log, Inv log router) ⟨[], create_inv base⟩ ?_
  rintro u ⟨rule, obj⟩ res v ⟨log, hinv⟩ hstep
  have hres : (u.internalAddRule rule obj).1 = res := congrArg Prod.fst (Option.some.inj hstep)
  have hv : (u.internalAddRule rule obj).2 = v := congrArg Prod.snd (Option.some.inj hstep)
  have hrules : u.rules ≠ [] := by
    obtain ⟨rules, hrules⟩ := hinv.slots
    simp [hrules]
  subst hres hv
  refine ⟨?_, fun _ => ⟨_, hinv.internalAddRule rule obj⟩⟩
  rw [← internalAddRule_eq_ok_iff obj hinv.wf hrules]
  constructor
  · -- an exception would have to take the rule out of the table again
    intro hregisters
    by_contra hfail
    have hkept := congrArg Router.rules (hregisters.kept hfail)
    rw [internalAddRule_rules] at hkept
    simpa using congrArg List.length hkept
  · intro hok
    obtain ⟨hrule, hredirect⟩ := registers_of_ok hinv.wf hrules hok
    refine ⟨fun _ => ⟨?_, hrule⟩, fun _ => hredirect, fun hfail => absurd hok hfail⟩
    show (u.internalAddRule rule obj).2.rules[u.rules.length]? = some (some obj)
    rw [internalAddRule_rules]
    simp

instance (router : Router D) (rule : Bytes) : Decidable (router.Free rule) :=
  inferInstanceAs (Decidable (¬(router.trie.lookup (tokens rule)).getD 0 ≠ 0 ∧
    (back rule = 47 → rule ≠ [47] ∧ ¬(router.trie.lookup (tokens rule.dropLast)).getD 0 ≠ 0)))

/-- Rules of these paths. -/
def paths (rules : List Bytes) : List (Bytes × BaseRule ℕ) :=
  rules.map fun rule => (rule, { handler := fun _ resp _ => .ok resp })

/-- A rule, one with a slash, and one below it. -/
theorem run_registers_three :
    let calls := paths [ascii "/a", ascii "/b/", ascii "/b/{int}"]
    (∀ m ∈ moves register (create []) calls, Registers m) ∧
      (final register (create []) calls).trie.lookup (tokens (ascii "/b")) = some 1 :=
  ⟨(run_registers_iff [] (run_final _ _ _)).mpr (by decide +kernel), by decide +kernel⟩

/-- The path of a rule with a slash is registered without it: the exception leaves the rule in
the table and in the trie.  A slash alone is registered, and taken for registered before. -/
theorem not_run_registers :
    (∃ m ∈ moves register (create []) (paths [ascii "/a", ascii "/a/"]),
        m.output = .error (.alreadyRegistered (ascii "/a")) ∧
          m.before.rules.length = 3 ∧ m.after.rules.length = 4 ∧
          m.before.trie.lookup (tokens (ascii "/a/")) = none ∧
          m.after.trie.lookup (tokens (ascii "/a/")) = some 3 ∧ ¬Registers m) ∧
      ∃ m ∈ moves register (create []) (paths [ascii "/"]),
        m.output = .error (.alreadyRegistered (ascii "/")) ∧
          m.before.trie.lookup (tokens (ascii "/")) = none ∧
          m.after.trie.lookup (tokens (ascii "/")) = some 2 ∧ ¬Registers m := by
  constructor
  · refine ⟨_, List.mem_of_getLast? rfl, by decide +kernel, by decide +kernel, by decide +kernel,
      by decide +kernel, by decide +kernel, fun h => ?_⟩
    have hkept := congrArg (fun r => r.rules.length) (h.kept (by decide +kernel))
    revert hkept
    decide +kernel
  · refine ⟨_, List.mem_of_getLast? rfl, by decide +kernel, by decide +kernel, by decide +kernel,
      fun h => ?_⟩
    have hkept := congrArg (fun r => r.rules.length) (h.kept (by decide +kernel))
    revert hkept
    decide +kernel

end Router
end Suil
