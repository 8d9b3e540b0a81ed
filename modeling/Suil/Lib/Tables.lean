/-
Tables of keys and values.

A table is a list of pairs, in which a key is looked up by its first pair.  Three ways to put a
pair into it are compared: behind the others, behind them unless the key is there, and in the
place of what the key has, which is the one that makes a map of the table.

* `assigned_apply` — a map after some assignments, told by the last of each key;
* `lookup_append_eq_assigned` — for which pairs the first of each key tells the same.
-/
import Mathlib

namespace Tables

variable {K V : Type*} [DecidableEq K] {t cs : List (K × V)} {f : K → Option V} {k : K} {v : V}

/-- A map after some assignments. -/
def assigned (f : K → Option V) (cs : List (K × V)) : K → Option V :=
  cs.foldl (fun f c => Function.update f c.1 (some c.2)) f

/-- Every key has what was assigned to it last. -/
theorem assigned_apply (f : K → Option V) (cs : List (K × V)) (k : K) :
    assigned f cs k = (cs.reverse.lookup k).or (f k) := by
  induction cs generalizing f with
  | nil => rfl
  | cons c cs ih =>
    obtain ⟨k', v⟩ := c
    rw [assigned, List.foldl_cons]
    show assigned _ cs k = _
    rw [ih, List.reverse_cons, List.lookup_append, Option.or_assoc, List.lookup_cons]
    congr 1
    by_cases hk : k = k'
    · rw [hk, Function.update_self, beq_self_eq_true, Option.some_or]
    · rw [Function.update_of_ne hk, beq_eq_false_iff_ne.mpr hk, List.lookup_nil, Option.none_or]

/-- A pair of a key that is there once. -/
theorem lookup_of_mem (h : (t.map Prod.fst).Nodup) (hmem : (k, v) ∈ t) : t.lookup k = some v := by
  induction t with
  | nil => cases hmem
  | cons c t ih =>
    obtain ⟨k', v'⟩ := c
    rw [List.map_cons, List.nodup_cons] at h
    rcases List.mem_cons.mp hmem with heq | htail
    · obtain ⟨rfl, rfl⟩ := Prod.mk.inj heq
      exact List.lookup_cons_self
    · have hk : k ≠ k' := by
        rintro rfl
        exact h.1 (List.mem_map.mpr ⟨_, htail, rfl⟩)
      rw [List.lookup_cons, beq_eq_false_iff_ne.mpr hk]
      exact ih h.2 htail

theorem mem_of_lookup (h : t.lookup k = some v) : (k, v) ∈ t := by
  obtain ⟨l₁, l₂, rfl, -⟩ := List.lookup_eq_some_iff.mp h
  exact List.mem_append_right _ List.mem_cons_self

theorem mem_iff_lookup (h : (t.map Prod.fst).Nodup) : (k, v) ∈ t ↔ t.lookup k = some v :=
  ⟨lookup_of_mem h, mem_of_lookup⟩

theorem lookup_reverse (h : (t.map Prod.fst).Nodup) (k : K) : t.reverse.lookup k = t.lookup k := by
  have hrev : (t.reverse.map Prod.fst).Nodup := by
    rwa [List.map_reverse, List.nodup_reverse]
  refine Option.ext fun v => ?_
  rw [← mem_iff_lookup hrev, ← mem_iff_lookup h, List.mem_reverse]

theorem lookup_eq_none (h : k ∉ t.map Prod.fst) : t.lookup k = none := by
  rw [List.lookup_eq_none_iff]
  intro c hc
  exact bne_iff_ne.mpr fun heq => h (heq ▸ List.mem_map_of_mem hc)

/-- Of keys that are there once, the first pair is the last one. -/
theorem lookup_append_eq_assigned (h : ((t ++ cs).map Prod.fst).Nodup) (k : K) :
    (t ++ cs).lookup k = assigned (t.lookup ·) cs k := by
  rw [List.map_append, List.nodup_append] at h
  obtain ⟨-, hcs, hdisjoint⟩ := h
  rw [assigned_apply, lookup_reverse hcs, List.lookup_append]
  by_cases hk : k ∈ t.map Prod.fst
  · have hnot : k ∉ cs.map Prod.fst := fun hmem => hdisjoint k hk k hmem rfl
    rw [lookup_eq_none hnot, Option.or_none, Option.none_or]
  · rw [lookup_eq_none hk, Option.none_or, Option.or_none]

end Tables
