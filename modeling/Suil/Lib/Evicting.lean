/-
Taking out of a list, from its head on, until there is room.

What is taken out is a first piece of the list, and no shorter one makes room.  When the list is
sorted by age, but some are not in it, the oldest ones go first exactly when those that are not
younger make room before one that is not in the list is in the way.

* `prefix_evict`, `evict_stop`, `full_of_shorter` — what is taken out;
* `oldest_first_iff` — when the oldest ones go first, and there is room.
-/
import Mathlib

namespace Evicting

variable {K S A : Type} (full : S → Prop) [DecidablePred full] (out : S → K → S)

/-- What is taken out as long as it is full, and what is then. -/
def evict (s : S) : List K → List K × S
  | [] => ([], s)
  | k :: ks => if full s then (k :: (evict (out s k) ks).1, (evict (out s k) ks).2) else ([], s)

variable {full out} {s : S} {ks l p : List K}

theorem evict_snd (s : S) (ks : List K) :
    (evict full out s ks).2 = (evict full out s ks).1.foldl out s := by
  induction ks generalizing s with
  | nil => rfl
  | cons k ks ih =>
    rw [evict]
    split_ifs
    · exact ih (out s k)
    · rfl

theorem prefix_evict (s : S) (ks : List K) : (evict full out s ks).1 <+: ks := by
  induction ks generalizing s with
  | nil => exact List.prefix_rfl
  | cons k ks ih =>
    rw [evict]
    split_ifs
    · exact List.cons_prefix_cons.mpr ⟨rfl, ih (out s k)⟩
    · exact List.nil_prefix

/-- When there is no room at the end everything was taken out. -/
theorem evict_stop (h : full (evict full out s ks).2) : (evict full out s ks).1 = ks := by
  induction ks generalizing s with
  | nil => rfl
  | cons k ks ih =>
    rw [evict] at h ⊢
    split_ifs at h ⊢ with hfull
    · exact congrArg (k :: ·) (ih h)
    · exact absurd h hfull

/-- No shorter piece makes room. -/
theorem full_of_shorter (h : p <+: (evict full out s ks).1) (hne : p ≠ (evict full out s ks).1) :
    full (p.foldl out s) := by
  induction ks generalizing s p with
  | nil => exact absurd (List.prefix_nil.mp h) hne
  | cons k ks ih =>
    rw [evict] at h hne
    split_ifs at h hne with hfull
    · cases p with
      | nil => exact hfull
      | cons j p =>
        obtain ⟨rfl, hp⟩ := List.cons_prefix_cons.mp h
        rw [List.foldl_cons]
        exact ih hp fun heq => hne (by rw [heq])
    · exact absurd (List.prefix_nil.mp h) hne

section

variable [LinearOrder A] {age : K → A}

/-- A first piece of a sorted list that is not younger than a bound. -/
theorem prefix_filter_of_le (hks : ks.Pairwise fun j k => age j ≤ age k) (hl : l <+: ks) {a : A}
    (hle : ∀ k ∈ l, age k ≤ a) : l <+: ks.filter fun k => age k ≤ a := by
  obtain ⟨rest, rfl⟩ := hl
  rw [List.filter_append, List.filter_eq_self.mpr fun k hk => decide_eq_true (hle k hk)]
  exact List.prefix_append l _

theorem prefix_filter (hks : ks.Pairwise fun j k => age j ≤ age k) (a : A) :
    (ks.filter fun k => age k ≤ a) <+: ks := by
  induction ks with
  | nil => exact List.prefix_rfl
  | cons k ks ih =>
    obtain ⟨hk, hks⟩ := List.pairwise_cons.mp hks
    by_cases hle : age k ≤ a
    · rw [List.filter_cons, if_pos (decide_eq_true hle)]
      exact List.cons_prefix_cons.mpr ⟨rfl, ih hks⟩
    · -- what comes behind is younger, too
      have hnone : (k :: ks).filter (fun k => age k ≤ a) = [] :=
        List.filter_eq_nil_iff.mpr fun j hj => by
          rcases List.mem_cons.mp hj with rfl | hj
          · simpa using hle
          · simpa using (not_le.mp hle).trans_le (hk j hj)
      rw [hnone]
      exact List.nil_prefix

/-- **When the oldest ones go first, and there is room**: those that are not in the list are not in
the way. -/
theorem oldest_first_iff (hks : ks.Pairwise fun j k => age j ≤ age k) (aside : K → Prop)
    (haside : ∀ k, aside k → k ∉ ks) :
    ((¬full (evict full out s ks).2 ∨
        ∀ k, (k ∈ ks ∨ aside k) → k ∈ (evict full out s ks).1) ∧
      ∀ j ∈ (evict full out s ks).1, ∀ k, (k ∈ ks ∨ aside k) → k ∉ (evict full out s ks).1 →
        age j ≤ age k) ↔
      ∀ k, aside k → ∃ l, l <+: (ks.filter fun j => age j ≤ age k) ∧ ¬full (l.foldl out s) := by
  set gone := (evict full out s ks).1 with hgone
  have hinit : gone <+: ks := prefix_evict s ks
  have hleft : ∀ k, aside k → k ∉ gone := fun k hk hmem => haside k hk (hinit.subset hmem)
  constructor
  · rintro ⟨hroom, hfirst⟩ k hk
    have hle : ∀ j ∈ gone, age j ≤ age k := fun j hj => hfirst j hj k (.inr hk) (hleft k hk)
    refine ⟨gone, prefix_filter_of_le hks hinit hle, ?_⟩
    rw [hgone, ← evict_snd]
    exact hroom.resolve_right fun hall => hleft k hk (hall k (.inr hk))
  · intro h
    -- what makes room is not shorter than what is taken out
    have hlong : ∀ k, aside k → gone <+: ks.filter fun j => age j ≤ age k := fun k hk => by
      obtain ⟨l, hl, hroom⟩ := h k hk
      rcases List.prefix_or_prefix_of_prefix hinit (hl.trans (prefix_filter hks _)) with hle | hle
      · exact hle.trans hl
      · by_cases heq : l = gone
        · exact heq ▸ hl
        · exact absurd (full_of_shorter hle heq) hroom
    refine ⟨?_, fun j hj k hk hnot => ?_⟩
    · by_cases hfull : full (evict full out s ks).2
      · have hall : gone = ks := evict_stop hfull
        refine .inr fun k hk => hk.elim (fun hmem => hall ▸ hmem) fun hk => ?_
        obtain ⟨l, hl, hroom⟩ := h k hk
        have hle : l <+: gone := hall ▸ hl.trans (prefix_filter hks _)
        by_cases heq : l = gone
        · rw [evict_snd, ← hgone, ← heq] at hfull
          exact absurd hfull hroom
        · exact absurd (full_of_shorter hle heq) hroom
      · exact .inl hfull
    · rcases hk with hk | hk
      · obtain ⟨rest, hrest⟩ := hinit
        rw [← hrest] at hk hks
        exact (List.pairwise_append.mp hks).2.2 j hj k ((List.mem_append.mp hk).resolve_left hnot)
      · have hmem := (hlong k hk).subset hj
        exact of_decide_eq_true (List.mem_filter.mp hmem).2

end

end Evicting
