/-
Numbers given in the order of first appearance.

Keys arrive one after another; a key that is not related to an earlier one gets
the next place, one that is related gets the place of the earlier one.  The
relation is a Boolean function that is symmetric and transitive.

* `place_concat` — later keys change no place;
* `place_inj` — two keys share a place iff they are related;
* `place_eq_zero_iff`, `place_eq_one_iff` — the keys in the first two places.
-/
import Mathlib

namespace Numbering

variable {α : Type} {r : α → α → Bool} {as : List α} {a x y : α}

/-- The keys that got a place, in order. -/
def firsts (r : α → α → Bool) (as : List α) : List α :=
  as.foldl (fun places x => if places.any (r · x) then places else places ++ [x]) []

/-- The place of a key among those that appeared. -/
def place (r : α → α → Bool) (as : List α) (x : α) : ℕ := (firsts r as).findIdx (r · x)

/-- The laws of the relation. -/
structure Laws (r : α → α → Bool) : Prop where
  refl : ∀ x, r x x = true
  symm : ∀ {x y}, r x y = true → r y x = true
  trans : ∀ {x y z}, r x y = true → r y z = true → r x z = true

/-- Related keys are related to the same keys. -/
theorem Laws.congr (h : Laws r) (hxy : r x y = true) (a : α) : r a x = r a y :=
  Bool.eq_iff_iff.mpr ⟨fun hx => h.trans hx hxy, fun hy => h.trans hy (h.symm hxy)⟩

@[simp] theorem firsts_nil : firsts r [] = [] := rfl

theorem firsts_concat (as : List α) (x : α) : firsts r (as ++ [x]) =
    if (firsts r as).any (r · x) then firsts r as else firsts r as ++ [x] := by
  rw [firsts, List.foldl_append]
  rfl

theorem mem_of_mem_firsts (h : a ∈ firsts r as) : a ∈ as := by
  induction as using List.reverseRecOn with
  | nil => exact h
  | append_singleton as y ih =>
    rw [firsts_concat] at h
    rw [List.mem_append, List.mem_singleton]
    split_ifs at h with hy
    · exact .inl (ih h)
    · exact (List.mem_append.mp h).imp ih List.mem_singleton.mp

/-- Every key that appeared is related to one that got a place. -/
theorem any_firsts_of_mem (hr : Laws r) (h : a ∈ as) : (firsts r as).any (r · a) = true := by
  induction as using List.reverseRecOn with
  | nil => exact absurd h (List.not_mem_nil)
  | append_singleton as y ih =>
    rw [firsts_concat]
    rcases List.mem_append.mp h with hmem | hmem
    · split_ifs with hy
      · exact ih hmem
      · rw [List.any_append, ih hmem, Bool.true_or]
    · obtain rfl := List.mem_singleton.mp hmem
      split_ifs with hy
      · exact hy
      · rw [List.any_append, List.any_cons, hr.refl, Bool.true_or, Bool.or_true]

/-- A key has a place iff it is related to one that appeared. -/
theorem place_lt_iff (hr : Laws r) (x : α) :
    place r as x < (firsts r as).length ↔ ∃ a ∈ as, r a x = true := by
  rw [place, List.findIdx_lt_length]
  constructor
  · rintro ⟨a, ha, hax⟩
    exact ⟨a, mem_of_mem_firsts ha, hax⟩
  · rintro ⟨a, ha, hax⟩
    obtain ⟨b, hb, hba⟩ := List.any_eq_true.mp (any_firsts_of_mem hr ha)
    exact ⟨b, hb, hr.trans hba hax⟩

theorem place_lt (hr : Laws r) (h : x ∈ as) : place r as x < (firsts r as).length :=
  (place_lt_iff hr x).mpr ⟨x, h, hr.refl x⟩

theorem place_congr (hr : Laws r) (h : r x y = true) : place r as x = place r as y := by
  rw [place, place, funext (hr.congr h)]

/-- One more key leaves the places of those that have one. -/
theorem place_concat (h : place r as x < (firsts r as).length) (y : α) :
    place r (as ++ [y]) x = place r as x := by
  rw [place, firsts_concat]
  split_ifs with hy
  · rfl
  · rw [List.findIdx_append]
    exact if_pos h

/-- Two keys that appeared share a place iff they are related. -/
theorem place_inj (hr : Laws r) (hx : x ∈ as) (hy : y ∈ as) :
    place r as x = place r as y ↔ r x y = true := by
  constructor
  · intro heq
    -- both are related to the key in the place
    have hxl := place_lt hr hx
    have hyl := place_lt hr hy
    have hfx : r ((firsts r as)[place r as x]) x = true := List.findIdx_getElem (w := hxl)
    have hfy : r ((firsts r as)[place r as y]) y = true := List.findIdx_getElem (w := hyl)
    simp only [heq] at hfx
    exact hr.trans (hr.symm hfx) hfy
  · exact place_congr hr

/-- The second key with a place is the first that is not related to the head. -/
theorem firsts_cons (a : α) (as : List α) :
    ∃ l, firsts r (a :: as) = a :: l ∧ l.head? = as.find? (!r a ·) := by
  induction as using List.reverseRecOn with
  | nil => exact ⟨[], rfl, rfl⟩
  | append_singleton as y ih =>
    obtain ⟨l, hl, hhead⟩ := ih
    rw [← List.cons_append, firsts_concat, hl, List.any_cons, List.find?_append, ← hhead]
    rcases l with _ | ⟨b, l⟩
    · -- the second place is still free
      rw [List.any_nil, Bool.or_false]
      by_cases hy : r a y = true
      · rw [if_pos hy]
        exact ⟨[], rfl, by simp [hy]⟩
      · rw [if_neg hy]
        exact ⟨[y], rfl, by simp [hy]⟩
    · split_ifs with hy
      · exact ⟨b :: l, rfl, rfl⟩
      · exact ⟨b :: (l ++ [y]), rfl, rfl⟩

/-- The head and what is related to it have the first place. -/
theorem place_eq_zero_iff (as : List α) (x : α) : place r (a :: as) x = 0 ↔ r a x = true := by
  obtain ⟨l, hl, -⟩ := firsts_cons (r := r) a as
  rw [place, hl, List.findIdx_cons]
  rcases r a x with _ | _
  · simp
  · simp

/-- The second place is that of the first key which is not related to the head. -/
theorem place_eq_one_iff (as : List α) (x : α) : place r (a :: as) x = 1 ↔
    r a x = false ∧ ∀ b ∈ as.find? (!r a ·), r b x = true := by
  obtain ⟨l, hl, hhead⟩ := firsts_cons (r := r) a as
  rw [place, hl, List.findIdx_cons, ← hhead]
  rcases r a x with _ | _
  · rcases l with _ | ⟨b, l⟩
    · simp
    · rw [List.findIdx_cons]
      rcases hbx : r b x with _ | _
      · simp [hbx]
      · simp [hbx]
  · simp

end Numbering
