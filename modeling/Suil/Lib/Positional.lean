/-
Numerals with leading zeros.

A numeral over a base, most significant digit first, is told by how many zeros it begins with and
by its number.  Both are kept when the number is written over another base.

* `render_leading_value`, `leading_render`, `value_render` — the two tell the numeral;
* `recode_recode` — the other base and back;
* `length_recode_le`, `le_length_recode` — how long it gets.
-/
import Mathlib

namespace Positional

variable {b c z n : ℕ} {ds : List ℕ}

/-- The zeros that a numeral begins with. -/
def leading (ds : List ℕ) : ℕ := (ds.takeWhile (· = 0)).length

/-- Its number. -/
def value (b : ℕ) (ds : List ℕ) : ℕ := Nat.ofDigits b ds.reverse

/-- The numeral of a number, behind some zeros. -/
def render (b z n : ℕ) : List ℕ := List.replicate z 0 ++ (Nat.digits b n).reverse

/-- The numeral over another base, behind as many zeros. -/
def recode (b c : ℕ) (ds : List ℕ) : List ℕ := render c (leading ds) (value b ds)

theorem length_render (b z n : ℕ) : (render b z n).length = z + (Nat.digits b n).length := by
  rw [render, List.length_append, List.length_replicate, List.length_reverse]

/-- The zeros, and what begins with no zero. -/
theorem exists_split (ds : List ℕ) : ∃ rest, ds = List.replicate (leading ds) 0 ++ rest ∧
    rest.head? ≠ some 0 := by
  refine ⟨ds.dropWhile (· = 0), ?_, fun h => ?_⟩
  · have hzeros : ds.takeWhile (· = 0) = List.replicate (leading ds) 0 :=
      List.eq_replicate_iff.mpr ⟨rfl, fun d hd =>
        of_decide_eq_true (@List.mem_takeWhile_imp _ (fun d : ℕ => decide (d = 0)) _ _ hd)⟩
    rw [← hzeros, List.takeWhile_append_dropWhile]
  · have hnot := List.head?_dropWhile_not (fun d : ℕ => decide (d = 0)) ds
    rw [h] at hnot
    exact absurd hnot (by decide)

theorem leading_append (z : ℕ) (h : ds.head? ≠ some 0) :
    leading (List.replicate z 0 ++ ds) = z := by
  have hzeros : ∀ d ∈ List.replicate z 0, decide (d = 0) = true :=
    fun d hd => decide_eq_true (List.eq_of_mem_replicate hd)
  rw [leading, List.takeWhile_append_of_pos hzeros]
  cases ds with
  | nil => simp
  | cons d ds =>
    rw [List.takeWhile_cons_of_neg, List.append_nil, List.length_replicate]
    simpa using h

theorem value_append (b z : ℕ) (ds : List ℕ) :
    value b (List.replicate z 0 ++ ds) = value b ds := by
  rw [value, List.reverse_append, List.reverse_replicate, Nat.ofDigits_append_replicate_zero]
  rfl

theorem head?_digits (b n : ℕ) : (Nat.digits b n).reverse.head? ≠ some 0 := by
  rw [List.head?_reverse]
  intro h
  have hn : n ≠ 0 := by
    rintro rfl
    rw [Nat.digits_zero] at h
    cases h
  have hlast := Nat.getLast_digit_ne_zero b hn
  rw [List.getLast?_eq_some_getLast (Nat.digits_ne_nil_iff_ne_zero.mpr hn)] at h
  exact hlast (Option.some.inj h)

theorem leading_render (b z n : ℕ) : leading (render b z n) = z :=
  leading_append z (head?_digits b n)

theorem value_render (b z n : ℕ) : value b (render b z n) = n := by
  rw [render, value_append, value, List.reverse_reverse, Nat.ofDigits_digits]

/-- **A numeral is told by its zeros and its number.** -/
theorem render_leading_value (hb : 1 < b) (h : ∀ d ∈ ds, d < b) :
    render b (leading ds) (value b ds) = ds := by
  obtain ⟨rest, hds, hhead⟩ := exists_split ds
  generalize leading ds = z at *
  subst hds
  rw [value_append, render, value, Nat.digits_ofDigits b hb, List.reverse_reverse]
  · intro d hd
    exact h d (List.mem_append_right _ (List.mem_reverse.mp hd))
  · intro hne hlast
    refine hhead ?_
    rw [← List.getLast?_reverse, List.getLast?_eq_some_getLast hne, hlast]

/-- **The other base and back.** -/
theorem recode_recode (hb : 1 < b) (h : ∀ d ∈ ds, d < b) (c : ℕ) :
    recode c b (recode b c ds) = ds := by
  rw [recode, recode, leading_render, value_render, render_leading_value hb h]

theorem lt_of_mem_recode (hc : 1 < c) {d : ℕ} (hd : d ∈ recode b c ds) : d < c := by
  rcases List.mem_append.mp hd with hd | hd
  · rw [List.eq_of_mem_replicate hd]
    omega
  · exact Nat.digits_lt_base hc (List.mem_reverse.mp hd)

/-- The number of a numeral without its zeros. -/
theorem value_lt (hb : 1 < b) (h : ∀ d ∈ ds, d < b) :
    value b ds < b ^ (ds.length - leading ds) := by
  have hlen := congrArg List.length (render_leading_value hb h)
  rw [length_render] at hlen
  have hlt := Nat.lt_base_pow_length_digits (b := b) (m := value b ds) hb
  rwa [show ds.length - leading ds = (Nat.digits b (value b ds)).length by omega]

/-- **How long it gets**: no longer than a power of the new base tells that bounds its number. -/
theorem length_recode_le (hb : 1 < b) (hc : 1 < c) (h : ∀ d ∈ ds, d < b) {k : ℕ}
    (hk : b ^ (ds.length - leading ds) ≤ c ^ k) : (recode b c ds).length ≤ leading ds + k := by
  rw [recode, length_render]
  exact Nat.add_le_add_left
    ((Nat.digits_length_le_iff hc _).mpr ((value_lt hb h).trans_le hk)) _

/-- Over a base that is not greater it does not get shorter. -/
theorem le_length_recode (hb : 1 < b) (hc : 1 < c) (h : ∀ d ∈ ds, d < b) (hle : c ≤ b) :
    ds.length ≤ (recode b c ds).length := by
  have hlen := congrArg List.length (render_leading_value hb h)
  rw [length_render] at hlen
  rw [recode, length_render, ← hlen]
  refine Nat.add_le_add_left ((Nat.digits_length_le_iff hb _).mpr ?_) _
  exact (Nat.lt_base_pow_length_digits hc).trans_le (Nat.pow_le_pow_left hle _)

end Positional
