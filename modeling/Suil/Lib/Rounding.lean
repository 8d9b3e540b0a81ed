/-
Whole numbers to some significant bits.

A number is rounded to the nearest one that has at most `p` significant bits, and half way between
two of them to the even one, as a conversion to a binary floating-point number does.

* `representable_round` — a rounded number has at most `p` significant bits;
* `round_eq_self_iff` — the numbers that are not changed;
* `Representable.mul_two_pow` — they stay so under powers of two.
-/
import Mathlib

namespace Rounding

variable {p n k : ℕ}

/-- What the last of `p` significant bits counts. -/
def ulp (p n : ℕ) : ℕ := 2 ^ (n.size - p)

/-- The nearest number of at most `p` significant bits. -/
def round (p n : ℕ) : ℕ :=
  let q := n / ulp p n
  let r := n % ulp p n
  if 2 * r < ulp p n ∨ 2 * r = ulp p n ∧ q % 2 = 0 then q * ulp p n else (q + 1) * ulp p n

/-- The number has at most `p` significant bits. -/
def Representable (p n : ℕ) : Prop := ∃ m k, m < 2 ^ p ∧ n = m * 2 ^ k

theorem ulp_pos (p n : ℕ) : 0 < ulp p n := Nat.two_pow_pos _

/-- There are at most `p` bits above the last one. -/
theorem div_ulp_lt (p n : ℕ) : n / ulp p n < 2 ^ p := by
  have hsize : n < 2 ^ n.size := Nat.lt_size_self n
  have hle : 2 ^ n.size ≤ 2 ^ (p + (n.size - p)) := Nat.pow_le_pow_right two_pos (by omega)
  rw [Nat.div_lt_iff_lt_mul (ulp_pos p n), ulp, ← pow_add]
  exact hsize.trans_le hle

/-- **A rounded number has at most `p` significant bits.** -/
theorem representable_round (hp : 0 < p) (n : ℕ) : Representable p (round p n) := by
  have hlt := div_ulp_lt p n
  rw [round]
  split_ifs with hdown
  · exact ⟨_, _, hlt, rfl⟩
  · by_cases hcarry : n / ulp p n + 1 < 2 ^ p
    · exact ⟨_, _, hcarry, rfl⟩
    · -- all bits were set, and the next power of two has one
      have hfull : n / ulp p n + 1 = 2 ^ p := by omega
      obtain ⟨p, rfl⟩ := Nat.exists_eq_succ_of_ne_zero hp.ne'
      refine ⟨2 ^ p, n.size - (p + 1) + 1, Nat.pow_lt_pow_right one_lt_two p.lt_succ_self, ?_⟩
      rw [hfull, ulp, pow_succ 2 p, pow_succ 2 (n.size - (p + 1)), mul_assoc, mul_comm 2]

theorem round_of_dvd (h : ulp p n ∣ n) : round p n = n := by
  rw [round]
  rw [Nat.mod_eq_zero_of_dvd h, if_pos (.inl (by rw [mul_zero]; exact ulp_pos p n))]
  exact Nat.div_mul_cancel h

/-- **The numbers that are not changed.** -/
theorem round_eq_self_iff (hp : 0 < p) : round p n = n ↔ Representable p n := by
  constructor
  · intro h
    rw [← h]
    exact representable_round hp n
  · rintro ⟨m, k, hm, rfl⟩
    refine round_of_dvd ?_
    have hsize : (m * 2 ^ k).size ≤ p + k := by
      rw [Nat.size_le, pow_add]
      exact Nat.mul_lt_mul_of_pos_right hm (Nat.two_pow_pos k)
    exact (pow_dvd_pow 2 (by omega)).trans (dvd_mul_left _ m)

theorem Representable.mul_two_pow (h : Representable p n) (k : ℕ) :
    Representable p (n * 2 ^ k) := by
  obtain ⟨m, j, hm, rfl⟩ := h
  exact ⟨m, j + k, hm, by rw [pow_add, mul_assoc]⟩

end Rounding
