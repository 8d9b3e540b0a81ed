/-
Numbers as bytes, lowest byte first.

* `valueLE_bytesLE` — writing `w` bytes and reading them keeps the value modulo
  `256 ^ w`;
* `bytesLE_valueLE`, `valueLE_injective` — bytes are determined by their number
  and their value.
-/
import Mathlib

namespace LittleEndian

/-- The lowest `w` bytes of a number, lowest first. -/
def bytesLE : ℕ → ℕ → List UInt8
  | 0, _ => []
  | w + 1, n => n.toUInt8 :: bytesLE w (n / 256)

/-- The number the bytes stand for. -/
def valueLE (bs : List UInt8) : ℕ := bs.foldr (fun b n => b.toNat + 256 * n) 0

@[simp] theorem valueLE_nil : valueLE [] = 0 := rfl

@[simp] theorem valueLE_cons (b : UInt8) (bs : List UInt8) :
    valueLE (b :: bs) = b.toNat + 256 * valueLE bs :=
  rfl

@[simp] theorem length_bytesLE (w n : ℕ) : (bytesLE w n).length = w := by
  induction w generalizing n with
  | zero => rfl
  | succ w ih => rw [bytesLE, List.length_cons, ih]

theorem valueLE_bytesLE (w n : ℕ) : valueLE (bytesLE w n) = n % 256 ^ w := by
  induction w generalizing n with
  | zero => simp [bytesLE, Nat.mod_one]
  | succ w ih =>
    have hlow : n.toUInt8.toNat = n % 256 := UInt8.toNat_ofNat'
    rw [bytesLE, valueLE_cons, ih, hlow, pow_succ', Nat.mod_mul]

theorem valueLE_bytesLE_of_lt {w n : ℕ} (h : n < 256 ^ w) : valueLE (bytesLE w n) = n := by
  rw [valueLE_bytesLE, Nat.mod_eq_of_lt h]

theorem bytesLE_valueLE (bs : List UInt8) : bytesLE bs.length (valueLE bs) = bs := by
  induction bs with
  | nil => rfl
  | cons b bs ih =>
    have hb := b.toNat_lt
    have hhigh : (b.toNat + 256 * valueLE bs) / 256 = valueLE bs := by omega
    have hlow : (b.toNat + 256 * valueLE bs).toUInt8 = b := by
      rw [← UInt8.toNat_inj, show (b.toNat + 256 * valueLE bs).toUInt8.toNat
        = (b.toNat + 256 * valueLE bs) % 256 from UInt8.toNat_ofNat']
      omega
    rw [List.length_cons, valueLE_cons, bytesLE, hhigh, hlow, ih]

theorem valueLE_injective {xs ys : List UInt8} (hlen : xs.length = ys.length)
    (h : valueLE xs = valueLE ys) : xs = ys := by
  rw [← bytesLE_valueLE xs, ← bytesLE_valueLE ys, hlen, h]

end LittleEndian
