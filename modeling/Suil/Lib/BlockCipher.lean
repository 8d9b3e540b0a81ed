/-
Block ciphers in chains of blocks.

A cipher of blocks of `n` bytes is used on a text of any length: the text is padded to
whole blocks, each byte of the padding telling its length, and each block is mixed with
the encryption of the one before it.

* `unpad_pad` — the padding is taken away again;
* `decryptChain_encryptChain` — the chain is undone;
* `decrypt_encrypt` — a text that was encrypted in two calls, one for the whole blocks and
  one for the last, is decrypted in two calls;
* `laws_exchange` — a cipher by some blocks and what it makes of them.
-/
import Mathlib

namespace BlockCipher

variable {n k : ℕ} {E D : List UInt8 → List UInt8} {iv x y : List UInt8}

def mix (a b : List UInt8) : List UInt8 := List.zipWith (· ^^^ ·) a b

@[simp] theorem length_mix (a b : List UInt8) : (mix a b).length = min a.length b.length :=
  List.length_zipWith

theorem mix_mix {a b : List UInt8} (h : a.length = b.length) : mix (mix a b) b = a := by
  refine List.ext_getElem (by simp [h]) fun i _ _ => ?_
  simp only [mix, List.getElem_zipWith, UInt8.xor_assoc, UInt8.xor_self, UInt8.xor_zero]

/-- The laws of a cipher of blocks of `n` bytes. -/
structure Laws (n : ℕ) (E D : List UInt8 → List UInt8) : Prop where
  length : ∀ b, b.length = n → (E b).length = n
  inverse : ∀ b, b.length = n → D (E b) = b

/-! ### Chains -/

/-- The first `k` blocks of a text, encrypted. -/
def encryptChain (E : List UInt8 → List UInt8) (n : ℕ) : List UInt8 → ℕ → List UInt8 → List UInt8
  | _, 0, _ => []
  | iv, k + 1, x =>
    let c := E (mix (x.take n) iv)
    c ++ encryptChain E n c k (x.drop n)

/-- The first `k` blocks of an encryption, decrypted. -/
def decryptChain (D : List UInt8 → List UInt8) (n : ℕ) : List UInt8 → ℕ → List UInt8 → List UInt8
  | _, 0, _ => []
  | iv, k + 1, y => mix (D (y.take n)) iv ++ decryptChain D n (y.take n) k (y.drop n)

theorem length_block (hiv : iv.length = n) (hx : (k + 1) * n ≤ x.length) :
    (mix (x.take n) iv).length = n ∧ k * n ≤ (x.drop n).length := by
  rw [Nat.succ_mul] at hx
  rw [length_mix, List.length_take, List.length_drop, hiv]
  omega

theorem length_encryptChain (h : Laws n E D) (hiv : iv.length = n) (hx : k * n ≤ x.length) :
    (encryptChain E n iv k x).length = k * n := by
  induction k generalizing iv x with
  | zero => simp [encryptChain]
  | succ k ih =>
    obtain ⟨hblock, hrest⟩ := length_block hiv hx
    rw [encryptChain, List.length_append, h.length _ hblock, ih (h.length _ hblock) hrest,
      Nat.succ_mul, Nat.add_comm]

/-- What a decryption has at most. -/
theorem length_decryptChain_le (hiv : iv.length ≤ n) : (decryptChain D n iv k y).length ≤ k * n := by
  induction k generalizing iv y with
  | zero => simp [decryptChain]
  | succ k ih =>
    have hrest : (decryptChain D n (y.take n) k (y.drop n)).length ≤ k * n :=
      ih (List.length_take_le n y)
    rw [decryptChain, List.length_append, length_mix, Nat.succ_mul]
    omega

/-- **The chain is undone.** -/
theorem decryptChain_encryptChain (h : Laws n E D) (hiv : iv.length = n) (hx : x.length = k * n) :
    decryptChain D n iv k (encryptChain E n iv k x) = x := by
  induction k generalizing iv x with
  | zero => simpa [decryptChain, eq_comm] using hx
  | succ k ih =>
    obtain ⟨hblock, hrest⟩ := length_block hiv hx.ge
    have hlen := h.length _ hblock
    have htake : (x.take n).length = iv.length := by
      rw [List.length_take, hiv, hx, Nat.succ_mul]
      omega
    have hdrop : (x.drop n).length = k * n := by
      rw [List.length_drop, hx, Nat.succ_mul]
      omega
    rw [encryptChain, decryptChain, List.take_left' hlen, List.drop_left' hlen, ih hlen hdrop,
      h.inverse _ hblock, mix_mix htake, List.take_append_drop]

/-! ### Padding -/

/-- How many bytes are missing to a whole number of blocks, one at least. -/
def missing (n : ℕ) (x : List UInt8) : ℕ := n - x.length % n

def pad (n : ℕ) (x : List UInt8) : List UInt8 :=
  x ++ List.replicate (missing n x) (UInt8.ofNat (missing n x))

/-- The padding of a last block is taken away; none when there is none. -/
def unpad (n : ℕ) (b : List UInt8) : Option (List UInt8) :=
  let m := (b.getLastD 0).toNat
  if 0 < m ∧ m ≤ n ∧ m ≤ b.length ∧ b.drop (b.length - m) = List.replicate m (UInt8.ofNat m) then
    some (b.take (b.length - m))
  else none

theorem missing_bounds (hn : 0 < n) (x : List UInt8) : 0 < missing n x ∧ missing n x ≤ n := by
  have hlt := Nat.mod_lt x.length hn
  rw [missing]
  omega

theorem length_pad (hn : 0 < n) (x : List UInt8) : (pad n x).length = (x.length / n + 1) * n := by
  have hlt := Nat.mod_lt x.length hn
  have hdiv := Nat.div_add_mod x.length n
  rw [pad, List.length_append, List.length_replicate, missing, Nat.succ_mul, Nat.mul_comm]
  omega

/-- **The padding is taken away again.** -/
theorem unpad_append (hn : 0 < n) (h256 : n < 256) (x b : List UInt8) :
    unpad n (b ++ List.replicate (missing n x) (UInt8.ofNat (missing n x))) = some b := by
  obtain ⟨hpos, hle⟩ := missing_bounds hn x
  generalize missing n x = m at hpos hle
  have hm : (UInt8.ofNat m).toNat = m := by
    rw [UInt8.toNat_ofNat']
    omega
  have hlast : (b ++ List.replicate m (UInt8.ofNat m)).getLastD 0 = UInt8.ofNat m := by
    obtain ⟨m, rfl⟩ := Nat.exists_eq_succ_of_ne_zero hpos.ne'
    rw [List.replicate_succ', ← List.append_assoc, List.getLastD_concat]
  have hlen : (b ++ List.replicate m (UInt8.ofNat m)).length - m = b.length := by
    rw [List.length_append, List.length_replicate, Nat.add_sub_cancel]
  rw [unpad, hlast, hm]
  simp only [hlen]
  rw [if_pos ⟨hpos, hle, by simp, List.drop_left⟩, List.take_left]

theorem length_of_unpad {b out : List UInt8} (h : unpad n b = some out) : out.length < b.length := by
  rw [unpad] at h
  simp only [Option.ite_none_right_eq_some, Option.some.injEq] at h
  obtain ⟨⟨hpos, -, hle, -⟩, rfl⟩ := h
  rw [List.length_take]
  omega

/-! ### Two calls -/

/-- What the first call writes: the whole blocks. -/
def encryptUpdate (E : List UInt8 → List UInt8) (n : ℕ) (iv x : List UInt8) : List UInt8 :=
  (encryptChain E n iv (x.length / n + 1) (pad n x)).take (x.length / n * n)

/-- What the second call writes behind it: the last block. -/
def encryptFinal (E : List UInt8 → List UInt8) (n : ℕ) (iv x : List UInt8) : List UInt8 :=
  (encryptChain E n iv (x.length / n + 1) (pad n x)).drop (x.length / n * n)

/-- What the first call writes, and how much of it is told: the last block is kept back. -/
def decryptUpdate (D : List UInt8 → List UInt8) (n : ℕ) (iv y : List UInt8) : List UInt8 × ℕ :=
  let w := decryptChain D n iv (y.length / n) y
  (w, if y.length % n = 0 then w.length - n else w.length)

/-- What the second call writes; none when the padding is wrong, or there is no last block. -/
def decryptFinal (D : List UInt8 → List UInt8) (n : ℕ) (iv y : List UInt8) : Option (List UInt8) :=
  if y.length % n ≠ 0 ∨ y.length = 0 then none
  else unpad n ((decryptUpdate D n iv y).1.drop (decryptUpdate D n iv y).2)

theorem encrypt_append (E : List UInt8 → List UInt8) (n : ℕ) (iv x : List UInt8) :
    encryptUpdate E n iv x ++ encryptFinal E n iv x =
      encryptChain E n iv (x.length / n + 1) (pad n x) := List.take_append_drop _ _

theorem length_encrypt (h : Laws n E D) (hn : 0 < n) (hiv : iv.length = n) (x : List UInt8) :
    (encryptUpdate E n iv x ++ encryptFinal E n iv x).length = (x.length / n + 1) * n := by
  rw [encrypt_append]
  exact length_encryptChain h hiv (length_pad hn x).ge

/-- **The two calls of a decryption** give back what the two calls of an encryption were given. -/
theorem decrypt_encrypt (h : Laws n E D) (hn : 0 < n) (h256 : n < 256) (hiv : iv.length = n)
    (x : List UInt8) :
    let y := encryptUpdate E n iv x ++ encryptFinal E n iv x
    ∃ f, decryptFinal D n iv y = some f ∧
      (decryptUpdate D n iv y).1.take (decryptUpdate D n iv y).2 ++ f = x := by
  intro y
  have hy : y.length = (x.length / n + 1) * n := length_encrypt h hn hiv x
  have hblocks : y.length / n = x.length / n + 1 := by rw [hy, Nat.mul_div_cancel _ hn]
  have hwhole : y.length % n = 0 := by rw [hy, Nat.mul_mod_left]
  have hplain : decryptChain D n iv (x.length / n + 1) y = pad n x := by
    rw [show y = _ from encrypt_append E n iv x]
    exact decryptChain_encryptChain h hiv (length_pad hn x)
  have hupdate : decryptUpdate D n iv y = (pad n x, x.length / n * n) := by
    rw [decryptUpdate, hblocks, if_pos hwhole]
    rw [hplain, length_pad hn, Nat.succ_mul, Nat.add_sub_cancel]
  have hdiv := Nat.div_mul_le_self x.length n
  have hpos : y.length ≠ 0 := by
    rw [hy, Nat.succ_mul]
    omega
  have htake : (pad n x).take (x.length / n * n) = x.take (x.length / n * n) :=
    List.take_append_of_le_length hdiv
  have hdrop : (pad n x).drop (x.length / n * n) = x.drop (x.length / n * n) ++
      List.replicate (missing n x) (UInt8.ofNat (missing n x)) :=
    List.drop_append_of_le_length hdiv
  refine ⟨x.drop (x.length / n * n), ?_, ?_⟩
  · rw [decryptFinal, if_neg (by simp [hwhole, hpos]), hupdate, hdrop, unpad_append hn h256]
  · rw [hupdate, htake, List.take_append_drop]

/-- What a decryption writes, of whatever text, is within the length of that text, and what it
gives is shorter. -/
theorem decrypt_within (hiv : iv.length ≤ n) (y : List UInt8) :
    (decryptUpdate D n iv y).2 ≤ (decryptUpdate D n iv y).1.length ∧
      (decryptUpdate D n iv y).1.length ≤ y.length ∧
      ∀ f, decryptFinal D n iv y = some f → (decryptUpdate D n iv y).2 + f.length < y.length := by
  have hlen : (decryptUpdate D n iv y).1.length ≤ y.length :=
    (length_decryptChain_le hiv).trans (Nat.div_mul_le_self _ _)
  have htold : (decryptUpdate D n iv y).2 ≤ (decryptUpdate D n iv y).1.length := by
    rw [decryptUpdate]
    simp only
    split_ifs
    · exact Nat.sub_le _ _
    · exact le_rfl
  refine ⟨htold, hlen, fun f hf => ?_⟩
  rw [decryptFinal] at hf
  split_ifs at hf
  have hshort := length_of_unpad hf
  rw [List.length_drop] at hshort
  omega

/-! ### Given blocks -/

/-- The blocks that a chain hands to its cipher, with the blocks it has from it. -/
def chainPairs (n : ℕ) : List UInt8 → ℕ → List UInt8 → List UInt8 → List (List UInt8 × List UInt8)
  | _, 0, _, _ => []
  | iv, k + 1, x, y =>
    (mix (x.take n) iv, y.take n) :: chainPairs n (y.take n) k (x.drop n) (y.drop n)

/-- A permutation by the texts that it exchanges, one pair after the other. -/
def exchange : List (List UInt8 × List UInt8) → Equiv.Perm (List UInt8)
  | [] => 1
  | p :: ps => exchange ps * Equiv.swap p.1 p.2

/-- A cipher of which some blocks are given. -/
theorem laws_exchange {ps : List (List UInt8 × List UInt8)}
    (h : ∀ p ∈ ps, p.1.length = n ∧ p.2.length = n) : Laws n (exchange ps) (exchange ps).symm where
  length b hb := by
    induction ps generalizing b with
    | nil => exact hb
    | cons p ps ih =>
      rw [List.forall_mem_cons] at h
      refine ih h.2 _ ?_
      rw [Equiv.swap_apply_def]
      split_ifs
      · exact h.1.2
      · exact h.1.1
      · exact hb
  inverse b _ := Equiv.symm_apply_apply (exchange ps) b

end BlockCipher
