/-
Strings cut at a character.

`rfind` looks for the last occurrence with an `int`; `parts` cuts at every one, with
`strstr`, which stops at a zero byte.

* `rfind_append`, `rfind_of_not_mem` — where the last occurrence is found;
* `partsLoop_join` — the parts make up the string again;
* `partsLoop_append`, `partsLoop_last` — the parts of a string without a zero byte.
-/
import Suil.Strings

namespace Suil

/-- The loop of `String::rfind`, down from an index. -/
def rfindLoop (s : Bytes) (ch : UInt8) : ℕ → Option ℕ
  | 0 => none
  | i + 1 => if s.getD i 0 = ch then some i else rfindLoop s ch i

/-- `String::rfind`.  From 2^31 bytes on `(int) m_len` is negative, and what is read lies
before the string. -/
def rfind {ε : Type} (s : Bytes) (ch : UInt8) : Call ε (Option ℕ) :=
  if s.length < 2 ^ 31 then .ok (rfindLoop s ch s.length) else .error .crash

/-- The loop of `String::parts` for a delimiter of one character; `part` is what the current
part has so far.  No delimiter is found behind a zero byte. -/
def partsLoop (delim : UInt8) (part : Bytes) : Bytes → List Bytes
  | [] => if part = [] then [] else [part]
  | c :: s =>
    if c = 0 then [part ++ c :: s]
    else if c = delim then part :: partsLoop delim [] s
    else partsLoop delim (part ++ [c]) s

/-- `String::parts`. -/
def parts (delim : UInt8) (s : Bytes) : List Bytes := partsLoop delim [] s

variable {s t data rest : Bytes} {c : UInt8}

/-- A zero-free string is compared exactly. -/
theorem strEq_eq_true_iff (h0 : (0 : UInt8) ∉ s) (hne : s ≠ []) : strEq s t = true ↔ t = s := by
  rw [strEq]
  by_cases ht : t = []
  · rw [if_pos (.inr ht), ht]
    simp [hne, eq_comm]
  · rw [if_neg (by simp [hne, ht])]
    simp only [Bool.and_eq_true, decide_eq_true_eq]
    constructor
    · rintro ⟨hlen, heq⟩
      rw [hlen, strncmpEq_iff (.inr h0) hlen.ge] at heq
      exact heq.eq_of_length hlen.symm
    · rintro rfl
      exact ⟨rfl, (strncmpEq_iff (.inl h0) le_rfl).mpr List.prefix_rfl⟩

theorem exists_last_of_mem (h : c ∈ s) : ∃ data rest, s = data ++ c :: rest ∧ c ∉ rest := by
  obtain ⟨rest, data, hsplit, hrest⟩ := List.eq_append_cons_of_mem (List.mem_reverse.mpr h)
  refine ⟨data.reverse, rest.reverse, ?_, by simpa using hrest⟩
  rw [← List.reverse_reverse s, hsplit]
  simp

/-- A string is split at the last occurrence in one way. -/
theorem split_last_inj {data' rest' : Bytes} (heq : data ++ c :: rest = data' ++ c :: rest')
    (h : c ∉ rest) (h' : c ∉ rest') : data = data' ∧ rest = rest' := by
  have hrev := congrArg List.reverse heq
  simp only [List.reverse_append, List.reverse_cons, List.append_assoc,
    List.singleton_append] at hrev
  have hidx := congrArg (List.idxOf c) hrev
  rw [List.idxOf_append_of_notMem (by simpa using h),
    List.idxOf_append_of_notMem (by simpa using h')] at hidx
  obtain ⟨hdata, hcons⟩ := List.append_inj' heq (by simpa using hidx)
  exact ⟨hdata, (List.cons.inj hcons).2⟩

theorem rfindLoop_of_not_mem (h : c ∉ s) {n : ℕ} (hn : n ≤ s.length) : rfindLoop s c n = none := by
  induction n with
  | zero => rfl
  | succ n ih =>
    have hne : s.getD n 0 ≠ c := by
      intro heq
      rw [List.getD_eq_getElem _ _ hn] at heq
      exact h (heq ▸ List.getElem_mem hn)
    rw [rfindLoop, if_neg hne]
    exact ih (by omega)

/-- The loop stops at the last occurrence. -/
theorem rfindLoop_append (h : c ∉ rest) {n : ℕ} (hn : n ≤ rest.length) :
    rfindLoop (data ++ c :: rest) c (data.length + 1 + n) = some data.length := by
  induction n with
  | zero =>
    rw [rfindLoop, if_pos]
    simp
  | succ n ih =>
    have hne : (data ++ c :: rest).getD (data.length + 1 + n) 0 ≠ c := by
      intro heq
      rw [List.getD_append_right _ _ _ _ (by omega)] at heq
      rw [show data.length + 1 + n - data.length = n + 1 by omega, List.getD_cons_succ,
        List.getD_eq_getElem _ _ hn] at heq
      exact h (heq ▸ List.getElem_mem hn)
    rw [← Nat.add_assoc, rfindLoop, if_neg hne]
    exact ih (by omega)

theorem rfind_append {ε : Type} (h : c ∉ rest) (hlen : (data ++ c :: rest).length < 2 ^ 31) :
    (rfind (data ++ c :: rest) c : Call ε _) = .ok (some data.length) := by
  rw [rfind, if_pos hlen, List.length_append, List.length_cons, Nat.add_comm rest.length,
    ← Nat.add_assoc, rfindLoop_append h le_rfl]

theorem rfind_of_not_mem {ε : Type} (h : c ∉ s) (hlen : s.length < 2 ^ 31) :
    (rfind s c : Call ε _) = .ok none := by
  rw [rfind, if_pos hlen, rfindLoop_of_not_mem h le_rfl]

/-- The parts with delimiters between them are the string, up to a delimiter at its end. -/
theorem partsLoop_join (delim : UInt8) (part s : Bytes) :
    ∃ last, (last = [] ∨ last = [delim]) ∧
      part ++ s = [delim].intercalate (partsLoop delim part s) ++ last := by
  induction s generalizing part with
  | nil =>
    refine ⟨[], .inl rfl, ?_⟩
    rw [partsLoop]
    split_ifs with hpart
    · rw [hpart]
      rfl
    · simp [List.intercalate]
  | cons c s ih =>
    rw [partsLoop]
    by_cases hzero : c = 0
    · rw [if_pos hzero]
      exact ⟨[], .inl rfl, by simp [List.intercalate]⟩
    · rw [if_neg hzero]
      by_cases hdelim : c = delim
      · rw [if_pos hdelim, hdelim]
        obtain ⟨last, hlast, hjoin⟩ := ih []
        rw [List.nil_append] at hjoin
        cases hparts : partsLoop delim [] s with
        | nil =>
          rw [hparts] at hjoin
          -- nothing follows the delimiter
          have hnil : s = last := hjoin
          cases s with
          | nil => exact ⟨[delim], .inr rfl, by simp [List.intercalate]⟩
          | cons d s =>
            rcases hlast with rfl | rfl
            · cases hnil
            · obtain ⟨rfl, rfl⟩ := List.cons.inj hnil
              rw [partsLoop, if_neg (hdelim ▸ hzero), if_pos rfl] at hparts
              cases hparts
        | cons p ps =>
          refine ⟨last, hlast, ?_⟩
          rw [List.intercalate_cons_cons, hjoin, hparts]
          simp
      · rw [if_neg hdelim]
        obtain ⟨last, hlast, hjoin⟩ := ih (part ++ [c])
        exact ⟨last, hlast, by rw [← hjoin, List.append_assoc, List.singleton_append]⟩

/-- A first part without the delimiter. -/
theorem partsLoop_append {delim : UInt8} {part : Bytes} (h0 : (0 : UInt8) ∉ s) (hs : delim ∉ s)
    (hd : delim ≠ 0) : partsLoop delim part (s ++ delim :: t) = (part ++ s) :: parts delim t := by
  induction s generalizing part with
  | nil =>
    rw [List.nil_append, partsLoop, if_neg hd, if_pos rfl, List.append_nil]
    rfl
  | cons c s ih =>
    rw [List.mem_cons, not_or] at h0 hs
    obtain ⟨hc, h0⟩ := h0
    obtain ⟨hdelim, hs⟩ := hs
    rw [List.cons_append, partsLoop, if_neg (Ne.symm hc), if_neg (Ne.symm hdelim), ih h0 hs]
    simp

theorem partsLoop_last {delim : UInt8} {part : Bytes} (h0 : (0 : UInt8) ∉ s) (hs : delim ∉ s)
    (hne : part ++ s ≠ []) : partsLoop delim part s = [part ++ s] := by
  induction s generalizing part with
  | nil => rw [partsLoop, if_neg (by simpa using hne), List.append_nil]
  | cons c s ih =>
    rw [List.mem_cons, not_or] at h0 hs
    obtain ⟨hc, h0⟩ := h0
    obtain ⟨hdelim, hs⟩ := hs
    rw [partsLoop, if_neg (Ne.symm hc), if_neg (Ne.symm hdelim), ih h0 hs (by simp)]
    simp

end Suil
