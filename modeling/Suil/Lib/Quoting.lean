/-
Text between quotes.

In a text between two quotes a quote, and the character that escapes it, stand behind that
character.  Where the text ends can be told from the left, with a state that says whether the next
character is escaped, or at each quote from the run of escaping characters before it.

* `closing_append` — what is read before the end is skipped;
* `escaped_trailing` — the state is the parity of the run;
* `closing_escape` — an escaped text ends where it was closed;
* `escape_eq_self_iff` — which texts are not changed.
-/
import Mathlib

namespace Quoting

variable {α : Type*} [DecidableEq α] {q b c : α} {s t : List α} {esc : Bool}

/-- A text with an escaping character before each quote and each of its own. -/
def escape (q b : α) : List α → List α
  | [] => []
  | c :: s => if c = q ∨ c = b then b :: c :: escape q b s else c :: escape q b s

/-- Where the first quote is that is not escaped, of a text whose first character may be. -/
def closing (q b : α) : Bool → List α → Option ℕ
  | _, [] => none
  | true, _ :: s => (closing q b false s).map (· + 1)
  | false, c :: s => if c = q then some 0 else (closing q b (decide (c = b)) s).map (· + 1)

/-- Whether the character behind a text is escaped. -/
def escaped (b : α) (esc : Bool) (s : List α) : Bool :=
  s.foldl (fun esc c => !esc && decide (c = b)) esc

/-- The run of escaping characters that a text ends in. -/
def trailing (b : α) (s : List α) : ℕ := (s.rtakeWhile (· = b)).length

theorem escaped_append (esc : Bool) (s t : List α) :
    escaped b esc (s ++ t) = escaped b (escaped b esc s) t := List.foldl_append

/-- What has no quote is skipped. -/
theorem closing_append (hs : q ∉ s) (esc : Bool) (t : List α) :
    closing q b esc (s ++ t) = (closing q b (escaped b esc s) t).map (s.length + ·) := by
  induction s generalizing esc with
  | nil =>
    show closing q b esc t = (closing q b esc t).map (0 + ·)
    simp only [Nat.zero_add, Option.map_id']
  | cons c s ih =>
    obtain ⟨hc, hs⟩ := List.ne_and_not_mem_of_not_mem_cons hs
    have hstep : closing q b esc (c :: (s ++ t)) =
        (closing q b (!esc && decide (c = b)) (s ++ t)).map (· + 1) := by
      cases esc with
      | true => rfl
      | false => rw [closing, if_neg hc.symm, Bool.not_false, Bool.true_and]
    rw [List.cons_append, hstep, ih hs, Option.map_map]
    refine congrArg (fun f => Option.map f _) (funext fun n => ?_)
    show s.length + n + 1 = s.length + 1 + n
    omega

/-- An escaped quote is skipped, another one closes. -/
theorem closing_quote (esc : Bool) (t : List α) :
    closing q b esc (q :: t) = if esc then (closing q b false t).map (· + 1) else some 0 := by
  cases esc with
  | true => rfl
  | false => rw [closing, if_pos rfl, if_neg Bool.false_ne_true]

theorem closing_of_not_mem (hs : q ∉ s) (esc : Bool) : closing q b esc s = none := by
  have h := closing_append (b := b) hs esc []
  rw [List.append_nil] at h
  rw [h]
  cases escaped b esc s <;> rfl

theorem trailing_concat (s : List α) (c : α) :
    trailing b (s ++ [c]) = if c = b then trailing b s + 1 else 0 := by
  rw [trailing, List.rtakeWhile_concat]
  by_cases hc : c = b
  · rw [if_pos (decide_eq_true hc), if_pos hc, List.length_append, trailing, List.length_singleton]
  · rw [if_neg (by simpa using hc), if_neg hc, List.length_nil]

/-- **The state is the parity of the run.** -/
theorem escaped_trailing (s t : List α) :
    escaped b (decide (trailing b s % 2 = 1)) t = decide (trailing b (s ++ t) % 2 = 1) := by
  induction t using List.reverseRecOn with
  | nil =>
    rw [List.append_nil]
    rfl
  | append_singleton t c ih =>
    rw [escaped_append, ih, ← List.append_assoc, trailing_concat]
    show (!decide _ && decide _) = _
    rw [Bool.eq_iff_iff]
    simp only [Bool.and_eq_true, Bool.not_eq_true', decide_eq_false_iff_not, decide_eq_true_eq]
    by_cases hc : c = b
    · rw [if_pos hc, and_iff_left hc]
      omega
    · rw [if_neg hc]
      exact iff_of_false (fun h => hc h.2) (by decide)

/-- **An escaped text ends where it was closed.** -/
theorem closing_escape (hq : q ≠ b) (s t : List α) :
    closing q b false (escape q b s ++ q :: t) = some (escape q b s).length := by
  induction s with
  | nil => rw [escape, List.nil_append, closing_quote, if_neg Bool.false_ne_true, List.length_nil]
  | cons c s ih =>
    rw [escape]
    split_ifs with hc
    · rw [List.cons_append, List.cons_append, closing, if_neg hq.symm, decide_eq_true rfl, closing,
        ih]
      rfl
    · obtain ⟨hcq, hcb⟩ := not_or.mp hc
      rw [List.cons_append, closing, if_neg hcq, decide_eq_false hcb, ih]
      rfl

theorem length_escape (s : List α) :
    (escape q b s).length = s.length + s.countP fun c => c = q ∨ c = b := by
  induction s with
  | nil => rfl
  | cons c s ih =>
    rw [escape, List.countP_cons]
    split_ifs with hc hc' hc'
    · simp only [List.length_cons, ih]
      omega
    · exact absurd hc (by simpa using hc')
    · exact absurd (by simpa using hc') hc
    · simp only [List.length_cons, ih]
      omega

/-- **Which texts are not changed**: those without a quote and without the other character. -/
theorem escape_eq_self_iff : escape q b s = s ↔ q ∉ s ∧ b ∉ s := by
  have hcount : (s.countP fun c => c = q ∨ c = b) = 0 ↔ q ∉ s ∧ b ∉ s := by
    rw [List.countP_eq_zero]
    constructor
    · intro h
      exact ⟨fun hmem => absurd (h q hmem) (by simp), fun hmem => absurd (h b hmem) (by simp)⟩
    · rintro ⟨hq, hb⟩ c hc heq
      rcases of_decide_eq_true heq with rfl | rfl
      · exact hq hc
      · exact hb hc
  constructor
  · intro h
    have hlen := length_escape (q := q) (b := b) s
    rw [h] at hlen
    exact hcount.mp (by omega)
  · intro h
    clear hcount
    induction s with
    | nil => rfl
    | cons c s ih =>
      obtain ⟨hq, hb⟩ := h
      rw [List.mem_cons, not_or] at hq hb
      rw [escape, if_neg (not_or.mpr ⟨Ne.symm hq.1, Ne.symm hb.1⟩), ih ⟨hq.2, hb.2⟩]

end Quoting
