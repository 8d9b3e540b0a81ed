/-
Strings looked for in a string.

`String::rfind` looks for the first character from the end, and cuts the string there with
`substr(0, pos)`, of which a length of zero is the whole string.  `String::find` uses
`strchr` and `strncmp`, which know of the zero byte behind the memory, and not of the
length.

* `rfindFrom_spec` — how the loop ends when its last match, or the first character, ends it;
* `findsLast_iff` — the strings in which the last occurrence is found;
* `findFrom_isFirst`, `findFrom_zero` — what `find` stops at in the text before a zero byte;
* `findsFirst_iff` — the strings and characters that are found where they occur first.
-/
import Suil.Cookie
import Suil.StringParts
import Suil.Lib.Occurrences

open Occurrences

namespace Suil.Search

/-- Why a search does not return: it reads outside of the string, or its turns are spent. -/
inductive Stopped where
  | crash
  | spent
deriving DecidableEq

/-- The loop of `String::rfind(const String&)`, with the turns that it may take. -/
def rfindFrom (s p : Bytes) : ℕ → Option ℕ → Except Stopped (Option ℕ)
  | 0, _ => .error .spent
  | _ + 1, none => .ok none
  | turns + 1, some pos =>
    if startsWith (substr s pos 0) p then .ok (some pos)
    else
      match (rfind (substr s 0 pos) (p.headD 0) : Call Unit (Option ℕ)) with
      | .error _ => .error .crash
      | .ok pos => rfindFrom s p turns pos

/-- `String::rfind(const String&)` -/
def rfindString (s p : Bytes) (turns : ℕ) : Except Stopped (Option ℕ) :=
  if s = [] then .ok none
  else if p = [] then .ok (some 0)
  else
    match (rfind s (p.headD 0) : Call Unit (Option ℕ)) with
    | .error _ => .error .crash
    | .ok pos => rfindFrom s p turns pos

/-- The call ends, and with the last occurrence. -/
def FindsLast (s p : Bytes) : Prop :=
  ∃ turns r, rfindString s p turns = .ok r ∧ IsLast p s r

/-- The last index from which `startsWith` holds. -/
def LastMatch (s p : Bytes) (i : ℕ) : Prop :=
  startsWith (s.drop i) p = true ∧ ∀ j, startsWith (s.drop j) p = true → j ≤ i

variable {s p t : Bytes} {c : UInt8} {i pos : ℕ}

/-- Where a character occurs last. -/
theorem rfind_cases (hlen : t.length < 2 ^ 31) (c : UInt8) :
    ((rfind t c : Call Unit (Option ℕ)) = .ok none ∧ c ∉ t) ∨
      ∃ i, (rfind t c : Call Unit (Option ℕ)) = .ok (some i) ∧ t[i]? = some c ∧
        ∀ j, t[j]? = some c → j ≤ i := by
  by_cases hmem : c ∈ t
  · obtain ⟨data, rest, rfl, hrest⟩ := exists_last_of_mem hmem
    refine .inr ⟨data.length, rfind_append hrest hlen, ?_, fun j hj => ?_⟩
    · rw [List.getElem?_append_right le_rfl, Nat.sub_self, List.getElem?_cons_zero]
    · by_contra hlt
      rw [List.getElem?_append_right (by omega), List.getElem?_cons, if_neg (by omega)] at hj
      exact hrest (List.mem_of_getElem? hj)
  · exact .inl ⟨rfind_of_not_mem hmem hlen, hmem⟩

/-- A match begins with the first character. -/
theorem getElem?_of_startsWith {q : Bytes} (h : startsWith (s.drop i) (c :: q) = true) :
    s[i]? = some c := by
  rw [startsWith, Bool.and_eq_true, decide_eq_true_eq, List.length_drop, List.length_cons] at h
  have hi : i < s.length := by omega
  rw [List.drop_eq_getElem_cons hi, strncmpEq, List.headD_cons, List.headD_cons, Bool.and_eq_true,
    beq_iff_eq] at h
  rw [List.getElem?_eq_getElem hi, h.2.1]

/-- What the loop ends with from a position on: the last match up to there; or nothing, and the
string does not begin with the first character. -/
def Ends (s p : Bytes) (c : UInt8) (pos : ℕ) : Option ℕ → Prop
  | some i => startsWith (s.drop i) p = true ∧ i ≤ pos ∧
      ∀ j ≤ pos, startsWith (s.drop j) p = true → j ≤ i
  | none => (∀ j ≤ pos, startsWith (s.drop j) p ≠ true) ∧ s[0]? ≠ some c

/-- The front of a string, which is all of it for a length of zero. -/
theorem substr_front (hpos : pos < s.length) :
    substr s 0 pos = if pos = 0 then s else s.take pos := by
  split_ifs with hzero
  · rw [hzero, substr_rest, List.drop_zero]
  · rw [substr, if_neg hzero]
    simp only [List.drop_zero, Nat.sub_zero]
    rw [if_pos ⟨hzero, hpos.le⟩]

theorem rfindString_cons (hs : s ≠ []) (c : UInt8) (q : Bytes) (turns : ℕ) :
    rfindString s (c :: q) turns =
      match (rfind s c : Call Unit (Option ℕ)) with
      | .error _ => .error .crash
      | .ok pos => rfindFrom s (c :: q) turns pos := by
  rw [rfindString, if_neg hs, if_neg (List.cons_ne_nil c q)]
  rfl

/-- **The loop** goes from one position of the first character to the one before it. -/
theorem rfindFrom_spec {q : Bytes} (hlen : s.length < 2 ^ 31) {r : Option ℕ} {turns : ℕ}
    (hpos : s[pos]? = some c) (h : Ends s (c :: q) c pos r) :
    (rfindFrom s (c :: q) turns (some pos) = .ok r ∨
        rfindFrom s (c :: q) turns (some pos) = .error .spent) ∧
      (pos + 1 < turns → rfindFrom s (c :: q) turns (some pos) = .ok r) := by
  induction turns generalizing pos with
  | zero => exact ⟨.inr rfl, fun hlt => absurd hlt (Nat.not_lt_zero _)⟩
  | succ turns ih =>
    have hin : pos < s.length := (List.getElem?_eq_some_iff.mp hpos).1
    rw [rfindFrom, substr_rest]
    by_cases hmatch : startsWith (s.drop pos) (c :: q) = true
    · -- the position is the last match
      have hr : r = some pos := by
        cases r with
        | none => exact absurd hmatch (h.1 pos le_rfl)
        | some i => rw [le_antisymm h.2.1 (h.2.2 pos le_rfl hmatch)]
      rw [if_pos hmatch, hr]
      exact ⟨.inl rfl, fun _ => rfl⟩
    -- at the start there would be nothing to go on to but the whole string
    have hzero : pos ≠ 0 := by
      rintro rfl
      cases r with
      | none => exact h.2 hpos
      | some i =>
        obtain rfl : i = 0 := Nat.le_zero.mp h.2.1
        exact hmatch h.1
    have hcut : substr s 0 pos = s.take pos := by rw [substr_front hin, if_neg hzero]
    have htake : (s.take pos).length < 2 ^ 31 := by
      rw [List.length_take]
      omega
    have hbelow : ∀ j ≤ pos, startsWith (s.drop j) (c :: q) = true → (s.take pos)[j]? = some c := by
      intro j hj hm
      have hlt : j < pos := hj.lt_of_ne fun heq => hmatch (heq ▸ hm)
      rw [List.getElem?_take, if_pos hlt]
      exact getElem?_of_startsWith hm
    rw [if_neg hmatch, List.headD_cons, hcut]
    rcases rfind_cases htake c with ⟨hnone, hmem⟩ | ⟨pos', hsome, hat, hmax⟩
    · rw [hnone]
      have hr : r = none := by
        cases r with
        | none => rfl
        | some i => exact absurd (List.mem_of_getElem? (hbelow i h.2.1 h.1)) hmem
      subst hr
      cases turns with
      | zero => exact ⟨.inr rfl, fun hlt => by omega⟩
      | succ turns => exact ⟨.inl rfl, fun _ => rfl⟩
    · rw [hsome]
      rw [List.getElem?_take] at hat
      split_ifs at hat with hlt
      have hends : Ends s (c :: q) c pos' r := by
        cases r with
        | none => exact ⟨fun j hj => h.1 j (by omega), h.2⟩
        | some i =>
          refine ⟨h.1, hmax i (hbelow i h.2.1 h.1), fun j hj => h.2.2 j (by omega)⟩
      obtain ⟨hor, hall⟩ := ih hat hends
      exact ⟨hor, fun hturns => hall (by omega)⟩

/-- Without a match the loop comes to a first character at the start, and begins anew. -/
theorem rfindFrom_spent {q : Bytes} (hlen : s.length < 2 ^ 31) (hhead : s[0]? = some c)
    (hnone : ∀ j, startsWith (s.drop j) (c :: q) ≠ true) (turns : ℕ) (hpos : s[pos]? = some c) :
    rfindFrom s (c :: q) turns (some pos) = .error .spent := by
  induction turns generalizing pos with
  | zero => rfl
  | succ turns ih =>
    have hin : pos < s.length := (List.getElem?_eq_some_iff.mp hpos).1
    have hcut := substr_front hin
    have hfirst : (substr s 0 pos)[0]? = some c := by
      rw [hcut]
      split_ifs with hzero
      · exact hhead
      · rw [List.getElem?_take, if_pos (by omega), hhead]
    have hshort : (substr s 0 pos).length < 2 ^ 31 := by
      rw [hcut]
      split_ifs
      · exact hlen
      · rw [List.length_take]
        omega
    -- before the start comes the end: a front of length zero is all of the string
    rw [rfindFrom, substr_rest, if_neg (hnone pos), List.headD_cons]
    rcases rfind_cases hshort c with ⟨-, hmem⟩ | ⟨pos', hsome, hat, -⟩
    · exact absurd (List.mem_of_getElem? hfirst) hmem
    · rw [hsome]
      refine ih ?_
      rw [hcut] at hat
      split_ifs at hat
      · exact hat
      · rw [List.getElem?_take] at hat
        split_ifs at hat
        exact hat

/-- The strings in which a string is found where it occurs last: it is not empty, and the last
match is an occurrence; or there is none, and the strings begin differently. -/
def FoundLast (s p : Bytes) : Prop :=
  p ≠ [] ∧ (s = [] ∨ s.length < 2 ^ 31 ∧
    ((∃ i, LastMatch s p i ∧ p <+: s.drop i) ∨
      (∀ i, startsWith (s.drop i) p ≠ true) ∧ s.head? ≠ p.head?))

theorem startsWith_of_occursAt (h : OccursAt p s i) : startsWith (s.drop i) p = true := by
  obtain ⟨t, ht⟩ := h.2
  rw [← ht, startsWith, Bool.and_eq_true, decide_eq_true_eq, List.length_append]
  refine ⟨Nat.le_add_right _ _, ?_⟩
  clear ht h
  induction p with
  | nil => rfl
  | cons c p ih => simp [strncmpEq, ih]

/-- The matches in a string have a last one. -/
theorem exists_lastMatch (hp : p ≠ []) (h : ∃ i, startsWith (s.drop i) p = true) :
    ∃ i, LastMatch s p i := by
  obtain ⟨c, q, rfl⟩ := List.exists_cons_of_ne_nil hp
  have hbound : ∀ j, startsWith (s.drop j) (c :: q) = true → j ≤ s.length := by
    intro j hj
    exact (List.getElem?_eq_some_iff.mp (getElem?_of_startsWith hj)).1.le
  obtain ⟨i, hi⟩ := h
  exact ⟨_, Nat.findGreatest_spec (P := fun j => startsWith (s.drop j) (c :: q) = true)
    (hbound i hi) hi, fun j hj => Nat.le_findGreatest (hbound j hj) hj⟩

/-- The search ends as the last match tells. -/
theorem rfindString_of_lastMatch (hs : s.length < 2 ^ 31) (hp : p ≠ []) (h : LastMatch s p i) :
    (∃ turns, rfindString s p turns = .ok (some i)) ∧
      ∀ turns r, rfindString s p turns = .ok r → r = some i := by
  obtain ⟨c, q, rfl⟩ := List.exists_cons_of_ne_nil hp
  have hat := getElem?_of_startsWith h.1
  have hne : s ≠ [] := by
    rintro rfl
    cases hat
  rcases rfind_cases hs c with ⟨-, hmem⟩ | ⟨pos, hsome, hpos, hmax⟩
  · exact absurd (List.mem_of_getElem? hat) hmem
  · have hends : Ends s (c :: q) c pos (some i) := ⟨h.1, hmax i hat, fun j _ hj => h.2 j hj⟩
    refine ⟨⟨pos + 2, ?_⟩, fun turns r hr => ?_⟩
    · rw [rfindString_cons hne, hsome]
      exact (rfindFrom_spec hs hpos hends).2 (by omega)
    · rw [rfindString_cons hne, hsome] at hr
      rcases (@rfindFrom_spec s c pos q hs _ turns hpos hends).1 with hok | hspent
      · exact Except.ok.inj (hr.symm.trans hok)
      · cases hr.symm.trans hspent

/-- Without a match, it ends when the strings begin differently. -/
theorem rfindString_of_none (hs : s.length < 2 ^ 31) (hne : s ≠ []) (hp : p ≠ [])
    (hnone : ∀ i, startsWith (s.drop i) p ≠ true) :
    (∃ turns r, rfindString s p turns = .ok r) ↔ s.head? ≠ p.head? := by
  obtain ⟨c, q, rfl⟩ := List.exists_cons_of_ne_nil hp
  rw [List.head?_eq_getElem?, List.head?_cons]
  by_cases hhead : s[0]? = some c
  · refine iff_of_false ?_ fun hne => hne hhead
    rintro ⟨turns, r, hr⟩
    rw [rfindString_cons hne] at hr
    rcases rfind_cases hs c with ⟨-, hmem⟩ | ⟨pos, hsome, hpos, -⟩
    · exact hmem (List.mem_of_getElem? hhead)
    · rw [hsome] at hr
      cases (rfindFrom_spent hs hhead hnone turns hpos).symm.trans hr
  · refine iff_of_true ?_ hhead
    rcases rfind_cases hs c with ⟨hnot, -⟩ | ⟨pos, hsome, hpos, -⟩
    · refine ⟨1, none, ?_⟩
      rw [rfindString_cons hne, hnot]
      rfl
    · refine ⟨pos + 2, none, ?_⟩
      have hends : Ends s (c :: q) c pos none := ⟨fun j _ => hnone j, hhead⟩
      rw [rfindString_cons hne, hsome]
      exact (rfindFrom_spec hs hpos hends).2 (by omega)

theorem eq_none_of_rfindString (hs : s.length < 2 ^ 31) (hp : p ≠ [])
    (hnone : ∀ i, startsWith (s.drop i) p ≠ true) {turns : ℕ} {r : Option ℕ}
    (hr : rfindString s p turns = .ok r) : r = none := by
  obtain ⟨c, q, rfl⟩ := List.exists_cons_of_ne_nil hp
  by_cases hne : s = []
  · rw [rfindString, if_pos hne] at hr
    exact (Except.ok.inj hr).symm
  have hhead := (rfindString_of_none hs hne hp hnone).mp ⟨turns, r, hr⟩
  rw [List.head?_eq_getElem?, List.head?_cons] at hhead
  rw [rfindString_cons hne] at hr
  rcases rfind_cases hs c with ⟨hnot, -⟩ | ⟨pos, hsome, hpos, -⟩
  · rw [hnot] at hr
    cases turns with
    | zero => cases hr
    | succ turns => exact (Except.ok.inj hr).symm
  · have hends : Ends s (c :: q) c pos none := ⟨fun j _ => hnone j, hhead⟩
    rw [hsome] at hr
    rcases (@rfindFrom_spec s c pos q hs _ turns hpos hends).1 with hok | hspent
    · exact Except.ok.inj (hr.symm.trans hok)
    · cases hr.symm.trans hspent

/-- **The strings in which the last occurrence is found.** -/
theorem findsLast_iff (s p : Bytes) : FindsLast s p ↔ FoundLast s p := by
  by_cases hp : p = []
  · -- an empty string is found at the start, and in an empty string not at all
    refine iff_of_false ?_ fun h => h.1 hp
    rintro ⟨turns, r, hr, hlast⟩
    subst hp
    by_cases hs : s = []
    · rw [rfindString, if_pos hs] at hr
      obtain rfl := Except.ok.inj hr
      exact hlast 0 (occursAt_nil_iff.mpr (Nat.zero_le _))
    · rw [rfindString, if_neg hs, if_pos rfl] at hr
      obtain rfl := Except.ok.inj hr
      have hle := hlast.2 s.length (occursAt_nil_iff.mpr le_rfl)
      exact hs (List.length_eq_zero_iff.mp (Nat.le_zero.mp hle))
  by_cases hs : s = []
  · refine iff_of_true ⟨0, none, if_pos hs, fun j hj => ?_⟩ ⟨hp, .inl hs⟩
    have hlen := hj.add_le
    rw [hs, List.length_nil] at hlen
    exact hp (List.length_eq_zero_iff.mp (by omega))
  rw [FoundLast, and_iff_right hp, or_iff_right hs]
  by_cases hlen : s.length < 2 ^ 31
  · rw [and_iff_right hlen]
    by_cases hmatch : ∃ i, startsWith (s.drop i) p = true
    · obtain ⟨i, hi⟩ := exists_lastMatch hp hmatch
      obtain ⟨⟨turns, hfound⟩, honly⟩ := rfindString_of_lastMatch hlen hp hi
      rw [or_iff_left fun h => h.1 i hi.1]
      constructor
      · rintro ⟨turns, r, hr, hlast⟩
        obtain rfl := honly turns r hr
        exact ⟨i, hi, hlast.1.2⟩
      · rintro ⟨j, hj, hpre⟩
        obtain rfl := le_antisymm (hi.2 j hj.1) (hj.2 i hi.1)
        refine ⟨turns, some j, hfound, ⟨?_, hpre⟩, fun k hk => hi.2 k (startsWith_of_occursAt hk)⟩
        by_contra hlt
        rw [List.drop_eq_nil_of_le (by omega), List.prefix_nil] at hpre
        exact hp hpre
    · have hnone : ∀ i, startsWith (s.drop i) p ≠ true := fun i hi => hmatch ⟨i, hi⟩
      rw [or_iff_right fun h => h.elim fun i hi => hnone i hi.1.1, and_iff_right hnone,
        ← rfindString_of_none hlen hs hp hnone]
      constructor
      · rintro ⟨turns, r, hr, -⟩
        exact ⟨turns, r, hr⟩
      · rintro ⟨turns, r, hr⟩
        obtain rfl := eq_none_of_rfindString hlen hp hnone hr
        exact ⟨turns, none, hr, fun j hj => hnone j (startsWith_of_occursAt hj)⟩
  · -- a length that is no `int`
    refine iff_of_false ?_ fun h => hlen h.1
    rintro ⟨turns, r, hr, -⟩
    rw [rfindString, if_neg hs, if_neg hp, rfind, if_neg hlen] at hr
    cases hr

/-- A string that begins with the first character only is looked through without end; an empty
string is found at the start. -/
theorem not_findsLast :
    ¬ FindsLast (ascii "ab") (ascii "ac") ∧
      (∀ turns, rfindString (ascii "ab") (ascii "ac") turns = .error .spent) ∧
      rfindString (ascii "ab") [] 0 = .ok (some 0) := by
  have hspent : ∀ turns, rfindString (ascii "ab") (ascii "ac") turns = .error .spent := by
    intro turns
    refine rfindFrom_spent (by decide) rfl (fun j => ?_) turns rfl
    rcases j with _ | _ | j
    · decide
    · decide
    · rw [List.drop_eq_nil_of_le (show (ascii "ab").length ≤ j + 1 + 1 from Nat.le_add_left 2 j)]
      decide
  refine ⟨?_, hspent, rfl⟩
  rintro ⟨turns, r, hr, -⟩
  rw [hspent] at hr
  cases hr

/-! ### From the front -/

/-- The loop of `String::find(const String&)` over the memory up to the zero byte at its end:
`strchr` and `strncmp`, from each character that they stop at. -/
def findFrom (n : Bytes) : Bytes → Option ℕ
  | [] => if n.headD 0 = 0 then some 0 else none
  | x :: xs =>
    if x = n.headD 0 ∧ strncmpEq n.length (x :: xs) n then some 0
    else if x = 0 then none
    else (findFrom n xs).map (· + 1)

/-- `String::find(const String&)`; behind the string comes other text. -/
def findString (s behind n : Bytes) : Option ℕ :=
  if s = [] then none else if n = [] then some 0 else findFrom n (s ++ behind)

/-- The text before the first zero byte. -/
def cText (m : Bytes) : Bytes := m.takeWhile (· != 0)

/-- A string is found in the C text when it is in the string; one with a zero byte is in the
string where the C text ends with what is before that byte, or is not in it. -/
def Findable (s behind n : Bytes) : Prop :=
  let text := cText (s ++ behind)
  let head := cText n
  if head = n then n <:+: text ↔ n <:+: s
  else if head <:+ text then n <+: s.drop (text.length - head.length)
  else ¬ n <:+: s

/-- The strings that are found where they occur first. -/
def FoundFirst (s behind n : Bytes) : Prop :=
  if s = [] then n ≠ [] else n = [] ∨ Findable s behind n

variable {m n : Bytes} {x : UInt8}

theorem cText_zero (xs : Bytes) : cText (0 :: xs) = [] := rfl

theorem cText_cons (h : x ≠ 0) (xs : Bytes) : cText (x :: xs) = x :: cText xs :=
  List.takeWhile_cons_of_pos (bne_iff_ne.mpr h)

theorem cText_front (m : Bytes) : cText m <+: m := List.takeWhile_prefix _

theorem ne_zero_of_mem_cText (h : x ∈ cText m) : x ≠ 0 := by
  have hx : (x != 0) = true := List.mem_takeWhile_imp (p := (· != 0)) h
  exact bne_iff_ne.mp hx

/-- A string is the text before its zero byte, or has one. -/
theorem exists_of_cText_ne (h : cText n ≠ n) : ∃ rest, n = cText n ++ 0 :: rest := by
  have hsplit : cText n ++ n.dropWhile (· != 0) = n := List.takeWhile_append_dropWhile
  have hne : n.dropWhile (· != 0) ≠ [] := by
    intro hnil
    rw [hnil, List.append_nil] at hsplit
    exact h hsplit
  have hzero := List.head_dropWhile_not (· != 0) hne
  obtain ⟨y, ys, hys⟩ := List.exists_cons_of_ne_nil hne
  simp only [hys, List.head_cons, bne_eq_false_iff_eq] at hzero
  exact ⟨ys, by rw [← hzero, ← hys, hsplit]⟩

/-- A string without a zero byte is compared with the C text. -/
theorem strncmpEq_text (h : cText n = n) : strncmpEq n.length m n = true ↔ n <+: cText m := by
  induction n generalizing m with
  | nil => exact iff_of_true rfl List.nil_prefix
  | cons c q ih =>
    have hc : c ≠ 0 := by
      rintro rfl
      cases h
    rw [cText_cons hc, List.cons.injEq, and_iff_right rfl] at h
    cases m with
    | nil =>
      refine iff_of_false ?_ (by simp [cText])
      simp [strncmpEq, hc.symm]
    | cons y ys =>
      by_cases hy : y = 0
      · rw [hy, cText_zero]
        refine iff_of_false ?_ (by simp)
        simp [strncmpEq, hc.symm]
      · show (y == c && (y == 0 || strncmpEq q.length ys q)) = true ↔ _
        rw [cText_cons hy, List.cons_prefix_cons, ← ih h, beq_false_of_ne hy, Bool.false_or,
          Bool.and_eq_true, beq_iff_eq, eq_comm]

/-- A string with a zero byte is equal to a C text that ends there. -/
theorem strncmpEq_zero {a b : Bytes} (h : cText a = a) :
    strncmpEq (a ++ 0 :: b).length m (a ++ 0 :: b) = true ↔ cText m = a := by
  induction a generalizing m with
  | nil =>
    cases m with
    | nil => exact iff_of_true (by simp [strncmpEq]) rfl
    | cons y ys =>
      by_cases hy : y = 0
      · exact iff_of_true (by simp [strncmpEq, hy]) (by rw [hy, cText_zero])
      · refine iff_of_false ?_ (by simp [cText_cons hy])
        simp [strncmpEq, hy]
  | cons c q ih =>
    have hc : c ≠ 0 := by
      rintro rfl
      cases h
    rw [cText_cons hc, List.cons.injEq, and_iff_right rfl] at h
    cases m with
    | nil =>
      refine iff_of_false ?_ (by simp [cText])
      simp [strncmpEq, hc.symm]
    | cons y ys =>
      by_cases hy : y = 0
      · rw [hy, cText_zero]
        refine iff_of_false ?_ (by simp)
        simp [strncmpEq, hc.symm]
      · have hrest := ih h (m := ys)
        rw [cText_cons hy, List.cons.injEq, ← hrest]
        simp [strncmpEq, hy]

/-- **Without a zero byte** the first occurrence in the C text is found. -/
theorem findFrom_isFirst (h : cText n = n) (hn : n ≠ []) (m : Bytes) :
    IsFirst n (cText m) (findFrom n m) := by
  obtain ⟨c, q, rfl⟩ := List.exists_cons_of_ne_nil hn
  have hc : c ≠ 0 := by
    rintro rfl
    cases h
  induction m with
  | nil =>
    rw [findFrom, List.headD_cons, if_neg hc]
    exact isFirst_none_iff.mpr (by simp [cText])
  | cons y ys ih =>
    have hcmp := strncmpEq_text h (m := y :: ys)
    rw [findFrom, List.headD_cons]
    by_cases hy : y = 0
    · rw [if_neg (fun hand : y = c ∧ _ => hc (hand.1 ▸ hy)), if_pos hy, hy, cText_zero]
      exact isFirst_none_iff.mpr (by simp)
    · rw [cText_cons hy] at hcmp ⊢
      by_cases hpre : (c :: q) <+: y :: cText ys
      · rw [if_pos ⟨(List.cons_prefix_cons.mp hpre).1.symm, hcmp.mpr hpre⟩]
        exact ⟨occursAt_zero_iff.mpr hpre, fun j _ => Nat.zero_le j⟩
      · rw [if_neg (fun hand => hpre (hcmp.mp hand.2)), if_neg hy]
        exact ih.cons hpre

/-- **With a zero byte** the end of the C text is found. -/
theorem findFrom_zero {a b : Bytes} (h : cText a = a) (m : Bytes) :
    findFrom (a ++ 0 :: b) m =
      if a <:+ cText m then some ((cText m).length - a.length) else none := by
  have hhead : (a ++ 0 :: b).headD 0 = a.headD 0 := by cases a <;> rfl
  induction m with
  | nil =>
    rw [findFrom, hhead]
    cases a with
    | nil => rfl
    | cons c q =>
      have hc : c ≠ 0 := by
        rintro rfl
        cases h
      rw [List.headD_cons, if_neg hc, if_neg (by simp [cText])]
  | cons y ys ih =>
    have hcmp := strncmpEq_zero (b := b) h (m := y :: ys)
    rw [findFrom, hhead]
    by_cases hall : cText (y :: ys) = a
    · have hfirst : y = a.headD 0 := by
        by_cases hy : y = 0
        · rw [← hall, hy, cText_zero]
          rfl
        · rw [← hall, cText_cons hy]
          rfl
      rw [if_pos ⟨hfirst, hcmp.mpr hall⟩, hall, if_pos List.suffix_rfl, Nat.sub_self]
    · rw [if_neg (fun hand => hall (hcmp.mp hand.2))]
      by_cases hy : y = 0
      · rw [if_pos hy, hy, cText_zero, if_neg]
        rw [hy, cText_zero] at hall
        rw [List.suffix_nil]
        exact fun hnil => hall hnil.symm
      · rw [cText_cons hy] at hall ⊢
        have hiff : a <:+ y :: cText ys ↔ a <:+ cText ys :=
          List.suffix_cons_iff.trans (or_iff_right (Ne.symm hall))
        rw [if_neg hy, ih]
        by_cases hsuffix : a <:+ cText ys
        · have hle := hsuffix.length_le
          rw [if_pos hsuffix, if_pos (hiff.mpr hsuffix), Option.map_some, List.length_cons,
            Nat.sub_add_comm hle]
        · rw [if_neg hsuffix, if_neg (mt hiff.mp hsuffix)]
          rfl

/-- **The strings that are found** where they occur first. -/
theorem findString_isFirst_iff (s behind n : Bytes) :
    IsFirst n s (findString s behind n) ↔ FoundFirst s behind n := by
  rw [FoundFirst, findString]
  by_cases hs : s = []
  · rw [if_pos hs, if_pos hs, isFirst_none_iff, hs, List.infix_nil]
  rw [if_neg hs, if_neg hs]
  by_cases hn : n = []
  · rw [if_pos hn, hn]
    refine iff_of_true ⟨occursAt_nil_iff.mpr (Nat.zero_le _), fun j _ => Nat.zero_le j⟩ (.inl rfl)
  rw [if_neg hn, or_iff_right hn, Findable]
  by_cases hzero : cText n = n
  · rw [if_pos hzero]
    exact (findFrom_isFirst hzero hn _).prefix_iff (cText_front _) (List.prefix_append s behind)
  · rw [if_neg hzero]
    obtain ⟨rest, hrest⟩ := exists_of_cText_ne hzero
    have hhead : cText (cText n) = cText n := by
      refine List.takeWhile_eq_self_iff.mpr fun x hx => ?_
      exact bne_iff_ne.mpr (ne_zero_of_mem_cText hx)
    have hfind : findFrom n (s ++ behind) = if cText n <:+ cText (s ++ behind) then
        some ((cText (s ++ behind)).length - (cText n).length) else none := by
      have h := findFrom_zero (b := rest) hhead (s ++ behind)
      rwa [← hrest] at h
    rw [hfind]
    split_ifs with hsuffix
    · generalize hi : (cText (s ++ behind)).length - (cText n).length = i
      have hle := hsuffix.length_le
      constructor
      · exact fun hfirst => hfirst.1.2
      · intro hpre
        refine ⟨⟨?_, hpre⟩, fun j hj => ?_⟩
        · by_contra hlt
          rw [List.drop_eq_nil_of_le (by omega), List.prefix_nil] at hpre
          exact hn hpre
        · -- an earlier occurrence would have its zero byte within the C text
          by_contra hlt
          have hin : cText n ++ [0] <+: n := ⟨rest, by rw [List.append_assoc]; exact hrest.symm⟩
          have hat : OccursAt (cText n ++ [0]) (s ++ behind) j :=
            (((occursAt_prefix_iff (List.prefix_append s behind)).mp hj).1).front hin
          have htext : OccursAt (cText n ++ [0]) (cText (s ++ behind)) j := by
            refine (occursAt_prefix_iff (cText_front _)).mpr ⟨hat, ?_⟩
            rw [List.length_append, List.length_singleton]
            omega
          refine ne_zero_of_mem_cText (htext.mem (x := 0) ?_) rfl
          exact List.mem_append_right _ (List.mem_singleton_self 0)
    · exact isFirst_none_iff

/-- A character is found when the `int` gets as far as it, or as far as the end. -/
theorem find_isFirst_iff (s : Bytes) (ch : UInt8) :
    (∃ r, Cookies.find s ch = some r ∧ IsFirst [ch] s r) ↔
      ch ∈ s.take (2 ^ 31 - 1) ∨ s.length < 2 ^ 31 := by
  rw [Cookies.find]
  cases hidx : s.idxOf? ch with
  | none =>
    have hmem : ch ∉ s := List.idxOf?_eq_none_iff.mp hidx
    have hnone : IsFirst [ch] s none := by
      intro j hj
      exact hmem (List.mem_of_getElem? (occursAt_singleton_iff.mp hj))
    rw [or_iff_right fun h => hmem (List.mem_of_mem_take h)]
    constructor
    · rintro ⟨r, hr, -⟩
      by_contra hlen
      rw [if_neg hlen] at hr
      cases hr
    · exact fun hlen => ⟨none, if_pos hlen, hnone⟩
  | some i =>
    rw [List.idxOf?_eq_some_iff] at hidx
    obtain ⟨hi, hat, hbefore⟩ := hidx
    have hfirst : IsFirst [ch] s (some i) := by
      refine ⟨occursAt_singleton_iff.mpr (List.getElem?_eq_some_iff.mpr ⟨hi, hat⟩), fun j hj => ?_⟩
      obtain ⟨hj, hget⟩ := List.getElem?_eq_some_iff.mp (occursAt_singleton_iff.mp hj)
      by_contra hlt
      exact hbefore j (not_le.mp hlt) hget
    constructor
    · rintro ⟨r, hr, -⟩
      have hlt : i + 1 < 2 ^ 31 := by
        by_contra hge
        cases hr.symm.trans (if_neg hge)
      exact .inl (List.mem_take_iff_getElem.mpr ⟨i, by omega, hat⟩)
    · intro h
      refine ⟨some i, if_pos ?_, hfirst⟩
      rcases h with hmem | hlen
      · obtain ⟨j, hj, hget⟩ := List.mem_take_iff_getElem.mp hmem
        have hle : i ≤ j :=
          hfirst.2 j (occursAt_singleton_iff.mpr (List.getElem?_eq_some_iff.mpr ⟨by omega, hget⟩))
        omega
      · omega

/-- **The strings and the characters** that are found where they occur first. -/
theorem findsFirst_iff (s behind n : Bytes) (ch : UInt8) :
    (IsFirst n s (findString s behind n) ↔ FoundFirst s behind n) ∧
      ((∃ r, Cookies.find s ch = some r ∧ IsFirst [ch] s r) ↔
        ch ∈ s.take (2 ^ 31 - 1) ∨ s.length < 2 ^ 31) :=
  ⟨findString_isFirst_iff s behind n, find_isFirst_iff s ch⟩

/-- What is found may lie behind the string; and it is not found behind a zero byte. -/
theorem not_findsFirst :
    (¬ IsFirst (ascii "bc") (ascii "ab") (findString (ascii "ab") (ascii "cd") (ascii "bc")) ∧
        findString (ascii "ab") (ascii "cd") (ascii "bc") = some 1) ∧
      ¬ IsFirst (ascii "b") [97, 0, 98] (findString [97, 0, 98] [] (ascii "b")) ∧
        findString [97, 0, 98] [] (ascii "b") = none := by
  have hbehind : findString (ascii "ab") (ascii "cd") (ascii "bc") = some 1 := by decide
  have hzero : findString [97, 0, 98] [] (ascii "b") = none := by decide
  rw [hbehind, hzero]
  refine ⟨⟨fun h => absurd h.1 (by decide), rfl⟩, fun h => h 2 (by decide), rfl⟩

end Suil.Search
