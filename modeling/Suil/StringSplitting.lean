/-
Strings cut at a delimiter.

`String::split`, `String::tokenize` and `String::parts` run the same loop with different end
conditions.  The delimiter is looked for with `strstr`, up to a zero byte and not up to the
end of the string; an empty delimiter is the zero byte.

* `splitLoop_of_rest`, `splitLoop_of_behind` — `split` and `tokenize`, when the delimiter does
  not come behind the last piece, and when it does;
* `partsLoop_of_rest`, `partsLoop_of_straddle` — the same of `parts`;
* `splitting_iff` — when the three agree, and when a view is cut into its own pieces.
-/
import Suil.StringSearch

open Occurrences

namespace Suil.Splitting

open Search

/-- Why a call does not return: it throws; it reads outside of the memory; or its turns are
spent. -/
inductive Fails where
  | thrown
  | crash
  | spent
deriving DecidableEq

/-- What a `String` points to: nothing; or its bytes, and the memory behind them up to a zero
byte.  Behind a string that owns its memory comes the zero byte. -/
inductive Text where
  | null
  | points (s behind : Bytes)

namespace Text

def memory : Text → Option Bytes
  | null => none
  | points s behind => some (s ++ behind)

def bytes : Text → Bytes
  | null => []
  | points s _ => s

def size (t : Text) : ℕ := t.bytes.length

/-- The memory ends with the string. -/
def Owned : Text → Prop
  | null => True
  | points _ behind => behind = []

end Text

/-- The lambda `cmp`: where the delimiter comes next, from an index into the memory on.  With an
empty delimiter it is the next zero byte. -/
def cmp (d : Bytes) : Option Bytes → ℕ → Except Fails (Option ℕ)
  | none, _ => if d = [] then .ok none else .error .crash
  | some m, p =>
    if m.length < p then .error .crash
    else if d = [] then .ok (some (p + (cText (m.drop p)).length))
    else .ok ((firstIndex d (cText (m.drop p))).map (p + ·))

/-- `len`, of a delimiter that is no null pointer -/
def delimLength (d : Bytes) : ℕ := if d = [] then 1 else d.length

/-- The loop of `split` and `tokenize`; `tokenize` writes a zero byte over the delimiter.  A
delimiter at the end of the string is looked at again. -/
def splitLoop (mark : Bool) (d : Bytes) (eptr : ℕ) : ℕ → Option Bytes → ℕ → ℕ →
    Except Fails (Option Bytes × List (ℕ × ℕ) × ℕ)
  | 0, _, _, _ => .error .spent
  | turns + 1, m, ptr, ap =>
    match cmp d m ap with
    | .error e => .error e
    | .ok none => .ok (m, [], ptr)
    | .ok (some ap) =>
      if ap = eptr then splitLoop mark d eptr turns m ptr ap
      else
        (splitLoop mark d eptr turns (if mark then m.map (·.set ap 0) else m)
          (ap + delimLength d) (ap + delimLength d)).map
            fun (m, out, last) => (m, (ptr, ap) :: out, last)

/-- The loop of `parts`. -/
def partsLoop (d : Bytes) (eptr : ℕ) (m : Option Bytes) : ℕ → ℕ → ℕ →
    Except Fails (List (ℕ × ℕ) × ℕ)
  | 0, _, _ => .error .spent
  | turns + 1, ptr, ap =>
    match cmp d m ap with
    | .error e => .error e
    | .ok none => .ok ([], ptr)
    | .ok (some ap) =>
      if ap < eptr then
        (partsLoop d eptr m turns (ap + delimLength d) (ap + delimLength d)).map
          fun (out, last) => ((ptr, ap) :: out, last)
      else .ok ([], ptr)

/-- The bytes of a piece, from a pointer to another.  The length of a `String` has 32 bits. -/
def contents (m : Option Bytes) (piece : ℕ × ℕ) : Except Fails Bytes :=
  match m with
  | none => .error .crash
  | some m =>
    let n := (((piece.2 : ℤ) - piece.1) % 2 ^ 32).toNat
    if piece.1 + n ≤ m.length + 1 then .ok (((m ++ [0]).drop piece.1).take n) else .error .crash

/-- What `split` and `tokenize` have in common.  The copies that `split` makes are read at the
end, from the memory that it left as it was. -/
def cutWith (mark : Bool) (t : Text) (delim : Option Bytes) (turns : ℕ) :
    Except Fails (List Bytes) :=
  let found : Except Fails (Option Bytes × List (ℕ × ℕ) × ℕ) :=
    match delim with
    | none => .ok (t.memory, [], 0)
    | some d => splitLoop mark d t.size turns t.memory 0 0
  match found with
  | .error e => .error e
  | .ok (m, out, ptr) =>
    (out ++ if ptr ≠ t.size then [(ptr, t.size)] else []).mapM (contents m)

/-- `String::split` -/
def split (t : Text) (delim : Option Bytes) (turns : ℕ) : Except Fails (List Bytes) :=
  cutWith false t delim turns

/-- `String::tokenize` -/
def tokenize (own : Bool) (t : Text) (delim : Option Bytes) (turns : ℕ) :
    Except Fails (List Bytes) :=
  if own then cutWith true t delim turns else .error .thrown

/-- `String::parts` -/
def parts (t : Text) (delim : Option Bytes) (turns : ℕ) : Except Fails (List Bytes) :=
  let found : Except Fails (List (ℕ × ℕ) × ℕ) :=
    match delim with
    | none => .ok ([], 0)
    | some d => partsLoop d t.size t.memory turns 0 0
  match found with
  | .error e => .error e
  | .ok (out, ptr) =>
    (out ++ if ptr < t.size then [(ptr, t.size)] else []).mapM (contents t.memory)

/-! ### What is right -/

/-- The pieces of a string: between the delimiters, without an empty piece at the end.  A null
pointer and an empty delimiter do not occur. -/
def Pieces (delim : Option Bytes) (s : Bytes) (ps : List Bytes) : Prop :=
  match delim with
  | none => ps = lastPiece s
  | some d => if d = [] then ps = lastPiece s else ∃ cut r, Cuts d s cut r ∧ ps = cut ++ lastPiece r

/-- The pieces are the string again, up to a delimiter at its end. -/
def Joins (delim : Option Bytes) (s : Bytes) (ps : List Bytes) : Prop :=
  ∀ d, delim = some d → d ≠ [] → d.intercalate ps = s ∨ d.intercalate ps ++ d = s

/-- The call ends with this. -/
def Returns (f : ℕ → Except Fails (List Bytes)) (ps : List Bytes) : Prop :=
  ∃ turns, f turns = .ok ps

/-- The three calls return the pieces. -/
def Agree (t : Text) (delim : Option Bytes) : Prop :=
  ∃ ps, Pieces delim t.bytes ps ∧ Joins delim t.bytes ps ∧ Returns (split t delim) ps ∧
    Returns (tokenize true t delim) ps ∧ Returns (parts t delim) ps

def SplitsRight (t : Text) (delim : Option Bytes) : Prop :=
  ∃ ps, Pieces delim t.bytes ps ∧ Joins delim t.bytes ps ∧ Returns (split t delim) ps

def PartsRight (t : Text) (delim : Option Bytes) : Prop :=
  ∃ ps, Pieces delim t.bytes ps ∧ Joins delim t.bytes ps ∧ Returns (parts t delim) ps

/-- No delimiter begins in what is left of the string and goes on behind it, or begins behind. -/
def Splittable : Text → Option Bytes → Prop
  | _, none => True
  | .null, some d => d = []
  | .points s behind, some d =>
    d ≠ [] ∧ ∀ cut r, Cuts d s cut r → ¬ d <:+: r ++ cText behind

/-- No delimiter begins in what is left of the string. -/
def Partable : Text → Option Bytes → Prop
  | _, none => True
  | .null, some d => d = []
  | .points s behind, some d =>
    d = [] ∨ ∀ cut r, Cuts d s cut r → ∀ i, OccursAt d (r ++ cText behind) i → r.length ≤ i

/-! ### The search -/

variable {s u a r d before behind more : Bytes} {ps : List Bytes} {mark : Bool} {eptr turns : ℕ}

theorem cText_append (h : 0 ∉ u) (behind : Bytes) : cText (u ++ behind) = u ++ cText behind := by
  refine List.takeWhile_append_of_pos fun x hx => bne_iff_ne.mpr ?_
  rintro rfl
  exact h hx

/-- The search from the end of what is done. -/
theorem cmp_append (hd : d ≠ []) (hu : 0 ∉ u) :
    cmp d (some (before ++ u ++ behind)) before.length =
      .ok ((firstIndex d (u ++ cText behind)).map (before.length + ·)) := by
  have hin : ¬ (before ++ u ++ behind).length < before.length := by simp
  rw [cmp, if_neg hin, if_neg hd, List.append_assoc, List.drop_left, cText_append hu]

theorem cmp_ge {m : Option Bytes} {p ap : ℕ} (h : cmp d m p = .ok (some ap)) : p ≤ ap := by
  cases m with
  | none =>
    rw [cmp] at h
    split_ifs at h
    cases h
  | some m =>
    rw [cmp] at h
    split_ifs at h
    · cases h
      exact Nat.le_add_right _ _
    · obtain ⟨i, -, rfl⟩ := Option.map_eq_some_iff.mp (Except.ok.inj h)
      exact Nat.le_add_right _ _

/-- A delimiter within the string is found where it would be found in the string alone. -/
theorem cmp_cut (hd : d ≠ []) (hu : 0 ∉ a ++ d ++ u)
    (hfirst : IsFirst d (a ++ d ++ u) (some a.length)) :
    cmp d (some (before ++ (a ++ d ++ u) ++ behind)) before.length =
      .ok (some (before.length + a.length)) := by
  have hin : d <:+: a ++ d ++ u := ⟨a, u, rfl⟩
  have hlong : IsFirst d (a ++ d ++ u ++ cText behind) (some a.length) := by
    refine (hfirst.prefix_iff (List.prefix_append _ _) List.prefix_rfl).mpr ?_
    exact iff_of_true hin (hin.trans (List.prefix_append _ _).isInfix)
  rw [cmp_append hd hu, (firstIndex_isFirst d _).unique hlong]
  rfl

/-- The text that is found nowhere is not found from here on. -/
theorem cmp_rest (hd : d ≠ []) (hr : 0 ∉ r) (hnot : ¬ d <:+: r ++ cText behind) :
    cmp d (some (before ++ r ++ behind)) before.length = .ok none := by
  rw [cmp_append hd hr, (firstIndex_isFirst d _).unique (isFirst_none_iff.mpr hnot)]
  rfl

/-- What is found from the last piece on, when it is not in the piece, ends behind it. -/
theorem exists_cmp_behind (hd : d ≠ []) (hr : 0 ∉ r) (hnot : ¬ d <:+: r)
    (hin : d <:+: r ++ cText behind) :
    ∃ i, cmp d (some (before ++ r ++ behind)) before.length = .ok (some (before.length + i)) ∧
      IsFirst d (r ++ cText behind) (some i) ∧ r.length < i + d.length := by
  have hfirst := firstIndex_isFirst d (r ++ cText behind)
  cases hidx : firstIndex d (r ++ cText behind) with
  | none =>
    rw [hidx] at hfirst
    exact absurd hin (isFirst_none_iff.mp hfirst)
  | some i =>
    rw [hidx] at hfirst
    refine ⟨i, ?_, hfirst, ?_⟩
    · rw [cmp_append hd hr, hidx]
      rfl
    · by_contra hle
      exact hnot (exists_occursAt_iff.mp ⟨i, (occursAt_append_iff (not_lt.mp hle)).mp hfirst.1⟩)

theorem delimLength_of_ne_nil (hd : d ≠ []) : delimLength d = d.length := if_neg hd

theorem contents_append (hlen : a.length < 2 ^ 32) (before behind : Bytes) :
    contents (some (before ++ a ++ behind)) (before.length, before.length + a.length) = .ok a := by
  have hn : (((before.length + a.length : ℕ) : ℤ) - before.length) % 2 ^ 32 = a.length := by omega
  simp only [contents, hn, Int.toNat_natCast]
  rw [if_pos (by simp only [List.length_append]; omega), List.append_assoc, List.append_assoc,
    List.drop_left, List.take_left]

theorem exists_of_mapM_cons {m : Option Bytes} {piece : ℕ × ℕ} {out : List (ℕ × ℕ)}
    (h : (piece :: out).mapM (contents m) = .ok ps) :
    ∃ x xs, contents m piece = .ok x ∧ out.mapM (contents m) = .ok xs ∧ ps = x :: xs := by
  rw [List.mapM_cons] at h
  cases hone : contents m piece with
  | error e =>
    rw [hone] at h
    cases h
  | ok x =>
    rw [hone] at h
    cases hall : out.mapM (contents m) with
    | error e =>
      rw [hall] at h
      cases h
    | ok xs =>
      rw [hall] at h
      exact ⟨x, xs, rfl, rfl, (Except.ok.inj h).symm⟩

theorem length_of_mapM {m : Option Bytes} {out : List (ℕ × ℕ)}
    (h : out.mapM (contents m) = .ok ps) : ps.length = out.length := by
  induction out generalizing ps with
  | nil =>
    cases h
    rfl
  | cons piece out ih =>
    obtain ⟨x, xs, -, hall, rfl⟩ := exists_of_mapM_cons h
    rw [List.length_cons, List.length_cons, ih hall]

/-! ### `split` and `tokenize` -/

/-- The zero byte is written over the delimiter, within what is done. -/
theorem exists_marked (mark : Bool) (hd : d ≠ []) (before a u behind : Bytes) :
    ∃ d', d'.length = d.length ∧
      (if mark then
          (some (before ++ (a ++ d ++ u) ++ behind)).map (·.set (before.length + a.length) 0)
        else some (before ++ (a ++ d ++ u) ++ behind)) =
          some ((before ++ a ++ d') ++ u ++ behind) := by
  obtain ⟨c, q, rfl⟩ := List.exists_cons_of_ne_nil hd
  cases mark with
  | false => exact ⟨c :: q, rfl, by simp⟩
  | true =>
    refine ⟨0 :: q, rfl, ?_⟩
    rw [if_pos rfl, Option.map_some, ← List.length_append, List.append_assoc, List.append_assoc,
      List.append_assoc, ← List.append_assoc before, List.set_append_right _ _ le_rfl, Nat.sub_self]
    simp

/-- **One turn** at a delimiter before the end. -/
theorem exists_splitLoop_cut (mark : Bool) (hd : d ≠ []) (hu : 0 ∉ a ++ d ++ u)
    (hfirst : IsFirst d (a ++ d ++ u) (some a.length)) {before : Bytes}
    (hends : before.length + (a ++ d ++ u).length ≤ eptr) (behind : Bytes) :
    ∃ d', d'.length = d.length ∧ ∀ turns,
      splitLoop mark d eptr (turns + 1)
          (some (before ++ (a ++ d ++ u) ++ behind)) before.length before.length =
        (splitLoop mark d eptr turns (some ((before ++ a ++ d') ++ u ++ behind))
          (before ++ a ++ d').length (before ++ a ++ d').length).map
            fun (m, out, last) => (m, (before.length, before.length + a.length) :: out, last) := by
  obtain ⟨d', hlen, hmark⟩ := exists_marked mark hd before a u behind
  refine ⟨d', hlen, fun turns => ?_⟩
  have hpos := List.length_pos_of_ne_nil hd
  have hptr : before.length + a.length + d.length = (before ++ a ++ d').length := by
    simp only [List.length_append]
    omega
  have hne : before.length + a.length ≠ eptr := by
    simp only [List.length_append] at hends
    omega
  rw [splitLoop, cmp_cut hd hu hfirst]
  simp only [if_neg hne, delimLength_of_ne_nil hd]
  rw [hmark, hptr]

/-- When the delimiter does not come again, the pieces up to the end, or to a zero byte before it,
are found. -/
theorem splitLoop_of_rest (mark : Bool) (hd : d ≠ []) (hu : 0 ∉ u) (hlen : u.length < 2 ^ 32)
    (hcuts : Cuts d u ps r) (hnot : ¬ d <:+: r ++ cText behind) {before : Bytes}
    (hends : before.length + u.length ≤ eptr) :
    ∃ turns mid out, splitLoop mark d eptr turns
        (some (before ++ u ++ behind)) before.length before.length =
          .ok (some (before ++ mid ++ r ++ behind), out, before.length + mid.length) ∧
      mid.length + r.length = u.length ∧
      ∀ more, out.mapM (contents (some (before ++ mid ++ more))) = .ok ps := by
  induction hcuts generalizing before with
  | @rest r _ =>
    refine ⟨1, [], [], ?_, Nat.zero_add _, fun _ => rfl⟩
    rw [splitLoop, cmp_rest hd hu hnot, List.append_nil]
    rfl
  | @cut a u r ps hfirst hcuts ih =>
    have hu' : 0 ∉ u := fun hmem => hu (List.mem_append_right _ hmem)
    have hlens : u.length ≤ (a ++ d ++ u).length := by
      rw [List.length_append]
      exact Nat.le_add_left _ _
    obtain ⟨d', hd', hturn⟩ := exists_splitLoop_cut mark hd hu hfirst hends behind
    obtain ⟨turns, mid, out, hloop, hmid, hout⟩ := @ih hu' (by omega) hnot (before ++ a ++ d') (by
      simp only [List.length_append] at hends ⊢
      omega)
    refine ⟨turns + 1, a ++ d' ++ mid, (before.length, before.length + a.length) :: out, ?_, ?_, ?_⟩
    · rw [hturn, hloop]
      simp [Except.map, Nat.add_assoc]
    · simp only [List.length_append]
      omega
    · intro more
      have ha : a.length < 2 ^ 32 := by
        simp only [List.length_append] at hlen
        omega
      have hone := contents_append ha before (d' ++ mid ++ more)
      have hrest := hout more
      simp only [List.append_assoc] at hone hrest ⊢
      rw [List.mapM_cons, hone, hrest]
      rfl

theorem exists_of_map_eq_ok {α β : Type} {f : α → β} {x : Except Fails α} {y : β}
    (h : x.map f = .ok y) : ∃ z, x = .ok z ∧ f z = y := by
  cases x with
  | error e => cases h
  | ok z => exact ⟨z, rfl, Except.ok.inj h⟩

/-- The last piece does not begin before the others end. -/
theorem le_of_splitLoop {m m' : Option Bytes} {out : List (ℕ × ℕ)} {ptr ap last : ℕ}
    (hle : ptr ≤ ap) (h : splitLoop mark d eptr turns m ptr ap = .ok (m', out, last)) :
    ptr ≤ last := by
  induction turns generalizing m ptr ap out with
  | zero => cases h
  | succ turns ih =>
    rw [splitLoop] at h
    cases hcmp : cmp d m ap with
    | error e =>
      rw [hcmp] at h
      cases h
    | ok found =>
      rw [hcmp] at h
      cases found with
      | none =>
        cases h
        exact le_rfl
      | some ap' =>
        have hge := cmp_ge hcmp
        dsimp only at h
        by_cases hend : ap' = eptr
        · rw [if_pos hend] at h
          exact ih (hle.trans hge) h
        · rw [if_neg hend] at h
          obtain ⟨⟨m₁, out₁, last₁⟩, hinner, heq⟩ := exists_of_map_eq_ok h
          cases heq
          have hlast := ih le_rfl hinner
          omega

/-- A delimiter right behind the string is looked at for ever. -/
theorem splitLoop_spent {m : Option Bytes} (h : cmp d m eptr = .ok (some eptr)) (turns ptr : ℕ) :
    splitLoop mark d eptr turns m ptr eptr = .error .spent := by
  induction turns with
  | zero => rfl
  | succ turns ih =>
    rw [splitLoop, h]
    simp only [if_pos, ih]

/-- When the delimiter comes again behind the string, there are more pieces, or no end. -/
theorem splitLoop_of_behind (hd : d ≠ []) (hu : 0 ∉ u) (hcuts : Cuts d u ps r)
    (hin : d <:+: r ++ cText behind) {before : Bytes} {turns : ℕ} {m : Option Bytes}
    {out : List (ℕ × ℕ)} {last : ℕ}
    (h : splitLoop mark d (before.length + u.length) turns (some (before ++ u ++ behind))
      before.length before.length = .ok (m, out, last)) :
    ps.length < out.length ∧ before.length + u.length < last := by
  cases turns with
  | zero => cases h
  | succ turns =>
    induction hcuts generalizing before turns out with
    | @rest r hnot =>
      obtain ⟨i, hcmp, hfirst, hlong⟩ := @exists_cmp_behind r d before behind hd hu hnot hin
      rw [splitLoop, hcmp] at h
      dsimp only at h
      by_cases hend : i = r.length
      · -- it comes at the end of the string
        have hagain : cmp d (some (before ++ r ++ behind)) (before.length + r.length) =
            .ok (some (before.length + r.length)) := by
          have hpre : d <+: cText behind := by
            have hat := hfirst.1.2
            rwa [hend, List.drop_left] at hat
          have hzero : IsFirst d (cText behind) (some 0) :=
            ⟨occursAt_zero_iff.mpr hpre, fun j _ => Nat.zero_le j⟩
          have hat := @cmp_append [] d (before ++ r) behind hd List.not_mem_nil
          rw [List.nil_append, (firstIndex_isFirst d _).unique hzero, List.append_nil,
            List.length_append] at hat
          exact hat
        rw [hend, if_pos rfl, splitLoop_spent hagain] at h
        cases h
      · -- it ends behind the string, and the next piece begins there
        rw [if_neg (by omega)] at h
        obtain ⟨⟨m₁, out₁, last₁⟩, hinner, heq⟩ := exists_of_map_eq_ok h
        cases heq
        have hlast := le_of_splitLoop le_rfl hinner
        rw [delimLength_of_ne_nil hd] at hlast
        exact ⟨Nat.succ_pos _, show _ < last₁ by omega⟩
    | @cut a u r ps hfirst hcuts ih =>
      obtain ⟨d', hd', hturn⟩ := exists_splitLoop_cut mark hd hu hfirst (@le_rfl ℕ _ _) behind
      have hends : before.length + (a ++ d ++ u).length = (before ++ a ++ d').length + u.length := by
        simp only [List.length_append]
        omega
      rw [hturn, hends] at h
      obtain ⟨⟨m₁, out₁, last₁⟩, hinner, heq⟩ := exists_of_map_eq_ok h
      cases heq
      cases turns with
      | zero => cases hinner
      | succ turns =>
        obtain ⟨hmore, hlast⟩ := ih (fun hmem => hu (List.mem_append_right _ hmem)) hin _ hinner
        simp only [List.length_append, List.length_cons] at hlast ⊢
        omega

/-- An empty delimiter is found at the end of the string or behind it. -/
theorem cmp_empty (hs : 0 ∉ s) (behind : Bytes) :
    cmp [] (some (s ++ behind)) 0 = .ok (some (s.length + (cText behind).length)) := by
  rw [cmp, if_neg (Nat.not_lt_zero _), if_pos rfl, List.drop_zero, cText_append hs,
    List.length_append, Nat.zero_add]

theorem splitLoop_empty (hs : 0 ∉ s) {m : Option Bytes} {out : List (ℕ × ℕ)} {last : ℕ}
    (h : splitLoop mark [] s.length turns (some (s ++ behind)) 0 0 = .ok (m, out, last)) :
    0 < out.length ∧ s.length < last := by
  cases turns with
  | zero => cases h
  | succ turns =>
    rw [splitLoop, cmp_empty hs] at h
    dsimp only at h
    by_cases hend : cText behind = []
    · have hagain : cmp [] (some (s ++ behind)) s.length = .ok (some s.length) := by
        have hin : ¬ (s ++ behind).length < s.length := by simp
        rw [cmp, if_neg hin, if_pos rfl, List.drop_left, hend]
        rfl
      rw [hend, List.length_nil, Nat.add_zero, if_pos rfl, splitLoop_spent hagain] at h
      cases h
    · have hpos := List.length_pos_of_ne_nil hend
      rw [if_neg (by omega)] at h
      obtain ⟨⟨m₁, out₁, last₁⟩, hinner, heq⟩ := exists_of_map_eq_ok h
      cases heq
      have hlast := le_of_splitLoop le_rfl hinner
      exact ⟨Nat.succ_pos _, show _ < last₁ by omega⟩

/-! ### `parts` -/

theorem partsLoop_cut (hd : d ≠ []) (hu : 0 ∉ a ++ d ++ u)
    (hfirst : IsFirst d (a ++ d ++ u) (some a.length)) (before behind : Bytes) (turns : ℕ) :
    partsLoop d (before.length + (a ++ d ++ u).length) (some (before ++ (a ++ d ++ u) ++ behind))
        (turns + 1) before.length before.length =
      (partsLoop d ((before ++ a ++ d).length + u.length)
        (some ((before ++ a ++ d) ++ u ++ behind)) turns (before ++ a ++ d).length
        (before ++ a ++ d).length).map
          fun (out, last) => ((before.length, before.length + a.length) :: out, last) := by
  have hpos := List.length_pos_of_ne_nil hd
  have hends : before.length + (a ++ d ++ u).length = (before ++ a ++ d).length + u.length := by
    simp only [List.length_append]
    omega
  have hptr : before.length + a.length + d.length = (before ++ a ++ d).length := by
    simp only [List.length_append]
  have hlt : before.length + a.length < before.length + (a ++ d ++ u).length := by
    simp only [List.length_append]
    omega
  have hmem : before ++ (a ++ d ++ u) ++ behind = (before ++ a ++ d) ++ u ++ behind := by
    simp only [List.append_assoc]
  rw [partsLoop, cmp_cut hd hu hfirst]
  simp only [if_pos hlt, delimLength_of_ne_nil hd]
  rw [hmem, hends, hptr]

theorem le_of_partsLoop {m : Option Bytes} {out : List (ℕ × ℕ)} {ptr ap last : ℕ}
    (hle : ptr ≤ ap) (h : partsLoop d eptr m turns ptr ap = .ok (out, last)) : ptr ≤ last := by
  induction turns generalizing ptr ap out with
  | zero => cases h
  | succ turns ih =>
    rw [partsLoop] at h
    cases hcmp : cmp d m ap with
    | error e =>
      rw [hcmp] at h
      cases h
    | ok found =>
      rw [hcmp] at h
      cases found with
      | none =>
        cases h
        exact le_rfl
      | some ap' =>
        have hge := cmp_ge hcmp
        dsimp only at h
        by_cases hend : ap' < eptr
        · rw [if_pos hend] at h
          obtain ⟨⟨out₁, last₁⟩, hinner, heq⟩ := exists_of_map_eq_ok h
          cases heq
          have hlast := ih le_rfl hinner
          omega
        · rw [if_neg hend] at h
          cases h
          exact le_rfl

/-- When the delimiter does not come in the last piece, the pieces of the string are found. -/
theorem partsLoop_of_rest (hd : d ≠ []) (hu : 0 ∉ u) (hlen : u.length < 2 ^ 32)
    (hcuts : Cuts d u ps r) (hnot : ∀ i, OccursAt d (r ++ cText behind) i → r.length ≤ i)
    (before : Bytes) :
    ∃ turns done out, before ++ u = done ++ r ∧
      partsLoop d (before.length + u.length) (some (before ++ u ++ behind)) turns
        before.length before.length = .ok (out, done.length) ∧
      out.mapM (contents (some (before ++ u ++ behind))) = .ok ps := by
  induction hcuts generalizing before with
  | @rest r _ =>
    refine ⟨1, before, [], rfl, ?_, rfl⟩
    rw [partsLoop, cmp_append hd hu]
    have hfirst := firstIndex_isFirst d (r ++ cText behind)
    cases hidx : firstIndex d (r ++ cText behind) with
    | none => rfl
    | some i =>
      rw [hidx] at hfirst
      have hle := hnot i hfirst.1
      exact if_neg (show ¬ before.length + i < before.length + r.length by omega)
  | @cut a u r ps hfirst hcuts ih =>
    have hu' : 0 ∉ u := fun hmem => hu (List.mem_append_right _ hmem)
    have hlens : u.length ≤ (a ++ d ++ u).length := by
      rw [List.length_append]
      exact Nat.le_add_left _ _
    obtain ⟨turns, done, out, hdone, hloop, hout⟩ := ih hu' (by omega) hnot (before ++ a ++ d)
    refine ⟨turns + 1, done, (before.length, before.length + a.length) :: out, ?_, ?_, ?_⟩
    · rw [← hdone]
      simp only [List.append_assoc]
    · rw [partsLoop_cut hd hu hfirst, hloop]
      rfl
    · have ha : a.length < 2 ^ 32 := by
        simp only [List.length_append] at hlen
        omega
      have hone := contents_append ha before (d ++ u ++ behind)
      simp only [List.append_assoc] at hone hout ⊢
      rw [List.mapM_cons, hone, hout]
      rfl

/-- When it begins in the last piece, that piece is cut off there, and nothing comes behind. -/
theorem partsLoop_of_straddle (hd : d ≠ []) (hu : 0 ∉ u) (hlen : u.length < 2 ^ 32)
    (hcuts : Cuts d u ps r) {i : ℕ} (hat : OccursAt d (r ++ cText behind) i) (hi : i < r.length)
    {before : Bytes} {turns : ℕ} {out : List (ℕ × ℕ)} {last : ℕ}
    (h : partsLoop d (before.length + u.length) (some (before ++ u ++ behind)) turns
      before.length before.length = .ok (out, last)) :
    before.length + u.length ≤ last ∧
      out.mapM (contents (some (before ++ u ++ behind))) ≠ .ok (ps ++ [r]) := by
  induction hcuts generalizing before turns out with
  | @rest r hnot =>
    cases turns with
    | zero => cases h
    | succ turns =>
      obtain ⟨j, hcmp, hfirst, hlong⟩ :=
        @exists_cmp_behind r d before behind hd hu hnot (exists_occursAt_iff.mp ⟨i, hat⟩)
      have hji := hfirst.2 i hat
      rw [partsLoop, hcmp] at h
      dsimp only at h
      rw [if_pos (by omega), delimLength_of_ne_nil hd] at h
      obtain ⟨⟨out₁, last₁⟩, hinner, heq⟩ := exists_of_map_eq_ok h
      cases heq
      refine ⟨?_, fun hout => ?_⟩
      · have hlast := le_of_partsLoop le_rfl hinner
        show _ ≤ last₁
        omega
      · -- the last piece is cut off at the delimiter, and so is shorter
        have htake : (r.take j).length = j := List.length_take_of_le (by omega)
        have hone := contents_append (a := r.take j) (by omega) before (r.drop j ++ behind)
        rw [htake, List.append_assoc, ← List.append_assoc (r.take j), List.take_append_drop,
          ← List.append_assoc] at hone
        obtain ⟨x, xs, hx, -, hps⟩ := exists_of_mapM_cons hout
        have hhead : r.take j = r :=
          (Except.ok.inj (hone.symm.trans hx)).trans (List.cons.inj hps).1.symm
        rw [hhead] at htake
        omega
  | @cut a u r ps hfirst hcuts ih =>
    cases turns with
    | zero => cases h
    | succ turns =>
      have hlens : u.length ≤ (a ++ d ++ u).length := by
        rw [List.length_append]
        exact Nat.le_add_left _ _
      rw [partsLoop_cut hd hu hfirst] at h
      obtain ⟨⟨out₁, last₁⟩, hinner, heq⟩ := exists_of_map_eq_ok h
      cases heq
      obtain ⟨hlast, hne⟩ :=
        ih (fun hmem => hu (List.mem_append_right _ hmem)) (by omega) hat hi hinner
      have hmem : before ++ a ++ d ++ u ++ behind = before ++ (a ++ d ++ u) ++ behind := by
        simp only [List.append_assoc]
      rw [hmem] at hne
      refine ⟨?_, fun hout => ?_⟩
      · simp only [List.length_append] at hlast ⊢
        omega
      · obtain ⟨x, xs, -, hall, hps⟩ := exists_of_mapM_cons hout
        exact hne (hall.trans (congrArg _ (List.cons.inj hps).2.symm))

/-! ### The calls -/

variable {t : Text} {delim : Option Bytes}

theorem exists_pieces (delim : Option Bytes) (s : Bytes) : ∃ ps, Pieces delim s ps := by
  cases delim with
  | none => exact ⟨_, rfl⟩
  | some d =>
    by_cases hd : d = []
    · exact ⟨_, (if_pos hd).mpr rfl⟩
    · obtain ⟨cut, r, hcuts⟩ := exists_cuts hd s
      exact ⟨_, (if_neg hd).mpr ⟨cut, r, hcuts, rfl⟩⟩

theorem Pieces.joins (h : Pieces delim s ps) : Joins delim s ps := by
  rintro d rfl hd
  rw [Pieces, if_neg hd] at h
  obtain ⟨cut, r, hcuts, rfl⟩ := h
  exact hcuts.intercalate_pieces

theorem contents_lastPiece (hlen : r.length < 2 ^ 32) (before behind : Bytes) :
    (if before.length < before.length + r.length then [(before.length, before.length + r.length)]
      else []).mapM (contents (some (before ++ r ++ behind))) = .ok (lastPiece r) := by
  by_cases hr : r = []
  · rw [hr, List.length_nil, if_neg (by omega)]
    rfl
  · have hpos := List.length_pos_of_ne_nil hr
    rw [if_pos (by omega), List.mapM_cons, contents_append hlen, lastPiece_of_ne_nil hr]
    rfl

theorem length_lastPiece_le (r : Bytes) : (lastPiece r).length ≤ 1 := by
  rw [lastPiece]
  split_ifs
  · exact Nat.zero_le 1
  · exact le_rfl

theorem cutWith_points (mark : Bool) (s behind d : Bytes) (turns : ℕ) :
    cutWith mark (.points s behind) (some d) turns =
      match splitLoop mark d s.length turns (some (s ++ behind)) 0 0 with
      | .error e => .error e
      | .ok (m, out, ptr) =>
        (out ++ if ptr ≠ s.length then [(ptr, s.length)] else []).mapM (contents m) :=
  rfl

/-- With pieces that go on behind the string there is one more. -/
theorem exists_of_cutWith (h : cutWith mark (.points s behind) (some d) turns = .ok ps) :
    ∃ m out ptr, splitLoop mark d s.length turns (some (s ++ behind)) 0 0 = .ok (m, out, ptr) ∧
      (s.length < ptr → ps.length = out.length + 1) := by
  rw [cutWith_points] at h
  cases hloop : splitLoop mark d s.length turns (some (s ++ behind)) 0 0 with
  | error e =>
    rw [hloop] at h
    cases h
  | ok found =>
    obtain ⟨m, out, ptr⟩ := found
    rw [hloop] at h
    refine ⟨m, out, ptr, rfl, fun hlt => ?_⟩
    dsimp only at h
    rw [if_pos hlt.ne'] at h
    rw [length_of_mapM h, List.length_append, List.length_singleton]

/-- The pieces up to the end, or to a zero byte in the string; what comes from there on belongs to
the last one. -/
theorem returns_cutWith_of_rest {w : Bytes} (mark : Bool) (hd : d ≠ []) (hu : 0 ∉ u)
    (hlen : (u ++ w).length < 2 ^ 32) (hcuts : Cuts d u ps r)
    (hnot : ¬ d <:+: r ++ cText (w ++ behind)) :
    Returns (cutWith mark (.points (u ++ w) behind) (some d)) (ps ++ lastPiece (r ++ w)) := by
  have hlens := @List.length_append _ u w
  have hends : ([] : Bytes).length + u.length ≤ (u ++ w).length := by
    rw [List.length_nil]
    omega
  obtain ⟨turns, mid, out, hloop, hmid, hout⟩ :=
    splitLoop_of_rest mark hd hu (by omega) hcuts hnot hends
  simp only [List.length_nil, Nat.zero_add, List.nil_append] at hloop hout
  have hrest := @List.length_append _ r w
  have hr := contents_lastPiece (r := r ++ w) (by omega) mid behind
  have hpieces := hout ((r ++ w) ++ behind)
  rw [← List.append_assoc] at hpieces
  have hmem : mid ++ r ++ (w ++ behind) = mid ++ (r ++ w) ++ behind := by
    simp only [List.append_assoc]
  have hlast : mid.length + (r ++ w).length = (u ++ w).length := by omega
  refine ⟨turns, ?_⟩
  rw [cutWith_points, List.append_assoc, hloop, hmem]
  dsimp only
  rw [if_congr (show mid.length ≠ (u ++ w).length ↔ mid.length < (u ++ w).length by omega) rfl rfl,
    List.mapM_append, hpieces, ← hlast, hr]
  rfl

/-- Within a text, `split` and `tokenize` return the pieces when the delimiter does not come
behind the last one. -/
theorem returns_cutWith_points_iff (mark : Bool) (hd : d ≠ []) (h0 : 0 ∉ s)
    (hlen : s.length < 2 ^ 32) (hcuts : Cuts d s ps r) :
    Returns (cutWith mark (.points s behind) (some d)) (ps ++ lastPiece r) ↔
      ¬ d <:+: r ++ cText behind := by
  constructor
  · rintro ⟨turns, h⟩ hin
    obtain ⟨m, out, ptr, hloop, hmore⟩ := exists_of_cutWith h
    -- there would be two pieces too many
    have hbehind := @splitLoop_of_behind s r d behind ps mark hd h0 hcuts hin [] turns m out ptr
    simp only [List.length_nil, Nat.zero_add, List.nil_append] at hbehind
    obtain ⟨hpos, hlt⟩ := hbehind hloop
    have hlength := hmore hlt
    have hle := length_lastPiece_le r
    rw [List.length_append] at hlength
    omega
  · intro hnot
    have hreturns := @returns_cutWith_of_rest s r d behind ps [] mark hd h0
    simp only [List.append_nil, List.nil_append] at hreturns
    exact hreturns hlen hcuts hnot

theorem parts_points (s behind d : Bytes) (turns : ℕ) :
    parts (.points s behind) (some d) turns =
      match partsLoop d s.length (some (s ++ behind)) turns 0 0 with
      | .error e => .error e
      | .ok (out, ptr) =>
        (out ++ if ptr < s.length then [(ptr, s.length)] else []).mapM
          (contents (some (s ++ behind))) :=
  rfl

/-- And `parts` when it does not begin in the last one. -/
theorem returns_parts_points_iff (hd : d ≠ []) (h0 : 0 ∉ s) (hlen : s.length < 2 ^ 32)
    (hcuts : Cuts d s ps r) :
    Returns (parts (.points s behind) (some d)) (ps ++ lastPiece r) ↔
      ∀ i, OccursAt d (r ++ cText behind) i → r.length ≤ i := by
  constructor
  · rintro ⟨turns, h⟩ i hat
    by_contra hlt
    rw [parts_points] at h
    cases hloop : partsLoop d s.length (some (s ++ behind)) turns 0 0 with
    | error e =>
      rw [hloop] at h
      cases h
    | ok found =>
      obtain ⟨out, ptr⟩ := found
      have hstraddle := @partsLoop_of_straddle s r d behind ps hd h0 hlen hcuts i hat
        (not_le.mp hlt) [] turns out ptr
      simp only [List.length_nil, Nat.zero_add, List.nil_append] at hstraddle
      obtain ⟨hle, hne⟩ := hstraddle hloop
      have hr : r ≠ [] := by
        rintro rfl
        exact hlt (Nat.zero_le _)
      rw [hloop] at h
      dsimp only at h
      rw [if_neg (not_lt.mpr hle), List.append_nil, lastPiece_of_ne_nil hr] at h
      exact hne h
  · intro hnot
    obtain ⟨turns, done, out, hdone, hloop, hout⟩ := partsLoop_of_rest hd h0 hlen hcuts hnot []
    simp only [List.length_nil, Nat.zero_add, List.nil_append] at hdone hloop hout
    have hlens : s.length = done.length + r.length := by
      rw [hdone, List.length_append]
    have hr := contents_lastPiece (r := r) (by omega) done behind
    rw [← hdone, ← hlens] at hr
    refine ⟨turns, ?_⟩
    rw [parts_points, hloop]
    dsimp only
    rw [List.mapM_append, hout, hr]
    rfl

theorem contents_whole (hlen : s.length < 2 ^ 32) (behind : Bytes) :
    (if 0 < s.length then [(0, s.length)] else []).mapM (contents (some (s ++ behind))) =
      .ok (lastPiece s) := by
  have hwhole := contents_lastPiece hlen [] behind
  simp only [List.length_nil, Nat.zero_add, List.nil_append] at hwhole
  exact hwhole

/-- A null pointer is looked through for an empty delimiter only. -/
theorem cmp_null (hd : d ≠ []) : cmp d none 0 = .error .crash := if_neg hd

/-- More turns do not change what the loop ends with. -/
theorem splitLoop_more {m : Option Bytes} {ptr ap : ℕ} {x : Option Bytes × List (ℕ × ℕ) × ℕ}
    (h : splitLoop mark d eptr turns m ptr ap = .ok x) :
    splitLoop mark d eptr (turns + 1) m ptr ap = .ok x := by
  induction turns generalizing m ptr ap x with
  | zero => cases h
  | succ turns ih =>
    rw [splitLoop] at h ⊢
    cases hcmp : cmp d m ap with
    | error e =>
      rw [hcmp] at h
      cases h
    | ok found =>
      rw [hcmp] at h
      cases found with
      | none => exact h
      | some ap' =>
        dsimp only at h ⊢
        by_cases hend : ap' = eptr
        · rw [if_pos hend] at h ⊢
          exact ih h
        · rw [if_neg hend] at h ⊢
          obtain ⟨y, hinner, rfl⟩ := exists_of_map_eq_ok h
          rw [ih hinner]
          rfl

theorem cutWith_more (h : cutWith mark t delim turns = .ok ps) :
    cutWith mark t delim (turns + 1) = .ok ps := by
  cases delim with
  | none => exact h
  | some d =>
    rw [cutWith] at h ⊢
    cases hloop : splitLoop mark d t.size turns t.memory 0 0 with
    | error e =>
      rw [hloop] at h
      cases h
    | ok x =>
      rw [hloop] at h
      rw [splitLoop_more hloop]
      exact h

/-- A call has one result. -/
theorem cutWith_unique {ps' : List Bytes} (h : cutWith mark t delim turns = .ok ps)
    (h' : Returns (cutWith mark t delim) ps') : ps = ps' := by
  obtain ⟨turns', h'⟩ := h'
  have hmore : ∀ {n qs}, cutWith mark t delim n = .ok qs → ∀ k,
      cutWith mark t delim (n + k) = .ok qs := by
    intro n qs hn k
    induction k with
    | zero => exact hn
    | succ k ih => exact cutWith_more ih
  have heq := hmore h' turns
  rw [Nat.add_comm, hmore h turns'] at heq
  exact Except.ok.inj heq

/-- **`split` and `tokenize`** return the pieces of the string when no delimiter goes on, or
begins, behind it. -/
theorem returns_cutWith_iff (mark : Bool) (h0 : 0 ∉ t.bytes) (hlen : t.size < 2 ^ 32)
    (hps : Pieces delim t.bytes ps) : Returns (cutWith mark t delim) ps ↔ Splittable t delim := by
  cases delim with
  | none =>
    subst hps
    cases t with
    | null => exact iff_of_true ⟨0, rfl⟩ trivial
    | points s behind =>
      refine iff_of_true ⟨0, ?_⟩ trivial
      show (if 0 ≠ s.length then [(0, s.length)] else []).mapM (contents (some (s ++ behind))) = _
      rw [if_congr (show 0 ≠ s.length ↔ 0 < s.length by omega) rfl rfl]
      exact contents_whole hlen behind
  | some d =>
    cases t with
    | null =>
      by_cases hd : d = []
      · subst hd hps
        exact iff_of_true ⟨1, rfl⟩ rfl
      · refine iff_of_false ?_ hd
        rintro ⟨turns, h⟩
        cases turns with
        | zero => cases h
        | succ turns =>
          rw [cutWith, splitLoop, Text.memory, cmp_null hd] at h
          cases h
    | points s behind =>
      by_cases hd : d = []
      · -- the zero byte is looked for: it is at the end, or behind
        refine iff_of_false ?_ fun h => h.1 hd
        rintro ⟨turns, h⟩
        rw [Pieces, if_pos hd] at hps
        subst hd hps
        obtain ⟨m, out, ptr, hloop, hmore⟩ := exists_of_cutWith h
        obtain ⟨hpos, hlt⟩ := splitLoop_empty h0 hloop
        have hlength := hmore hlt
        have hle := length_lastPiece_le (Text.points s behind).bytes
        omega
      · rw [Pieces, if_neg hd] at hps
        obtain ⟨cut, r, hcuts, rfl⟩ := hps
        rw [returns_cutWith_points_iff (s := s) mark hd h0 hlen hcuts]
        refine ⟨fun h => ⟨hd, fun cut' r' hcuts' => ?_⟩, fun h => h.2 cut r hcuts⟩
        rw [(hcuts'.unique hcuts).2]
        exact h

/-- **`parts`** returns the pieces of the string when no delimiter begins in the last one. -/
theorem returns_parts_iff (h0 : 0 ∉ t.bytes) (hlen : t.size < 2 ^ 32)
    (hps : Pieces delim t.bytes ps) : Returns (parts t delim) ps ↔ Partable t delim := by
  cases delim with
  | none =>
    subst hps
    cases t with
    | null => exact iff_of_true ⟨0, rfl⟩ trivial
    | points s behind => exact iff_of_true ⟨0, contents_whole hlen behind⟩ trivial
  | some d =>
    cases t with
    | null =>
      by_cases hd : d = []
      · subst hd hps
        exact iff_of_true ⟨1, rfl⟩ rfl
      · refine iff_of_false ?_ hd
        rintro ⟨turns, h⟩
        cases turns with
        | zero => cases h
        | succ turns =>
          rw [parts, partsLoop, Text.memory, cmp_null hd] at h
          cases h
    | points s behind =>
      by_cases hd : d = []
      · refine iff_of_true ⟨1, ?_⟩ (.inl hd)
        rw [Pieces, if_pos hd] at hps
        subst hd hps
        have hend : ¬ s.length + (cText behind).length < s.length := by omega
        rw [parts_points, partsLoop, cmp_empty (s := s) h0]
        dsimp only
        rw [if_neg hend]
        exact contents_whole hlen behind
      · rw [Pieces, if_neg hd] at hps
        obtain ⟨cut, r, hcuts, rfl⟩ := hps
        rw [returns_parts_points_iff (s := s) hd h0 hlen hcuts]
        refine ⟨fun h => .inr fun cut' r' hcuts' => ?_, fun h => (h.resolve_left hd) cut r hcuts⟩
        rw [(hcuts'.unique hcuts).2]
        exact h

/-- Behind a string that owns its memory nothing comes. -/
theorem Text.Owned.splittable_iff (h : t.Owned) :
    Splittable t delim ∧ Partable t delim ↔ delim = none ∨ (delim = some [] ↔ t = .null) := by
  cases delim with
  | none => exact iff_of_true (by cases t <;> exact ⟨trivial, trivial⟩) (.inl rfl)
  | some d =>
    rw [or_iff_right (by simp), Option.some_inj]
    cases t with
    | null => exact ⟨fun hs => iff_of_true hs.1 rfl, fun hs => ⟨hs.mpr rfl, hs.mpr rfl⟩⟩
    | points s behind =>
      obtain rfl : behind = [] := h
      constructor
      · exact fun hs => iff_of_false hs.1.1 (by simp)
      · intro hs
        have hd : d ≠ [] := fun hd => by cases hs.mp hd
        have hrest : ∀ cut r, Cuts d s cut r → ¬ d <:+: r ++ cText [] := by
          intro cut r hcuts
          rw [show cText [] = [] from rfl, List.append_nil]
          exact hcuts.not_infix
        refine ⟨⟨hd, hrest⟩, .inr fun cut r hcuts i hat => ?_⟩
        exact absurd (exists_occursAt_iff.mp ⟨i, hat⟩) (hrest cut r hcuts)

/-- **When the calls return the pieces of the string.** -/
theorem splitting_iff (t : Text) (delim : Option Bytes) (h0 : 0 ∉ t.bytes)
    (hlen : t.size < 2 ^ 32) :
    (t.Owned → (Agree t delim ↔ (delim = none ∨ (delim = some [] ↔ t = .null)))) ∧
      (SplitsRight t delim ↔ Splittable t delim) ∧ (PartsRight t delim ↔ Partable t delim) := by
  obtain ⟨ps, hps⟩ := exists_pieces delim t.bytes
  have hjoins := hps.joins
  refine ⟨fun howned => ?_, ?_, ?_⟩
  · rw [← howned.splittable_iff]
    constructor
    · rintro ⟨ps', hps', -, hsplit, -, hparts⟩
      exact ⟨(returns_cutWith_iff false h0 hlen hps').mp hsplit,
        (returns_parts_iff h0 hlen hps').mp hparts⟩
    · rintro ⟨hsplit, hparts⟩
      exact ⟨ps, hps, hjoins, (returns_cutWith_iff false h0 hlen hps).mpr hsplit,
        (returns_cutWith_iff true h0 hlen hps).mpr hsplit,
        (returns_parts_iff h0 hlen hps).mpr hparts⟩
  · constructor
    · rintro ⟨ps', hps', -, hsplit⟩
      exact (returns_cutWith_iff false h0 hlen hps').mp hsplit
    · exact fun hsplit => ⟨ps, hps, hjoins, (returns_cutWith_iff false h0 hlen hps).mpr hsplit⟩
  · constructor
    · rintro ⟨ps', hps', -, hparts⟩
      exact (returns_parts_iff h0 hlen hps').mp hparts
    · exact fun hparts => ⟨ps, hps, hjoins, (returns_parts_iff h0 hlen hps).mpr hparts⟩

theorem splitting_spaces :
    (0 ∉ (Text.points (ascii "a b") []).bytes ∧ (Text.points (ascii "a b") []).size < 2 ^ 32) ∧
      Agree (.points (ascii "a b") []) (some (ascii " ")) ∧
      SplitsRight (.points (ascii "a b") []) (some (ascii " ")) ∧
      PartsRight (.points (ascii "a b") (ascii "cd e")) (some (ascii " ")) := by
  have howned := splitting_iff (.points (ascii "a b") []) (some (ascii " ")) (by decide) (by decide)
  have hview :=
    splitting_iff (.points (ascii "a b") (ascii "cd e")) (some (ascii " ")) (by decide) (by decide)
  have hcuts : Cuts (ascii " ") (ascii "a b") [ascii "a"] (ascii "b") := by
    refine .cut (a := ascii "a") (s := ascii "b") ⟨by decide, fun j hj => ?_⟩ (.rest (by decide))
    cases j with
    | zero => exact absurd hj (by decide)
    | succ j => exact Nat.succ_pos j
  refine ⟨by decide, (howned.1 rfl).mpr (.inr (by simp [ascii])), howned.2.1.mpr ?_,
    hview.2.2.mpr ?_⟩
  · refine ⟨by decide, fun cut r hcuts' => ?_⟩
    rw [(hcuts'.unique hcuts).2]
    decide
  · refine .inr fun cut r hcuts' i hat => ?_
    rw [(hcuts'.unique hcuts).2] at hat ⊢
    cases i with
    | zero => exact absurd hat (by decide)
    | succ i => exact Nat.succ_pos i

/-- With an empty delimiter `split` does not end.  The view `a` of `ab,c` is cut in the text
behind it, and of the view `a,` of `a,,b` a comma is lost. -/
theorem not_splitting :
    ¬ Agree (.points (ascii "a") []) (some []) ∧
      (∀ turns, split (.points (ascii "a") []) (some []) turns = .error .spent) ∧
      ¬ SplitsRight (.points (ascii "a") (ascii "b,c")) (some (ascii ",")) ∧
      ¬ PartsRight (.points (ascii "a,") (ascii ",b")) (some (ascii ",,")) ∧
      parts (.points (ascii "a,") (ascii ",b")) (some (ascii ",,")) 2 = .ok [ascii "a"] := by
  have hspent : ∀ turns, split (.points (ascii "a") []) (some []) turns = .error .spent := by
    intro turns
    cases turns with
    | zero => rfl
    | succ turns =>
      have hagain : cmp [] (some (ascii "a" ++ [])) 1 = .ok (some 1) := rfl
      have hloop : splitLoop false [] (ascii "a").length (turns + 1) (some (ascii "a" ++ [])) 0 0 =
          .error .spent := @splitLoop_spent [] false 1 _ hagain turns 0
      rw [split, cutWith_points, hloop]
  refine ⟨?_, hspent, ?_, ?_, by decide⟩
  · rintro ⟨ps, -, -, ⟨turns, hsplit⟩, -⟩
    cases (hspent turns).symm.trans hsplit
  · rintro ⟨ps, hps, -, hsplit⟩
    have hnot := ((returns_cutWith_iff false (by decide) (by decide) hps).mp hsplit).2
    exact hnot [] (ascii "a") (.rest (by decide)) (by decide)
  · rintro ⟨ps, hps, -, hparts⟩
    have hnot := (returns_parts_iff (by decide) (by decide) hps).mp hparts
    have hle := hnot.resolve_left (by decide) [] (ascii "a,") (.rest (by decide)) 1 (by decide)
    exact absurd hle (by decide)

end Suil.Splitting
