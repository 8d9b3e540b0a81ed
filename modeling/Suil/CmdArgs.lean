/-
The arguments of a command.

A registry has global flags and the flags of the selected command.  An argument
is looked for among the global ones first, by `strncmp` with the length of the
name that was given; behind an `=` that length is one too small, and no flag is
asked for its own length.

* `findSlot_iff` — which flag a search finds;
* `comparedWith_iff` — what `strncmp` compares, as a first piece of the name;
* `meets_iff` — for which arguments and flags the search is by name.
-/
import Suil.Json

namespace Suil

namespace Cmd

inductive CmdFlagValue where
  | bool (b : Bool)
  | double (bits : UInt64)
  | text (s : Bytes)
deriving DecidableEq

/-- A validator is told the text and the name of the flag.  It fails with the text of the error, or
writes the value, or leaves it. -/
abbrev Validator := Bytes → Bytes → Except Bytes (Option CmdFlagValue)

/-- `sf` is zero for no short format, and `fallback` the default of the source. -/
structure CmdFlag where
  name : CString
  sf : UInt8 := 0
  fallback : Option CString := none
  prompt : Bool := false
  validator : Option Validator := none

structure CmdPositional where
  name : CString
  fallback : Option CString := none
  validator : Option Validator := none

structure Command where
  name : CString
  id : ℤ
  args : List CmdFlag
  pos : List CmdPositional

/-- `P->def` is the number of a command. -/
structure CmdParser where
  args : List CmdFlag
  cmds : List Command
  default : Option ℕ

/-- The texts that are put into `P->error`. -/
inductive CmdError where
  | missingCommand
  | unexpectedPositional (npos : ℕ)
  | unrecognized (arg : Bytes)
  | expectsValue (flag : Bytes)
  | promptFlag (flag : Bytes)
  | unexpectedValue (flag : Bytes)
  | missingFlag (flag cmd : Bytes)
  | missingPositional (i : ℕ) (name cmd : Bytes)
  | invalid (text : Bytes)
deriving DecidableEq

/-- The global flags and those of the command, in the order in which they are searched. -/
def slots (P : CmdParser) (cmd : Command) : List CmdFlag := P.args ++ cmd.args

/-- The values of the flags, by their place in `slots`, and of the positional arguments. -/
structure Vals where
  flags : ℕ → Option CmdFlagValue := fun _ => none
  pos : ℕ → Option CmdFlagValue := fun _ => none

def cmdIsLongFlag (s : Bytes) : Bool := s.getD 0 0 == 45 && s.getD 1 0 == 45 && s.getD 2 0 != 0

def cmdIsShortFlag (s : Bytes) : Bool := s.getD 0 0 == 45 && s.getD 1 0 != 45 && s.getD 1 0 != 0

def cmdIsIgnoreArguments (s : Bytes) : Bool :=
  s.getD 0 0 == 45 && s.getD 1 0 == 45 && s.getD 2 0 == 0

def cmdFindByName (args : List CmdFlag) (name : Bytes) (len : ℕ) : Option ℕ :=
  args.findIdx? fun f => strncmpEq len f.name.bytes name

def cmdFindByShortFormat (args : List CmdFlag) (sf : UInt8) : Option ℕ :=
  args.findIdx? fun f => f.sf != 0 && f.sf == sf

/-- A search among the global flags, and then among those of the command. -/
def findFlag (P : CmdParser) (cmd : Command) (find : List CmdFlag → Option ℕ) : Option ℕ :=
  (find P.args).or ((find cmd.args).map (· + P.args.length))

/-- The length that a long argument is compared with, in 32 bits, and its value.  The loop that
skips the blanks before `=` steps back before it looks. -/
def splitName (arg : Bytes) : ℕ × Option Bytes :=
  match arg.idxOf? 61 with
  | none => (arg.length % 2 ^ 32, none)
  | some eq =>
    let name := (arg.take eq).rdropWhile isSpace
    ((name.length + 2 ^ 32 - 1) % 2 ^ 32, some ((arg.drop (eq + 1)).dropWhile isSpace))

/-- The flag that an argument stands for, and the value behind its name. -/
def resolve (P : CmdParser) (cmd : Command) (arg : Bytes) : Option ℕ × Option Bytes :=
  if cmdIsShortFlag arg then
    (findFlag P cmd fun args => cmdFindByShortFormat args (arg.getD 1 0),
      if arg.drop 2 = [] then none else some (arg.drop 2))
  else
    let (len, val) := splitName (arg.drop 2)
    (findFlag P cmd fun args => cmdFindByName args (arg.drop 2) len, val)

/-- The part of the loop for a flag: the values, and what is left of the arguments. -/
def takeFlag (P : CmdParser) (cmd : Command) (vals : Vals) (arg : Bytes) (rest : List CString) :
    Except CmdError (Vals × List CString) :=
  match resolve P cmd arg with
  | (none, _) => .error (.unrecognized arg)
  | (some k, val) =>
    match (slots P cmd)[k]? with
    | none => .error (.unrecognized arg)
    | some f =>
      match f.validator with
      | some validator =>
        match val.or (rest.head?.map CString.bytes) with
        | none => .error (.expectsValue f.name.bytes)
        | some s =>
          match validator s f.name.bytes with
          | .error text => .error (.invalid text)
          | .ok v => .ok ({ vals with flags := Function.update vals.flags k (v.or (vals.flags k)) },
            if val.isSome then rest else rest.tail)
      | none =>
        if val.isSome then
          .error (if f.prompt then .promptFlag f.name.bytes else .unexpectedValue f.name.bytes)
        else .ok ({ vals with flags := Function.update vals.flags k (some (.bool true)) }, rest)

/-- `getFlag` by name. -/
def getFlag (P : CmdParser) (cmd : Command) (vals : Vals) (name : Bytes) : Option CmdFlagValue :=
  (findFlag P cmd fun args => cmdFindByName args name (name.length % 2 ^ 32)).bind vals.flags

/-! ### Search by name -/

/-- The name that is given behind `--`: up to `=`, without the blanks before it. -/
def given (text : Bytes) : Bytes :=
  if 61 ∈ text then (text.takeWhile (· ≠ 61)).rdropWhile isSpace else text

/-- The value that is given: behind `=` without leading blanks, or behind the short format. -/
def valueText (arg : Bytes) : Option Bytes :=
  if cmdIsShortFlag arg then if arg.drop 2 = [] then none else some (arg.drop 2)
  else if 61 ∈ arg.drop 2 then
    some (((arg.drop 2).dropWhile (· ≠ 61)).tail.dropWhile isSpace)
  else none

/-- The flag has the name that is given. -/
def Names (arg : Bytes) (f : CmdFlag) : Prop :=
  if cmdIsShortFlag arg then f.sf = arg.getD 1 0 else f.name.bytes = given (arg.drop 2)

/-- No two flags have one name or one short format, as the parser sees to. -/
def Distinct (P : CmdParser) (cmd : Command) : Prop :=
  (slots P cmd).Pairwise fun f g => f.name ≠ g.name ∧ (f.sf ≠ 0 → f.sf ≠ g.sf)

/-- What a named flag does with the value that is given, or with the next argument. -/
def useFlag (vals : Vals) (k : ℕ) (f : CmdFlag) (val : Option Bytes) (rest : List CString) :
    Except CmdError (Vals × List CString) :=
  match f.validator with
  | some validator =>
    match val.or (rest.head?.map CString.bytes) with
    | none => .error (.expectsValue f.name.bytes)
    | some s =>
      match validator s f.name.bytes with
      | .error text => .error (.invalid text)
      | .ok v => .ok ({ vals with flags := Function.update vals.flags k (v.or (vals.flags k)) },
        if val.isSome then rest else rest.tail)
  | none =>
    if val.isSome then
      .error (if f.prompt then .promptFlag f.name.bytes else .unexpectedValue f.name.bytes)
    else .ok ({ vals with flags := Function.update vals.flags k (some (.bool true)) }, rest)

/-- An argument stands for the flag that it names, which gets its value, or fails when there is
none; and a flag is looked up by its name. -/
structure Meets (P : CmdParser) (cmd : Command) (arg : Bytes) (k : ℕ) (f : CmdFlag) : Prop where
  resolves : ∀ j, (resolve P cmd arg).1 = some j ↔ ∃ g, (slots P cmd)[j]? = some g ∧ Names arg g
  passes : ∀ vals rest j g, (slots P cmd)[j]? = some g → Names arg g →
    takeFlag P cmd vals arg rest = useFlag vals j g (valueText arg) rest
  fails : (∀ g ∈ slots P cmd, ¬ Names arg g) → ∀ vals rest,
    takeFlag P cmd vals arg rest = .error (.unrecognized arg)
  looksUp : ∀ vals, getFlag P cmd vals f.name.bytes = vals.flags k

/-- What `strncmp` finds equal to a long argument. -/
def ComparedWith (text : Bytes) (f : CmdFlag) : Prop :=
  strncmpEq (splitName text).1 f.name.bytes text = true

/-- A flag that a long argument is compared with is the named one, or behind it; the named one is
compared with it; and no flag before `f` has a name that starts with that of `f`. -/
structure Unambiguous (P : CmdParser) (cmd : Command) (arg : Bytes) (k : ℕ) (f : CmdFlag) :
    Prop where
  first : cmdIsShortFlag arg = false → ∀ (j : ℕ) (g : CmdFlag), (slots P cmd)[j]? = some g →
    ComparedWith (arg.drop 2) g → ∃ i ≤ j, ∃ e, (slots P cmd)[i]? = some e ∧ Names arg e
  reached : cmdIsShortFlag arg = false → ∀ g ∈ slots P cmd, Names arg g →
    ComparedWith (arg.drop 2) g
  firstOf : ∀ (j : ℕ) (g : CmdFlag), (slots P cmd)[j]? = some g →
    strncmpEq (f.name.bytes.length % 2 ^ 32) g.name.bytes f.name.bytes = true → k ≤ j

variable {α : Type} {P : CmdParser} {cmd : Command} {arg text : Bytes} {k : ℕ} {f g : CmdFlag}

/-- The first element with `p` is the only one with `q`. -/
theorem findIdx?_iff {l : List α} {p : α → Bool} {q : α → Prop}
    (huniq : ∀ (i j : ℕ) (x y : α), l[i]? = some x → l[j]? = some y → q x → q y → i = j) :
    (∀ j, l.findIdx? p = some j ↔ ∃ x, l[j]? = some x ∧ q x) ↔
      (∀ (j : ℕ) (x : α), l[j]? = some x → p x = true → ∃ i ≤ j, ∃ y, l[i]? = some y ∧ q y) ∧
        ∀ x ∈ l, q x → p x = true := by
  have hfirst : ∀ (j : ℕ) (x : α), l[j]? = some x → p x = true →
      ∃ i ≤ j, l.findIdx? p = some i := by
    intro j x hx hp
    obtain ⟨i, hi⟩ := Option.isSome_iff_exists.mp
      (List.findIdx?_isSome.trans (List.any_eq_true.mpr ⟨x, List.mem_of_getElem? hx, hp⟩))
    refine ⟨i, ?_, hi⟩
    by_contra hlt
    obtain ⟨hlen, -, hnone⟩ := List.findIdx?_eq_some_iff_getElem.mp hi
    obtain ⟨hj, rfl⟩ := List.getElem?_eq_some_iff.mp hx
    exact hnone j (not_le.mp hlt) hp
  constructor
  · intro hall
    refine ⟨fun j x hx hp => ?_, fun x hx hq => ?_⟩
    · obtain ⟨i, hij, hi⟩ := hfirst j x hx hp
      exact ⟨i, hij, (hall i).mp hi⟩
    · obtain ⟨j, hj⟩ := List.getElem?_of_mem hx
      obtain ⟨hlen, hp, -⟩ := List.findIdx?_eq_some_iff_getElem.mp ((hall j).mpr ⟨x, hj, hq⟩)
      obtain ⟨_, heq⟩ := List.getElem?_eq_some_iff.mp hj
      rwa [heq] at hp
  · rintro ⟨hback, hreach⟩ j
    constructor
    · intro hj
      obtain ⟨hlen, hp, hnone⟩ := List.findIdx?_eq_some_iff_getElem.mp hj
      obtain ⟨i, hij, y, hy, hq⟩ := hback j _ (List.getElem?_eq_getElem hlen) hp
      have hpy := hreach y (List.mem_of_getElem? hy) hq
      obtain ⟨hi, rfl⟩ := List.getElem?_eq_some_iff.mp hy
      rcases hij.eq_or_lt with rfl | hlt
      · exact ⟨_, hy, hq⟩
      · exact absurd hpy (hnone i hlt)
    · rintro ⟨x, hx, hq⟩
      obtain ⟨i, hij, hi⟩ := hfirst j x hx (hreach x (List.mem_of_getElem? hx) hq)
      obtain ⟨hlen, hp, -⟩ := List.findIdx?_eq_some_iff_getElem.mp hi
      obtain ⟨i', hi', y, hy, hqy⟩ := hback i _ (List.getElem?_eq_getElem hlen) hp
      obtain rfl := huniq i' j y x hy hx hqy hq
      rwa [le_antisymm hij hi'] at hi

theorem findFlag_eq (p : CmdFlag → Bool) :
    findFlag P cmd (fun args => args.findIdx? p) = (slots P cmd).findIdx? p := by
  rw [slots, List.findIdx?_append]
  rfl

theorem eq_of_bytes {s t : CString} (h : s.bytes = t.bytes) : s = t := by
  obtain ⟨bytes, _⟩ := s
  obtain ⟨_, _⟩ := t
  obtain rfl : bytes = _ := h
  rfl

theorem Distinct.name_inj (h : Distinct P cmd) {i j : ℕ} (hf : (slots P cmd)[i]? = some f)
    (hg : (slots P cmd)[j]? = some g) (hname : f.name.bytes = g.name.bytes) : i = j := by
  obtain ⟨hi, rfl⟩ := List.getElem?_eq_some_iff.mp hf
  obtain ⟨hj, rfl⟩ := List.getElem?_eq_some_iff.mp hg
  have hname' : (slots P cmd)[i].name = (slots P cmd)[j].name := eq_of_bytes hname
  rcases lt_trichotomy i j with hlt | rfl | hlt
  · exact absurd hname' (List.pairwise_iff_getElem.mp h i j hi hj hlt).1
  · rfl
  · exact absurd hname'.symm (List.pairwise_iff_getElem.mp h j i hj hi hlt).1

theorem Distinct.sf_inj (h : Distinct P cmd) {i j : ℕ} (hf : (slots P cmd)[i]? = some f)
    (hg : (slots P cmd)[j]? = some g) (hne : f.sf ≠ 0) (hsf : f.sf = g.sf) : i = j := by
  obtain ⟨hi, rfl⟩ := List.getElem?_eq_some_iff.mp hf
  obtain ⟨hj, rfl⟩ := List.getElem?_eq_some_iff.mp hg
  rcases lt_trichotomy i j with hlt | rfl | hlt
  · exact absurd hsf ((List.pairwise_iff_getElem.mp h i j hi hj hlt).2 hne)
  · rfl
  · exact absurd hsf.symm ((List.pairwise_iff_getElem.mp h j i hj hi hlt).2 (hsf ▸ hne))

theorem ne_zero_of_short (h : cmdIsShortFlag arg = true) : arg.getD 1 0 ≠ 0 := by
  simp only [cmdIsShortFlag, Bool.and_eq_true, bne_iff_ne, ne_eq] at h
  exact h.2

theorem Distinct.names_inj (h : Distinct P cmd) {i j : ℕ} (hf : (slots P cmd)[i]? = some f)
    (hg : (slots P cmd)[j]? = some g) (hnf : Names arg f) (hng : Names arg g) : i = j := by
  rw [Names] at hnf hng
  split_ifs at hnf hng with hshort
  · refine h.sf_inj hf hg ?_ (hnf.trans hng.symm)
    rw [hnf]
    exact ne_zero_of_short hshort
  · exact h.name_inj hf hg (hnf.trans hng.symm)

/-- The length and the value of a long argument, by its name. -/
theorem splitName_eq (text : Bytes) : splitName text =
    if 61 ∈ text then (((given text).length + 2 ^ 32 - 1) % 2 ^ 32,
      some ((text.dropWhile (· ≠ 61)).tail.dropWhile isSpace))
    else (text.length % 2 ^ 32, none) := by
  rw [given]
  split_ifs with hmem
  · set before := text.takeWhile (· ≠ 61) with hbefore
    set behind := (text.dropWhile (· ≠ 61)).tail with hbehind
    have hnot : (61 : UInt8) ∉ before := not_mem_takeWhile 61 text
    have htext : text = before ++ 61 :: behind := eq_takeWhile_append hmem
    have hdrop : (before ++ 61 :: behind).drop (before.length + 1) = behind := by
      rw [← List.drop_drop, List.drop_left]
      rfl
    rw [splitName, htext, idxOf?_separator hnot]
    simp only [hdrop, List.take_left]
  · rw [splitName, List.idxOf?_eq_none_iff.mpr hmem]

theorem resolve_snd (P : CmdParser) (cmd : Command) (arg : Bytes) :
    (resolve P cmd arg).2 = valueText arg := by
  rw [resolve, valueText]
  split_ifs with hshort hnil hmem
  · rfl
  · rfl
  · show (splitName (arg.drop 2)).2 = _
    rw [splitName_eq, if_pos hmem]
  · show (splitName (arg.drop 2)).2 = _
    rw [splitName_eq, if_neg hmem]

/-- Up to a length within it a string without a zero byte is compared as a first piece. -/
theorem strncmpEq_take_iff {n : ℕ} {s p : Bytes} (h0 : (0 : UInt8) ∉ p) (hn : n ≤ p.length) :
    strncmpEq n s p = true ↔ p.take n <+: s := by
  induction n generalizing s p with
  | zero => simp [strncmpEq]
  | succ n ih =>
    cases p with
    | nil => exact absurd hn (Nat.not_succ_le_zero n)
    | cons c p =>
      have hc : c ≠ 0 := fun hzero => h0 (hzero ▸ List.mem_cons_self)
      have h0' : (0 : UInt8) ∉ p := fun hin => h0 (List.mem_cons_of_mem c hin)
      rw [List.take_succ_cons]
      cases s with
      | nil => simp [strncmpEq, hc.symm]
      | cons b s =>
        rw [List.cons_prefix_cons, ← ih h0' (Nat.le_of_succ_le_succ hn)]
        simp only [strncmpEq, List.headD_cons, List.tail_cons, Bool.and_eq_true, Bool.or_eq_true,
          beq_iff_eq]
        constructor
        · rintro ⟨rfl, hzero | hrest⟩
          · exact absurd hzero hc
          · exact ⟨rfl, hrest⟩
        · rintro ⟨rfl, hrest⟩
          exact ⟨rfl, .inr hrest⟩

/-- A long argument is compared as a first piece: all of it, or all but the last character of its
name when a value follows. -/
theorem comparedWith_iff (h0 : (0 : UInt8) ∉ text) (hgiven : given text ≠ []) :
    ComparedWith text g ↔ text.take (splitName text).1 <+: g.name.bytes := by
  refine strncmpEq_take_iff h0 ?_
  rw [splitName_eq]
  rw [given] at hgiven ⊢
  split_ifs at hgiven ⊢ with hmem
  · have hlen : ((text.takeWhile (· ≠ 61)).rdropWhile isSpace).length ≤ text.length :=
      (List.rdropWhile_prefix _ _).length_le.trans (List.takeWhile_prefix _).length_le
    have hpos := List.length_pos_iff.mpr hgiven
    show (_ + 2 ^ 32 - 1) % 2 ^ 32 ≤ _
    omega
  · exact Nat.mod_le _ _

theorem resolves_iff (h : Distinct P cmd) :
    (∀ j, (resolve P cmd arg).1 = some j ↔ ∃ g, (slots P cmd)[j]? = some g ∧ Names arg g) ↔
      (cmdIsShortFlag arg = false → ∀ (j : ℕ) (g : CmdFlag), (slots P cmd)[j]? = some g →
        ComparedWith (arg.drop 2) g → ∃ i ≤ j, ∃ e, (slots P cmd)[i]? = some e ∧ Names arg e) ∧
      (cmdIsShortFlag arg = false → ∀ g ∈ slots P cmd, Names arg g →
        ComparedWith (arg.drop 2) g) := by
  have huniq : ∀ (i j : ℕ) (x y : CmdFlag), (slots P cmd)[i]? = some x →
      (slots P cmd)[j]? = some y → Names arg x → Names arg y → i = j :=
    fun i j x y hx hy => h.names_inj hx hy
  cases hshort : cmdIsShortFlag arg with
  | true =>
    have hsf : ∀ g : CmdFlag, Names arg g ↔ (g.sf != 0 && g.sf == arg.getD 1 0) = true := by
      intro g
      rw [Names, if_pos hshort, Bool.and_eq_true, beq_iff_eq, bne_iff_ne]
      exact ⟨fun heq => ⟨heq ▸ ne_zero_of_short hshort, heq⟩, And.right⟩
    have hresolve : (resolve P cmd arg).1 =
        (slots P cmd).findIdx? fun g => g.sf != 0 && g.sf == arg.getD 1 0 := by
      rw [resolve, if_pos hshort]
      exact findFlag_eq _
    rw [hresolve, findIdx?_iff huniq]
    refine iff_of_true ⟨fun j g hg hp => ⟨j, le_rfl, g, hg, (hsf g).mpr hp⟩, ?_⟩ ⟨nofun, nofun⟩
    exact fun g _ hg => (hsf g).mp hg
  | false =>
    have hresolve : (resolve P cmd arg).1 = (slots P cmd).findIdx? fun g =>
        strncmpEq (splitName (arg.drop 2)).1 g.name.bytes (arg.drop 2) := by
      rw [resolve, if_neg (by rw [hshort]; exact Bool.false_ne_true)]
      exact findFlag_eq _
    rw [hresolve, findIdx?_iff huniq]
    exact ⟨fun hall => ⟨fun _ => hall.1, fun _ => hall.2⟩, fun hall => ⟨hall.1 rfl, hall.2 rfl⟩⟩

/-- A flag is looked up by its name when no flag before it has a name that starts with it. -/
theorem looksUp_iff (hf : (slots P cmd)[k]? = some f) :
    (∀ vals, getFlag P cmd vals f.name.bytes = vals.flags k) ↔
      ∀ (j : ℕ) (g : CmdFlag), (slots P cmd)[j]? = some g →
        strncmpEq (f.name.bytes.length % 2 ^ 32) g.name.bytes f.name.bytes = true → k ≤ j := by
  obtain ⟨hk, hfk⟩ := List.getElem?_eq_some_iff.mp hf
  set p : CmdFlag → Bool := fun g =>
    strncmpEq (f.name.bytes.length % 2 ^ 32) g.name.bytes f.name.bytes with hp
  have hget : ∀ vals, getFlag P cmd vals f.name.bytes =
      ((slots P cmd).findIdx? p).bind vals.flags := by
    intro vals
    rw [← findFlag_eq p]
    rfl
  have hself : p f = true := strncmpEq_self _ _
  constructor
  · intro hall j g hg hcompared
    -- values that tell the flags apart
    have hvals := hall { flags := fun i => if i = k then some (.bool true) else none }
    rw [hget] at hvals
    obtain ⟨hj, rfl⟩ := List.getElem?_eq_some_iff.mp hg
    cases hfind : (slots P cmd).findIdx? p with
    | none =>
      rw [hfind] at hvals
      simp at hvals
    | some i =>
      rw [hfind] at hvals
      have hik : i = k := by
        by_contra hne
        simp [hne] at hvals
      obtain ⟨hi, -, hnone⟩ := List.findIdx?_eq_some_iff_getElem.mp hfind
      by_contra hlt
      exact hnone j (hik ▸ not_le.mp hlt) hcompared
  · intro hall vals
    have hfind : (slots P cmd).findIdx? p = some k := by
      refine List.findIdx?_eq_some_iff_getElem.mpr ⟨hk, hfk.symm ▸ hself, fun j hj hcompared => ?_⟩
      exact absurd (hall j _ (List.getElem?_eq_getElem (hj.trans hk)) hcompared) (not_le.mpr hj)
    rw [hget, hfind]
    rfl

/-- A flag that an argument stands for gets the value that is given. -/
theorem takeFlag_of_resolve {vals : Vals} {rest : List CString} {j : ℕ}
    (hresolve : (resolve P cmd arg).1 = some j) (hg : (slots P cmd)[j]? = some g) :
    takeFlag P cmd vals arg rest = useFlag vals j g (valueText arg) rest := by
  have hboth : resolve P cmd arg = (some j, valueText arg) :=
    Prod.ext hresolve (resolve_snd P cmd arg)
  rw [takeFlag, hboth]
  show (match (slots P cmd)[j]? with | none => _ | some f => _) = _
  rw [hg]
  rfl

/-- **For which arguments and flags the search is by name.** -/
theorem meets_iff (P : CmdParser) (cmd : Command) (arg : Bytes) (k : ℕ) (f : CmdFlag)
    (h : Distinct P cmd) (hf : (slots P cmd)[k]? = some f) :
    Meets P cmd arg k f ↔ Unambiguous P cmd arg k f := by
  constructor
  · intro hmeets
    obtain ⟨hfirst, hreached⟩ := (resolves_iff h).mp hmeets.resolves
    exact ⟨hfirst, hreached, (looksUp_iff hf).mp hmeets.looksUp⟩
  · intro hclear
    have hresolves := (resolves_iff h).mpr ⟨hclear.first, hclear.reached⟩
    refine ⟨hresolves, fun vals rest j g hg hnames => ?_, fun hnone vals rest => ?_,
      (looksUp_iff hf).mpr hclear.firstOf⟩
    · exact takeFlag_of_resolve ((hresolves j).mpr ⟨g, hg, hnames⟩) hg
    · cases hresolve : (resolve P cmd arg).1 with
      | none =>
        have hboth : resolve P cmd arg = (none, (resolve P cmd arg).2) := Prod.ext hresolve rfl
        rw [takeFlag, hboth]
      | some j =>
        obtain ⟨g, hg, hnames⟩ := (hresolves j).mp hresolve
        exact absurd hnames (hnone g (List.mem_of_getElem? hg))

/-- The flags that every parser has, and a command with a flag `portal` before a flag `port`. -/
def sampleParser : CmdParser where
  args := [{ name := ⟨ascii "version", by decide +kernel⟩, sf := 118 },
    { name := ⟨ascii "help", by decide +kernel⟩, sf := 104 }]
  cmds := []
  default := none

def samplePort : CmdFlag where
  name := ⟨ascii "port", by decide +kernel⟩
  sf := 112
  validator := some fun s _ => .ok (some (.text s))

def sampleCommand : Command where
  name := ⟨ascii "serve", by decide +kernel⟩
  id := 1
  args := [{ name := ⟨ascii "portal", by decide +kernel⟩ }, samplePort]
  pos := []

/-- The argument `-p` meets a command that has no other flag. -/
theorem meets_short : Meets sampleParser { sampleCommand with args := [samplePort] } (ascii "-p") 2
    samplePort := by
  refine (meets_iff _ _ _ 2 samplePort (by unfold Distinct; decide +kernel) rfl).mpr
    ⟨fun hlong => absurd hlong (by decide +kernel),
      fun hlong => absurd hlong (by decide +kernel), ?_⟩
  intro j g hg hcompared
  rcases j with _ | _ | j
  · obtain rfl := Option.some.inj hg
    exact absurd hcompared (by decide +kernel)
  · obtain rfl := Option.some.inj hg
    exact absurd hcompared (by decide +kernel)
  · exact Nat.le_add_left 2 j

/-- `--ver` is taken for `--version`, `--port=80` for `--portal`, and so is `port` when it is looked
up; `--x=1` is taken for the first flag of all. -/
theorem not_meets :
    (resolve sampleParser sampleCommand (ascii "--ver")).1 = some 0 ∧
      resolve sampleParser sampleCommand (ascii "--port=80") = (some 2, some (ascii "80")) ∧
      (resolve sampleParser sampleCommand (ascii "--x=1")).1 = some 0 ∧
      ¬ ∀ (P : CmdParser) (cmd : Command) (arg : Bytes) (k : ℕ) (f : CmdFlag), Distinct P cmd →
        (slots P cmd)[k]? = some f → Meets P cmd arg k f := by
  refine ⟨by decide +kernel, by decide +kernel, by decide +kernel, fun hall => ?_⟩
  have hmeets := hall sampleParser sampleCommand (ascii "--port=80") 3 samplePort
    (by unfold Distinct; decide +kernel) rfl
  have hport : (resolve sampleParser sampleCommand (ascii "--port=80")).1 = some 3 :=
    (hmeets.resolves 3).mpr ⟨samplePort, rfl, by unfold Names; decide +kernel⟩
  revert hport
  decide +kernel

end Cmd
end Suil
