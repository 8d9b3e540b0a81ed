/-
The validator of lists of bit flags.

`cmdParseBitFlags` walks over the names between the separators.  When a name of one character
stands before a separator, the loop goes on without having moved, and does not end.  The blanks
behind a name are cut off, but not those behind the last one.

* `turn_name`, `turn_last` — what one turn does with a name;
* `run_joined`, `run_stuck` — a whole run, when it ends and when it does not;
* `bitFlags_right_iff` — for which lists the flags that are named are set.
-/
import Suil.CmdArgs
import Suil.StringKeys

namespace Suil

namespace Cmd

/-- What a validator comes to: the value is set, or the text of the error is in `P->error`, which
`overrun` does not fit. -/
inductive Parsed (α : Type) where
  | set (value : α)
  | failed (error : Bytes)
  | overrun (error : Bytes)
deriving DecidableEq

/-- `P->error` has 128 characters, with the one that ends the text. -/
def refuse {α : Type} (error : Bytes) : Parsed α :=
  if error.length < 128 then .failed error else .overrun error

end Cmd

namespace BitFlags

open Cmd (Parsed refuse strncmpEq_take_iff)

structure CmdEnumDesc where
  name : CString
  value : UInt32

/-! ### The validator -/

/-- The separators and blanks before a name. -/
def skip (str : Bytes) : Bytes := str.dropWhile fun c => c == 124 || isSpace c

/-- `while (e != str && isspace(*e)) e--` -/
def back (str : Bytes) : ℕ → ℕ
  | 0 => 0
  | e + 1 => if isSpace (str.getD (e + 1) 0) then back str e else e + 1

/-- The loop over the table, with sizes of 32 bits. -/
def lookUp (bitFlags : List CmdEnumDesc) (str : Bytes) (size : ℕ) : Option CmdEnumDesc :=
  bitFlags.find? fun f =>
    size == f.name.bytes.length % 2 ^ 32 && strncasecmpEq size str f.name.bytes

/-- A turn of the loop over the names. -/
inductive Turn where
  | again (value : UInt32) (str : Bytes)
  | ended (value : UInt32)
  | unknown (str : Bytes) (size : ℕ)

def turn (bitFlags : List CmdEnumDesc) (value : UInt32) (str : Bytes) : Turn :=
  let str := skip str
  match str.idxOf? 124 with
  | some next =>
    let e := back str (next - 1)
    if e = 0 then .again value str  -- `if (e == str) continue`
    else
      match lookUp bitFlags str ((e + 1) % 2 ^ 32) with
      | some f => .again (value ||| f.value) (str.drop next)
      | none => .unknown str ((e + 1) % 2 ^ 32)
  | none =>
    match lookUp bitFlags str (str.length % 2 ^ 32) with
    | some f => .ended (value ||| f.value)
    | none => .unknown str (str.length % 2 ^ 32)

/-- The text of the error; a precision that is negative as an `int` is none. -/
def unsupported (str : Bytes) (size : ℕ) (name : Bytes) : Bytes :=
  ascii "'" ++ (if size < 2 ^ 31 then str.take size else str) ++
    ascii "' is not a supported bit flag for flag '" ++ name ++ ascii "'\n"

/-- The loop for some turns, and `none` when it has not ended. -/
def run (bitFlags : List CmdEnumDesc) (name : Bytes) :
    ℕ → UInt32 → Bytes → Option (Parsed UInt32)
  | 0, _, _ => none
  | turns + 1, value, str =>
    match turn bitFlags value str with
    | .again value str => run bitFlags name turns value str
    | .ended value => some (.set value)
    | .unknown str size => some (refuse (unsupported str size name))

def cmdParseBitFlags (bitFlags : List CmdEnumDesc) (str name : Bytes) (turns : ℕ) :
    Option (Parsed UInt32) :=
  run bitFlags name turns 0 str

/-! ### What it should do -/

/-- A name in a list. -/
abbrev Name := { n : Bytes // 124 ∉ n ∧ 0 ∉ n }

/-- A list of names, the last of which has no separator behind it. -/
def joined : List Name → Name → Bytes
  | [], last => last.val
  | n :: names, last => n.val ++ 124 :: joined names last

def ltrim (n : Bytes) : Bytes := n.dropWhile isSpace

def trim (n : Bytes) : Bytes := (ltrim n).rdropWhile isSpace

/-- The names before a separator, without the blanks around them; where nothing is left, nothing is
named. -/
def named (names : List Name) : List Bytes := (names.map fun n => trim n.val).filter (· ≠ [])

/-- The flag of a name, in either case. -/
def flagOf (bitFlags : List CmdEnumDesc) (n : Bytes) : Option UInt32 :=
  (bitFlags.find? fun f => f.name.bytes.map lower == n.map lower).map (·.value)

/-- All flags together, when there is one for each name. -/
def union (find : Bytes → Option UInt32) : UInt32 → List Bytes → Option UInt32
  | v, [] => some v
  | v, n :: names => (find n).bind fun f => union find (v ||| f) names

/-- The loop ends, with the flags that are named, or with an error when a name is not in the
table. -/
def Right (bitFlags : List CmdEnumDesc) (name : Bytes) (names : List Name) (last : Name) : Prop :=
  ∃ turns r, cmdParseBitFlags bitFlags (joined names last) name turns = some r ∧
    match union (flagOf bitFlags) 0 (named names ++ [trim last.val]) with
    | some v => r = .set v
    | none => ∃ error, r = .failed error

/-! ### When it does -/

/-- The entry that has the size and the characters of a name, with sizes of 32 bits. -/
def found (bitFlags : List CmdEnumDesc) (n : Bytes) : Option UInt32 :=
  (lookUp bitFlags n (n.length % 2 ^ 32)).map (·.value)

/-- Up to the first one that is not in the table, names have not just one character. -/
def Advances (find : Bytes → Option UInt32) : List Bytes → Prop
  | [] => True
  | n :: names => n.length ≠ 1 ∧ ((find n).isSome → Advances find names)

/-- The text about the first name that is not in the table is short enough. -/
def Fits (find : Bytes → Option UInt32) (name : Bytes) : List Bytes → Prop
  | [] => True
  | n :: names =>
    match find n with
    | some _ => Fits find name names
    | none => n.length % 2 ^ 32 + name.length + 43 < 128

/-- The blanks behind the last name, and sizes of 32 bits, make no difference. -/
def Agrees (bitFlags : List CmdEnumDesc) (names : List Name) (last : Name) : Prop :=
  union (found bitFlags) 0 (named names ++ [ltrim last.val]) =
    union (flagOf bitFlags) 0 (named names ++ [trim last.val])

/-- Names that 32 bits can count, with no blanks behind the last one. -/
structure Ordinary (bitFlags : List CmdEnumDesc) (names : List Name) (last : Name) : Prop where
  table : ∀ f ∈ bitFlags, f.name.bytes.length < 2 ^ 32
  before : ∀ n ∈ named names, n.length < 2 ^ 32
  behind : (trim last.val).length < 2 ^ 32
  blanks : ltrim last.val = trim last.val

variable {bitFlags : List CmdEnumDesc} {find : Bytes → Option UInt32} {v w : UInt32}
  {str l m n s t rest name : Bytes} {ns : List Bytes} {names : List Name} {last : Name}
  {r r' : Parsed UInt32} {e turns turns' : ℕ}

/-! ### One turn -/

/-- Where the blanks behind a name end; the first character is never passed. -/
theorem back_eq (he : e < str.length) :
    back str e + 1 = max 1 ((str.take (e + 1)).rdropWhile isSpace).length := by
  induction e with
  | zero =>
    have hle := (@List.rdropWhile_prefix _ isSpace (str.take (0 + 1))).length_le
    rw [List.length_take] at hle
    rw [back]
    omega
  | succ e ih =>
    have htake : str.take (e + 1 + 1) = str.take (e + 1) ++ [str[e + 1]] := by
      rw [List.take_add_one, List.getElem?_eq_getElem he]
      rfl
    rw [back, List.getD_eq_getElem _ _ he, htake, List.rdropWhile_concat]
    split_ifs
    · exact ih (by omega)
    · rw [List.length_append, List.length_take, List.length_singleton]
      omega

theorem zero_not_mem_lower (s : CString) : (0 : UInt8) ∉ s.bytes.map lower := by
  intro hmem
  obtain ⟨c, hc, hlow⟩ := List.mem_map.mp hmem
  have hlower : ∀ c : UInt8, lower c = 0 → c = 0 := forall_byte (by decide +kernel)
  exact s.zero_free (hlower c hlow ▸ hc)

/-- What is behind a name is not compared. -/
theorem lookUp_append (bitFlags : List CmdEnumDesc) (m t : Bytes) :
    lookUp bitFlags (m ++ t) (m.length % 2 ^ 32) = lookUp bitFlags m (m.length % 2 ^ 32) := by
  have hsize : m.length % 2 ^ 32 ≤ (m.map lower).length := by
    rw [List.length_map]
    exact Nat.mod_le _ _
  refine congrArg (List.find? · bitFlags) (funext fun f => ?_)
  by_cases heq : m.length % 2 ^ 32 = f.name.bytes.length % 2 ^ 32
  · have hzero := zero_not_mem_lower f.name
    have hle : m.length % 2 ^ 32 ≤ (f.name.bytes.map lower).length := by
      rw [heq, List.length_map]
      exact Nat.mod_le _ _
    rw [beq_iff_eq.mpr heq, Bool.true_and, Bool.true_and, Bool.eq_iff_iff, strncasecmpEq,
      strncasecmpEq, strncmpEq_take_iff hzero hle, strncmpEq_take_iff hzero hle, List.map_append]
    constructor
    · intro h
      refine List.prefix_of_prefix_length_le h (List.prefix_append _ _) ?_
      rw [List.length_take]
      omega
    · exact fun h => h.trans (List.prefix_append _ _)
  · rw [show (m.length % 2 ^ 32 == f.name.bytes.length % 2 ^ 32) = false from
      beq_eq_false_iff_ne.mpr heq, Bool.false_and, Bool.false_and]

theorem head_ltrim (h : ltrim n ≠ []) : isSpace ((ltrim n).head h) = false := by
  simpa [ltrim] using List.head_dropWhile_not isSpace h

theorem trim_eq_nil_iff : trim n = [] ↔ ltrim n = [] := by
  constructor
  · intro h
    by_contra hne
    have hall := List.rdropWhile_eq_nil_iff.mp h _ (List.head_mem hne)
    rw [head_ltrim hne] at hall
    cases hall
  · intro h
    rw [trim, h, List.rdropWhile_nil]

theorem not_mem_ltrim (h : (124 : UInt8) ∉ n) : (124 : UInt8) ∉ ltrim n :=
  fun hmem => h ((List.dropWhile_sublist _).subset hmem)

/-- Separators and blanks before a name are skipped, and a name of blanks with them. -/
theorem skip_append (h : (124 : UInt8) ∉ n) (t : Bytes) :
    skip (n ++ t) = if ltrim n = [] then skip t else ltrim n ++ t := by
  induction n with
  | nil => rfl
  | cons c n ih =>
    obtain ⟨hc, hn⟩ := List.ne_and_not_mem_of_not_mem_cons h
    have hbar : (c == 124) = false := beq_eq_false_iff_ne.mpr (Ne.symm hc)
    by_cases hblank : isSpace c = true
    · have hskip : skip (c :: n ++ t) = skip (n ++ t) := by
        rw [List.cons_append, skip, List.dropWhile_cons_of_pos]
        · rfl
        · rw [hblank, Bool.or_true]
      have htrim : ltrim (c :: n) = ltrim n := List.dropWhile_cons_of_pos hblank
      rw [hskip, htrim, ih hn]
    · have hskip : skip (c :: n ++ t) = c :: n ++ t := by
        rw [List.cons_append, skip, List.dropWhile_cons_of_neg]
        rw [hbar, Bool.false_or]
        exact hblank
      have htrim : ltrim (c :: n) = c :: n := List.dropWhile_cons_of_neg hblank
      rw [hskip, htrim, if_neg (List.cons_ne_nil c n)]

theorem skip_last (h : (124 : UInt8) ∉ n) : skip n = ltrim n := by
  have heq := skip_append h []
  rw [List.append_nil, List.append_nil] at heq
  rw [heq]
  split_ifs with hnil
  · rw [hnil]
    rfl
  · rfl

theorem skip_skip (str : Bytes) : skip (skip str) = skip str := List.dropWhile_idempotent _ _

/-- **A turn at a name that stands before a separator.** -/
theorem turn_name (hn : (124 : UInt8) ∉ n) (hne : ltrim n ≠ [])
    (hstr : skip str = ltrim n ++ 124 :: rest) : turn bitFlags v str =
      if (trim n).length = 1 then .again v (ltrim n ++ 124 :: rest)
      else match lookUp bitFlags (trim n) ((trim n).length % 2 ^ 32) with
        | some f => .again (v ||| f.value) (124 :: rest)
        | none => .unknown (ltrim n ++ 124 :: rest) ((trim n).length % 2 ^ 32) := by
  have hlen : 0 < (ltrim n).length := List.length_pos_of_ne_nil hne
  have hpos : 0 < (trim n).length :=
    List.length_pos_of_ne_nil fun h => hne (trim_eq_nil_iff.mp h)
  have hnext : (ltrim n ++ 124 :: rest).idxOf? 124 = some (ltrim n).length :=
    idxOf?_separator (not_mem_ltrim hn) rest
  have hback : back (ltrim n ++ 124 :: rest) ((ltrim n).length - 1) + 1 = (trim n).length := by
    rw [back_eq (by rw [List.length_append]; omega), Nat.sub_add_cancel hlen, List.take_left]
    show max 1 (trim n).length = _
    omega
  -- the name is the first piece of what is left
  obtain ⟨blanks, hblanks⟩ := @List.rdropWhile_prefix _ isSpace (ltrim n)
  have hpiece : ltrim n ++ 124 :: rest = trim n ++ (blanks ++ 124 :: rest) := by
    rw [← List.append_assoc]
    exact congrArg (· ++ 124 :: rest) hblanks.symm
  rw [turn, hstr, hnext]
  dsimp only
  rw [hback]
  by_cases hone : (trim n).length = 1
  · rw [if_pos (by omega), if_pos hone]
  · rw [if_neg (by omega), if_neg hone, List.drop_left,
      show lookUp bitFlags (ltrim n ++ 124 :: rest) ((trim n).length % 2 ^ 32) =
        lookUp bitFlags (trim n) ((trim n).length % 2 ^ 32) by rw [hpiece, lookUp_append]]

/-- **A turn at the last name.** -/
theorem turn_last (hn : (124 : UInt8) ∉ n) (hstr : skip str = ltrim n) : turn bitFlags v str =
    match lookUp bitFlags (ltrim n) ((ltrim n).length % 2 ^ 32) with
    | some f => .ended (v ||| f.value)
    | none => .unknown (ltrim n) ((ltrim n).length % 2 ^ 32) := by
  rw [turn, hstr, List.idxOf?_eq_none_iff.mpr (not_mem_ltrim hn)]

/-! ### Runs -/

/-- What a run that ends comes to, told by the names from one on. -/
def Ends (find : Bytes → Option UInt32) (name : Bytes) (r : Parsed UInt32) :
    UInt32 → List Bytes → Prop
  | v, [] => r = .set v
  | v, n :: ns =>
    match find n with
    | some f => Ends find name r (v ||| f) ns
    | none =>
      if n.length % 2 ^ 32 + name.length + 43 < 128 then ∃ error, r = .failed error
      else ∃ error, r = .overrun error

theorem ends_refuse (m t name : Bytes) :
    let r : Parsed UInt32 := refuse (unsupported (m ++ t) (m.length % 2 ^ 32) name)
    if m.length % 2 ^ 32 + name.length + 43 < 128 then ∃ error, r = .failed error
    else ∃ error, r = .overrun error := by
  have hle : m.length % 2 ^ 32 ≤ m.length := Nat.mod_le _ _
  have hlen : (unsupported (m ++ t) (m.length % 2 ^ 32) name).length < 128 ↔
      m.length % 2 ^ 32 + name.length + 43 < 128 := by
    have htexts : (ascii "'").length = 1 ∧ (ascii "'\n").length = 2 ∧
        (ascii "' is not a supported bit flag for flag '").length = 40 := by decide
    rw [unsupported]
    simp only [List.length_append, htexts]
    split_ifs
    · rw [List.length_take, List.length_append]
      omega
    · rw [List.length_append]
      omega
  dsimp only
  rw [refuse]
  by_cases hfits : m.length % 2 ^ 32 + name.length + 43 < 128
  · rw [if_pos hfits, if_pos (hlen.mpr hfits)]
    exact ⟨_, rfl⟩
  · rw [if_neg hfits, if_neg fun h => hfits (hlen.mp h)]
    exact ⟨_, rfl⟩

theorem named_cons (n : Name) (names : List Name) :
    named (n :: names) = if ltrim n.val = [] then named names else trim n.val :: named names := by
  rw [named, List.map_cons]
  by_cases hnil : ltrim n.val = []
  · rw [if_pos hnil, List.filter_cons_of_neg]
    · rfl
    · simpa using trim_eq_nil_iff.mpr hnil
  · rw [if_neg hnil, List.filter_cons_of_pos]
    · rfl
    · simpa using fun h => hnil (trim_eq_nil_iff.mp h)

/-- **A run over names that all move it on**, by induction on them; a name of blanks is skipped in
the turn of the next one. -/
theorem run_joined (hstr : skip str = skip (joined names last))
    (hadv : Advances (found bitFlags) (named names)) :
    ∃ turns r, run bitFlags name turns v str = some r ∧
      Ends (found bitFlags) name r v (named names ++ [ltrim last.val]) := by
  induction names generalizing v str with
  | nil =>
    rw [show joined [] last = last.val from rfl, skip_last last.2.1] at hstr
    have hturn := @turn_last bitFlags v str last.val last.2.1 hstr
    cases hfind : lookUp bitFlags (ltrim last.val) ((ltrim last.val).length % 2 ^ 32) with
    | none =>
      rw [hfind] at hturn
      refine ⟨1, _, by rw [run, hturn], ?_⟩
      have hrefuse := ends_refuse (ltrim last.val) [] name
      rw [List.append_nil] at hrefuse
      show Ends _ _ _ _ [_]
      rw [Ends, found, hfind]
      exact hrefuse
    | some f =>
      rw [hfind] at hturn
      refine ⟨1, _, by rw [run, hturn], ?_⟩
      show Ends _ _ _ _ [_]
      rw [Ends, found, hfind]
      rfl
  | cons n names ih =>
    rw [show joined (n :: names) last = n.val ++ 124 :: joined names last from rfl,
      skip_append n.2.1] at hstr
    rw [named_cons] at hadv ⊢
    by_cases hnil : ltrim n.val = []
    · rw [if_pos hnil] at hstr hadv ⊢
      exact ih hstr hadv
    · rw [if_neg hnil] at hstr hadv ⊢
      obtain ⟨hone, hrest⟩ := hadv
      have hturn := @turn_name bitFlags v str n.val _ n.2.1 hnil hstr
      rw [if_neg hone] at hturn
      cases hfind : lookUp bitFlags (trim n.val) ((trim n.val).length % 2 ^ 32) with
      | none =>
        rw [hfind] at hturn
        refine ⟨1, _, by rw [run, hturn], ?_⟩
        obtain ⟨blanks, hblanks⟩ := @List.rdropWhile_prefix _ isSpace (ltrim n.val)
        have hrefuse := ends_refuse (trim n.val) (blanks ++ 124 :: joined names last) name
        rw [← List.append_assoc, show trim n.val ++ blanks = ltrim n.val from hblanks] at hrefuse
        rw [List.cons_append, Ends, found, hfind]
        exact hrefuse
      | some f =>
        rw [hfind] at hturn
        have hfound : found bitFlags (trim n.val) = some f.value := by rw [found, hfind]; rfl
        obtain ⟨turns, r, hrun, hends⟩ :=
          @ih (v ||| f.value) (124 :: joined names last) rfl (hrest (by rw [hfound]; rfl))
        refine ⟨turns + 1, r, by rw [run, hturn]; exact hrun, ?_⟩
        rw [List.cons_append, Ends, hfound]
        exact hends

/-- **A run that comes to a name of one character** does not end: the turn begins again. -/
theorem run_stuck (hstr : skip str = skip (joined names last))
    (hadv : ¬ Advances (found bitFlags) (named names)) (turns : ℕ) :
    run bitFlags name turns v str = none := by
  induction names generalizing v str turns with
  | nil => exact absurd trivial hadv
  | cons n names ih =>
    rw [show joined (n :: names) last = n.val ++ 124 :: joined names last from rfl,
      skip_append n.2.1] at hstr
    rw [named_cons] at hadv
    by_cases hnil : ltrim n.val = []
    · rw [if_pos hnil] at hstr hadv
      exact ih hstr hadv turns
    · rw [if_neg hnil] at hstr hadv
      by_cases hone : (trim n.val).length = 1
      · -- by induction on the turns: each leaves the text where it was
        induction turns generalizing str with
        | zero => rfl
        | succ turns ihturns =>
          have hturn := @turn_name bitFlags v str n.val _ n.2.1 hnil hstr
          rw [if_pos hone] at hturn
          rw [run, hturn]
          refine ihturns ?_
          rw [← hstr, skip_skip]
      · have hturn := @turn_name bitFlags v str n.val _ n.2.1 hnil hstr
        rw [if_neg hone] at hturn
        have hmore : (found bitFlags (trim n.val)).isSome ∧
            ¬ Advances (found bitFlags) (named names) := by
          by_contra h
          exact hadv ⟨hone, fun hsome => by_contra fun hrest => h ⟨hsome, hrest⟩⟩
        cases turns with
        | zero => rfl
        | succ turns =>
          cases hfind : lookUp bitFlags (trim n.val) ((trim n.val).length % 2 ^ 32) with
          | none =>
            rw [found, hfind] at hmore
            cases hmore.1
          | some f =>
            rw [hfind] at hturn
            rw [run, hturn]
            exact @ih (v ||| f.value) (124 :: joined names last) rfl hmore.2 turns

/-- What a run ends with does not depend on the turns that it is given. -/
theorem run_unique (h : run bitFlags name turns v str = some r)
    (h' : run bitFlags name turns' v str = some r') : r = r' := by
  induction turns generalizing turns' v str with
  | zero => cases h
  | succ turns ih =>
    cases turns' with
    | zero => cases h'
    | succ turns' =>
      rw [run] at h h'
      cases hturn : turn bitFlags v str with
      | again w t =>
        rw [hturn] at h h'
        exact ih h h'
      | ended w =>
        rw [hturn] at h h'
        exact Option.some.inj (h.symm.trans h')
      | unknown t size =>
        rw [hturn] at h h'
        exact Option.some.inj (h.symm.trans h')

/-- What a run comes to, by the flags of the names. -/
theorem Ends.cases (h : Ends find name r v ns) :
    match union find v ns with
    | some w => r = .set w ∧ Fits find name ns
    | none => (Fits find name ns ∧ ∃ error, r = .failed error) ∨
        (¬ Fits find name ns ∧ ∃ error, r = .overrun error) := by
  induction ns generalizing v with
  | nil => exact ⟨h, trivial⟩
  | cons n ns ih =>
    rw [Ends] at h
    rw [union, Fits]
    cases hfind : find n with
    | none =>
      rw [hfind] at h
      dsimp only at h
      split_ifs at h with hfits
      · exact .inl ⟨hfits, h⟩
      · exact .inr ⟨hfits, h⟩
    | some f =>
      rw [hfind] at h
      exact ih h

/-- **When the flags that are named are set.** -/
theorem right_iff (bitFlags : List CmdEnumDesc) (name : Bytes) (names : List Name) (last : Name) :
    Right bitFlags name names last ↔ Advances (found bitFlags) (named names) ∧
      Agrees bitFlags names last ∧
      Fits (found bitFlags) name (named names ++ [ltrim last.val]) := by
  rw [Right, Agrees]
  by_cases hadv : Advances (found bitFlags) (named names)
  · obtain ⟨turns, r, hrun, hends⟩ := @run_joined bitFlags 0 _ name names last rfl hadv
    have hcases := hends.cases
    have hright : (∃ turns r, cmdParseBitFlags bitFlags (joined names last) name turns = some r ∧
        match union (flagOf bitFlags) 0 (named names ++ [trim last.val]) with
        | some v => r = .set v
        | none => ∃ error, r = .failed error) ↔
        match union (flagOf bitFlags) 0 (named names ++ [trim last.val]) with
        | some v => r = .set v
        | none => ∃ error, r = .failed error := by
      constructor
      · rintro ⟨turns', r', hrun', hmeets⟩
        obtain rfl := run_unique hrun hrun'
        exact hmeets
      · exact fun hmeets => ⟨turns, r, hrun, hmeets⟩
    rw [hright, and_iff_right hadv]
    generalize union (flagOf bitFlags) 0 (named names ++ [trim last.val]) = meant
    generalize union (found bitFlags) 0 (named names ++ [ltrim last.val]) = got at hcases
    cases got with
    | some w =>
      obtain ⟨rfl, hfits⟩ := hcases
      rw [and_iff_left hfits]
      cases meant with
      | some v =>
        constructor
        · intro heq
          cases heq
          rfl
        · intro heq
          cases heq
          rfl
      | none => exact iff_of_false (fun ⟨error, heq⟩ => by cases heq) fun heq => by cases heq
    | none =>
      rcases hcases with ⟨hfits, error, rfl⟩ | ⟨hfits, error, rfl⟩
      · rw [and_iff_left hfits]
        cases meant with
        | some v => exact iff_of_false (fun heq => by cases heq) fun heq => by cases heq
        | none => exact iff_of_true ⟨error, rfl⟩ rfl
      · refine iff_of_false (fun h => ?_) fun h => hfits h.2
        cases meant with
        | some v => cases h
        | none =>
          obtain ⟨error', heq⟩ := h
          cases heq
  · refine iff_of_false ?_ fun h => hadv h.1
    rintro ⟨turns, r, hrun, -⟩
    have hstuck := @run_stuck bitFlags 0 _ name names last rfl hadv turns
    rw [cmdParseBitFlags, hstuck] at hrun
    cases hrun

/-! ### Ordinary lists -/

/-- Among sizes that 32 bits can count, an entry is found by its name. -/
theorem found_eq_flagOf (htable : ∀ f ∈ bitFlags, f.name.bytes.length < 2 ^ 32)
    (hn : n.length < 2 ^ 32) : found bitFlags n = flagOf bitFlags n := by
  refine congrArg (Option.map _) (List.find?_congr fun f hf => ?_)
  rw [Nat.mod_eq_of_lt hn, Nat.mod_eq_of_lt (htable f hf), Bool.eq_iff_iff, Bool.and_eq_true,
    beq_iff_eq, beq_iff_eq, strncasecmpEq]
  have hzero : (0 : UInt8) ∉ f.name.bytes.map lower := zero_not_mem_lower f.name
  constructor
  · rintro ⟨hlen, hcmp⟩
    have hall : n.length = (f.name.bytes.map lower).length := by rw [hlen, List.length_map]
    rw [strncmpEq_take_iff hzero hall.le, List.take_of_length_le hall.ge] at hcmp
    exact hcmp.eq_of_length (by rw [← hall, List.length_map])
  · intro heq
    have hlen : f.name.bytes.length = n.length := by
      rw [← List.length_map lower, heq, List.length_map]
    refine ⟨hlen.symm, (strncmpEq_take_iff hzero (by rw [List.length_map, hlen])).mpr ?_⟩
    rw [heq]
    exact List.take_prefix _ _

section congr

variable {find' : Bytes → Option UInt32}

theorem union_congr (h : ∀ n ∈ ns, find n = find' n) : union find v ns = union find' v ns := by
  induction ns generalizing v with
  | nil => rfl
  | cons n ns ih =>
    obtain ⟨hn, hns⟩ := List.forall_mem_cons.mp h
    rw [union, union, hn]
    exact congrArg (Option.bind (find' n)) (funext fun f => ih hns)

theorem advances_congr (h : ∀ n ∈ ns, find n = find' n) : Advances find ns ↔ Advances find' ns := by
  induction ns with
  | nil => rfl
  | cons n ns ih =>
    obtain ⟨hn, hns⟩ := List.forall_mem_cons.mp h
    rw [Advances, Advances, hn, ih hns]

theorem fits_congr (h : ∀ n ∈ ns, find n = find' n) :
    Fits find name ns ↔ Fits find' name ns := by
  induction ns with
  | nil => rfl
  | cons n ns ih =>
    obtain ⟨hn, hns⟩ := List.forall_mem_cons.mp h
    rw [Fits, Fits, hn]
    cases find' n with
    | none => rfl
    | some f => exact ih hns

end congr

/-- **For ordinary lists** the names and the table tell: each name before a separator, up to the
first that is not in the table, has not just one character, and the error is short enough. -/
theorem right_iff_of_ordinary (h : Ordinary bitFlags names last) (name : Bytes) :
    Right bitFlags name names last ↔ Advances (flagOf bitFlags) (named names) ∧
      Fits (flagOf bitFlags) name (named names ++ [trim last.val]) := by
  have hfound : ∀ n ∈ named names ++ [trim last.val], found bitFlags n = flagOf bitFlags n := by
    intro n hn
    rcases List.mem_append.mp hn with hn | hn
    · exact found_eq_flagOf h.table (h.before n hn)
    · obtain rfl := List.mem_singleton.mp hn
      exact found_eq_flagOf h.table h.behind
  have hbefore : ∀ n ∈ named names, found bitFlags n = flagOf bitFlags n :=
    fun n hn => hfound n (List.mem_append_left _ hn)
  have hagrees : Agrees bitFlags names last := by
    rw [Agrees, h.blanks]
    exact union_congr hfound
  rw [right_iff, and_iff_right hagrees, h.blanks, advances_congr hbefore, fits_congr hfound]

/-- **When the flags that are named are set**, for every list and for ordinary ones. -/
theorem bitFlags_right_iff (bitFlags : List CmdEnumDesc) (name : Bytes) (names : List Name)
    (last : Name) :
    (Right bitFlags name names last ↔ Advances (found bitFlags) (named names) ∧
      Agrees bitFlags names last ∧
      Fits (found bitFlags) name (named names ++ [ltrim last.val])) ∧
    (Ordinary bitFlags names last → (Right bitFlags name names last ↔
      Advances (flagOf bitFlags) (named names) ∧
        Fits (flagOf bitFlags) name (named names ++ [trim last.val]))) :=
  ⟨right_iff bitFlags name names last, fun h => right_iff_of_ordinary h name⟩

/-- The flags `r` and `rw`. -/
def modes : List CmdEnumDesc := [⟨⟨ascii "r", by decide⟩, 1⟩, ⟨⟨ascii "rw", by decide⟩, 3⟩]

/-- `r|rw` is read for ever, and `rw|rw ` is refused. -/
theorem not_bitFlags_right :
    (∀ turns, cmdParseBitFlags modes (ascii "r|rw") (ascii "mode") turns = none) ∧
    ¬ Right modes (ascii "mode") [⟨ascii "r", by decide⟩] ⟨ascii "rw", by decide⟩ ∧
    (∃ error, cmdParseBitFlags modes (ascii "rw|rw ") (ascii "mode") 2 = some (.failed error)) ∧
    ¬ Right modes (ascii "mode") [⟨ascii "rw", by decide⟩] ⟨ascii "rw ", by decide⟩ := by
  have hstuck : ∀ turns, cmdParseBitFlags modes (ascii "r|rw") (ascii "mode") turns = none :=
    @run_stuck modes 0 _ _ [⟨ascii "r", by decide⟩] ⟨ascii "rw", by decide⟩ rfl
      fun h => h.1 (by decide)
  refine ⟨hstuck, ?_, ⟨_, rfl⟩, ?_⟩
  · rintro ⟨turns, r, hrun, -⟩
    rw [show joined [⟨ascii "r", _⟩] ⟨ascii "rw", _⟩ = ascii "r|rw" by decide, hstuck] at hrun
    cases hrun
  · rw [right_iff]
    rintro ⟨-, hagrees, -⟩
    revert hagrees
    rw [Agrees]
    decide

end BitFlags

end Suil
