/-
The command-line parser.

A command is selected by the first argument, or is the default one; its arguments
are taken one after another, up to `--`; then `version` and `help` are looked
after, what is still missing gets its default, and prompts are asked.

* `cmdParseCommandArguments_eq_ok_iff` — the loop, as a relation on what is given;
* `validateEach_eq_error_iff`, `validated_eq_error_iff` — what is missing;
* `parse_answers` — when the parser fails, and what it returns when it does not.
-/
import Suil.CmdArgs

namespace Suil

namespace Cmd

/-- What `sprintf` writes into `P->error`. -/
def CmdError.text : CmdError → Bytes
  | missingCommand => ascii "error: missing required command to execute\n"
  | unexpectedPositional npos =>
    ascii "error: unexpected number of positional arguments passed, expecting " ++
      decimalText npos ++ ascii "\n"
  | unrecognized arg => ascii "error: unrecognized command argument '" ++ arg ++ ascii "'\n"
  | expectsValue flag => ascii "error: command flag '" ++ flag ++ ascii "' expects a value\n"
  | promptFlag flag =>
    ascii "error: prompt flag '" ++ flag ++ ascii "' cannot be passed via command line\n"
  | unexpectedValue flag =>
    ascii "error: unexpected value passed to flag '" ++ flag ++ ascii "'\n"
  | missingFlag flag cmd =>
    ascii "Missing flag '" ++ flag ++ ascii "' required by command '" ++ cmd ++ ascii "'\n"
  | missingPositional i name cmd =>
    ascii "Missing positional argument " ++ decimalText i ++ ascii " ('" ++ name ++
      ascii "') required by command '" ++ cmd ++ ascii "'\n"
  | invalid text => text

/-- What a call comes to.  `failed` returns -1 with its text in `P->error`, which `overrun` does not
fit; `returned` has the number, the values, and what `argc` and `argv` are left as. -/
inductive Outcome where
  | aborted
  | exited
  | thrown
  | overrun (err : CmdError)
  | failed (err : CmdError)
  | returned (id : ℤ) (vals : Vals) (argv : List CString)

/-- `P->error` has 128 characters, with the one that ends the text. -/
def report (err : CmdError) : Outcome :=
  if err.text.length < 128 then .failed err else .overrun err

def cmdParseString : Validator := fun s _ => .ok (some (.text s))

/-- A validator that accepts may leave the value as it is. -/
def Vals.writeFlag (vals : Vals) (k : ℕ) (v : Option CmdFlagValue) : Vals :=
  { vals with flags := Function.update vals.flags k (v.or (vals.flags k)) }

def Vals.writePos (vals : Vals) (i : ℕ) (v : Option CmdFlagValue) : Vals :=
  { vals with pos := Function.update vals.pos i (v.or (vals.pos i)) }

instance (P : CmdParser) (cmd : Command) : Decidable (Distinct P cmd) :=
  inferInstanceAs (Decidable (List.Pairwise _ _))

/-- No flag and no command is there twice, and no global flag is both a prompt and an argument;
otherwise the program is aborted. -/
def Accepted (P : CmdParser) : Prop :=
  (∀ f ∈ P.args, f.prompt = false ∨ f.validator.isNone) ∧
    P.args.Pairwise (fun f g => f.name ≠ g.name ∧ (f.sf ≠ 0 → f.sf ≠ g.sf)) ∧
    P.cmds.Pairwise (fun c d => c.name ≠ d.name) ∧ ∀ cmd ∈ P.cmds, Distinct P cmd

instance (P : CmdParser) : Decidable (Accepted P) := inferInstanceAs (Decidable (_ ∧ _))

/-- `P->def` -/
def CmdParser.defaultCommand (P : CmdParser) : Option Command := P.default.bind (P.cmds[·]?)

def cmdFindCommandByName (P : CmdParser) (name : Bytes) : Option Command :=
  if name = [] then P.defaultCommand else P.cmds.find? fun c => c.name.bytes == name

/-- The command that is executed, and its arguments. -/
def selected (P : CmdParser) (args : List CString) : Option (Command × List CString) :=
  match args with
  | [] => P.defaultCommand.map (·, args)
  | arg :: rest =>
    if arg.bytes.getD 0 0 == 45 then P.defaultCommand.map (·, args)
    else
      match cmdFindCommandByName P arg.bytes with
      | some cmd => some (cmd, rest)
      | none => P.defaultCommand.map (·, args)

/-- What a positional argument writes. -/
def takePos (cmd : Command) (npos : ℕ) (arg : Bytes) : Except CmdError (Option CmdFlagValue) :=
  match cmd.pos[npos]? with
  | none => .error (.unexpectedPositional cmd.pos.length)
  | some pos =>
    match pos.validator with
    | none => .ok (some (.text arg))
    | some validator => (validator arg pos.name.bytes).mapError .invalid

theorem takeFlag_rest {P : CmdParser} {cmd : Command} {vals vals' : Vals} {arg : Bytes}
    {rest rest' : List CString} (h : takeFlag P cmd vals arg rest = .ok (vals', rest')) :
    rest'.length ≤ rest.length := by
  rw [takeFlag] at h
  split at h
  · cases h
  · split at h
    · cases h
    · split at h
      · split at h
        · cases h
        · split at h
          · cases h
          · injection h with h
            injection h with _ h
            rw [← h]
            split_ifs
            · exact le_rfl
            · rw [List.length_tail]
              exact Nat.sub_le _ _
      · split_ifs at h
        injection h with h
        injection h with _ h
        rw [h]

/-- The loop, from a number of positional arguments on: the values, and what is behind `--`. -/
def cmdParseCommandArguments (P : CmdParser) (cmd : Command) (npos : ℕ) (vals : Vals) :
    List CString → Except CmdError (Vals × List CString)
  | [] => .ok (vals, [])
  | arg :: rest =>
    if cmdIsIgnoreArguments arg.bytes then .ok (vals, rest)
    else if cmdIsShortFlag arg.bytes || cmdIsLongFlag arg.bytes then
      match h : takeFlag P cmd vals arg.bytes rest with
      | .error err => .error err
      | .ok (vals', rest') =>
        have := takeFlag_rest h
        cmdParseCommandArguments P cmd npos vals' rest'
    else
      match takePos cmd npos arg.bytes with
      | .error err => .error err
      | .ok v => cmdParseCommandArguments P cmd (npos + 1) (vals.writePos npos v) rest
termination_by args => args.length
decreasing_by
  · exact Nat.lt_succ_of_le this
  · exact Nat.lt_succ_self _

def getGlobalFlag (P : CmdParser) (vals : Vals) (i : ℕ) : Option CmdFlagValue :=
  if P.args.length ≤ i then none else vals.flags i

def getPositional (cmd : Command) (vals : Vals) (i : ℕ) : Option CmdFlagValue :=
  if cmd.pos.length ≤ i then none else vals.pos i

/-- `value && std::get<bool>(*value)`, which throws when there is another value. -/
def holdsTrue : Option CmdFlagValue → Option Bool
  | none => some false
  | some (.bool b) => some b
  | some _ => none

/-- The first command is `help`, the first two global flags are `version` and `help`. -/
def cmdHandleBuiltins (P : CmdParser) (cmd : Command) (vals : Vals) : Option Outcome :=
  if cmd.id = 0 then
    match getPositional cmd vals 0 with
    | none => some .exited
    | some (.text _) => some .exited
    | some _ => some .thrown
  else
    match holdsTrue (getGlobalFlag P vals 0) with
    | none => some .thrown
    | some true => some .exited
    | some false =>
      match holdsTrue (getGlobalFlag P vals 1) with
      | none => some .thrown
      | some true => some .exited
      | some false => none

/-- What is missing gets its default, if there is one, and otherwise fails; without a validator
nothing is required. -/
def validated (off : Option CmdFlagValue) (missing : CmdError) (validator : Option Validator)
    (fallback : Option CString) (name : Bytes) (val : Option CmdFlagValue) :
    Except CmdError (Option CmdFlagValue) :=
  match val with
  | some v => .ok (some v)
  | none =>
    match validator with
    | none => .ok off
    | some validator =>
      match fallback with
      | none => .error missing
      | some text =>
        if text.bytes = [] then .ok none else (validator text.bytes name).mapError .invalid

def cmdValidateArg (cmd : Command) (flag : CmdFlag) (val : Option CmdFlagValue) :
    Except CmdError (Option CmdFlagValue) :=
  validated (some (.bool false)) (.missingFlag flag.name.bytes cmd.name.bytes) flag.validator
    flag.fallback flag.name.bytes val

/-- Prompts are asked later. -/
def validateFlag (cmd : Command) (flag : CmdFlag) (_ : ℕ) (val : Option CmdFlagValue) :
    Except CmdError (Option CmdFlagValue) :=
  if flag.prompt then .ok val else cmdValidateArg cmd flag val

def validatePos (cmd : Command) (pos : CmdPositional) (i : ℕ) (val : Option CmdFlagValue) :
    Except CmdError (Option CmdFlagValue) :=
  validated none (.missingPositional i pos.name.bytes cmd.name.bytes) pos.validator pos.fallback
    pos.name.bytes val

/-- The flags in the order in which they are validated, with their places in `slots`. -/
def numbered (P : CmdParser) (cmd : Command) : List (CmdFlag × ℕ) :=
  cmd.args.zipIdx P.args.length ++ P.args.zipIdx

/-- The loops over the flags and over the positional arguments. -/
def validateEach {α : Type}
    (check : α → ℕ → Option CmdFlagValue → Except CmdError (Option CmdFlagValue)) :
    List (α × ℕ) → (ℕ → Option CmdFlagValue) → Except CmdError (ℕ → Option CmdFlagValue)
  | [], vals => .ok vals
  | (a, i) :: rest, vals =>
    match check a i (vals i) with
    | .error err => .error err
    | .ok v => validateEach check rest (Function.update vals i v)

/-- What a prompt answers: it fails, or writes the value, or leaves it. -/
abbrev Prompts := ℕ → Option (Option CmdFlagValue)

def askPrompts (ask : Prompts) :
    List (CmdFlag × ℕ) → (ℕ → Option CmdFlagValue) → Option (ℕ → Option CmdFlagValue)
  | [], vals => some vals
  | (flag, k) :: rest, vals =>
    if flag.prompt then
      match ask k with
      | none => none
      | some v => askPrompts ask rest (Function.update vals k (v.or (vals k)))
    else askPrompts ask rest vals

/-- A prompt that fails returns `false`, which is the number of the first command, and leaves `argc`
and `argv`. -/
def parseCommandLineArguments (P : CmdParser) (ask : Prompts) (prog : CString)
    (args : List CString) : Outcome :=
  if ¬ Accepted P then .aborted
  else
    match selected P args with
    | none => report .missingCommand
    | some (cmd, rest) =>
      match cmdParseCommandArguments P cmd 0 {} rest with
      | .error err => report err
      | .ok (vals, left) =>
        match cmdHandleBuiltins P cmd vals with
        | some out => out
        | none =>
          match validateEach (validateFlag cmd) (numbered P cmd) vals.flags with
          | .error err => report err
          | .ok flags =>
            match validateEach (validatePos cmd) cmd.pos.zipIdx vals.pos with
            | .error err => report err
            | .ok pos =>
              match askPrompts ask (numbered P cmd) flags with
              | none => .returned 0 ⟨flags, pos⟩ (prog :: args)
              | some flags => .returned cmd.id ⟨flags, pos⟩ left

/-! ### Well-formed arguments -/

/-- A flag that is found gets what is given to it: none for a switch; for the others what is
attached, or the next argument. -/
inductive Gives (P : CmdParser) (cmd : Command) (arg : Bytes) (vals : Vals) :
    List CString → Vals → List CString → Prop
  | switch {k f rest} : resolve P cmd arg = (some k, none) → (slots P cmd)[k]? = some f →
      f.validator = none → Gives P cmd arg vals rest (vals.writeFlag k (some (.bool true))) rest
  | attached {k f rest s validator v} : resolve P cmd arg = (some k, some s) →
      (slots P cmd)[k]? = some f → f.validator = some validator →
      validator s f.name.bytes = .ok v → Gives P cmd arg vals rest (vals.writeFlag k v) rest
  | separate {k f s rest validator v} : resolve P cmd arg = (some k, none) →
      (slots P cmd)[k]? = some f → f.validator = some validator →
      validator s.bytes f.name.bytes = .ok v →
      Gives P cmd arg vals (s :: rest) (vals.writeFlag k v) rest

/-- Arguments that are well-formed from a number of positional ones on, the values that they give,
and what is behind `--`. -/
inductive Reads (P : CmdParser) (cmd : Command) :
    ℕ → Vals → List CString → Vals → List CString → Prop
  | done {npos vals} : Reads P cmd npos vals [] vals []
  | ignore {npos vals arg rest} : cmdIsIgnoreArguments arg.bytes = true →
      Reads P cmd npos vals (arg :: rest) vals rest
  | flag {npos vals arg rest vals' rest' last left} : cmdIsIgnoreArguments arg.bytes = false →
      (cmdIsShortFlag arg.bytes || cmdIsLongFlag arg.bytes) = true →
      Gives P cmd arg.bytes vals rest vals' rest' → Reads P cmd npos vals' rest' last left →
      Reads P cmd npos vals (arg :: rest) last left
  | pos {npos vals arg rest v last left} : cmdIsIgnoreArguments arg.bytes = false →
      (cmdIsShortFlag arg.bytes || cmdIsLongFlag arg.bytes) = false →
      takePos cmd npos arg.bytes = .ok v →
      Reads P cmd (npos + 1) (vals.writePos npos v) rest last left →
      Reads P cmd npos vals (arg :: rest) last left

/-- Help is asked for, or the version. -/
def Builtin (P : CmdParser) (cmd : Command) (vals : Vals) : Prop :=
  cmd.id = 0 ∨ (0 < P.args.length ∧ vals.flags 0 = some (.bool true)) ∨
    (1 < P.args.length ∧ vals.flags 1 = some (.bool true))

/-- There is no default, or one that the validator refuses. -/
def NoDefault (validator : Option Validator) (fallback : Option CString) (name : Bytes) : Prop :=
  ∃ v, validator = some v ∧
    ∀ text, fallback = some text → text.bytes ≠ [] ∧ ∃ err, v text.bytes name = .error err

/-- A flag or a positional argument has no value and no default. -/
def Lacks (P : CmdParser) (cmd : Command) (vals : Vals) : Prop :=
  (∃ k f, (slots P cmd)[k]? = some f ∧ f.prompt = false ∧ vals.flags k = none ∧
    NoDefault f.validator f.fallback f.name.bytes) ∨
  ∃ i p, cmd.pos[i]? = some p ∧ vals.pos i = none ∧ NoDefault p.validator p.fallback p.name.bytes

/-- No command is given and there is no default one, or its arguments are not well-formed, or
something is missing and neither help nor the version is asked for. -/
def Wrong (P : CmdParser) (args : List CString) : Prop :=
  selected P args = none ∨ ∃ cmd rest, selected P args = some (cmd, rest) ∧
    ((¬ ∃ vals left, Reads P cmd 0 {} rest vals left) ∨
      ∃ vals left, Reads P cmd 0 {} rest vals left ∧ ¬ Builtin P cmd vals ∧ Lacks P cmd vals)

/-- Every prompt of the command is answered. -/
def Answered (P : CmdParser) (ask : Prompts) (cmd : Command) : Prop :=
  ∀ k f, (slots P cmd)[k]? = some f → f.prompt = true → (ask k).isSome

/-- What is required is set, what is given is kept, and prompts write what they answer. -/
structure Complete (P : CmdParser) (ask : Prompts) (cmd : Command) (vals last : Vals) : Prop where
  required : ∀ k f, (slots P cmd)[k]? = some f → f.validator.isSome → f.fallback = none →
    f.prompt = false → (last.flags k).isSome
  requiredPos : ∀ i p, cmd.pos[i]? = some p → p.validator.isSome → p.fallback = none →
    (last.pos i).isSome
  given : ∀ k f, (slots P cmd)[k]? = some f → f.prompt = false → ∀ v, vals.flags k = some v →
    last.flags k = some v
  givenPos : ∀ i v, vals.pos i = some v → last.pos i = some v
  asked : ∀ k f, (slots P cmd)[k]? = some f → f.prompt = true → ∀ v, ask k = some v →
    last.flags k = v.or (vals.flags k)

/-- What `SuilParser` and `AddCmd` make: the first two global flags take no value, the first command
is `help`, which may be given a text, and commands are numbered. -/
structure Made (P : CmdParser) : Prop where
  builtins : ∀ f ∈ P.args.take 2, f.validator = none
  help : ∀ cmd ∈ P.cmds, cmd.id = 0 → ∀ p ∈ cmd.pos.take 1,
    p.validator = none ∨ p.validator = some cmdParseString
  ids : ∀ cmd ∈ P.cmds, 0 ≤ cmd.id

/-- The parser fails when something is wrong, and only then if the prompts are answered; help and
version exit; and otherwise the command is returned with its values and what is left. -/
structure Answers (P : CmdParser) (ask : Prompts) (prog : CString) (args : List CString) :
    Prop where
  fails : Wrong P args → ∃ err, parseCommandLineArguments P ask prog args = report err
  exactly : (∀ cmd rest, selected P args = some (cmd, rest) → Answered P ask cmd) →
    ((∃ err, parseCommandLineArguments P ask prog args = report err) ↔ Wrong P args)
  exits : ∀ cmd rest vals left, selected P args = some (cmd, rest) →
    Reads P cmd 0 {} rest vals left → Builtin P cmd vals →
    parseCommandLineArguments P ask prog args = .exited
  returns : ∀ cmd rest vals left, selected P args = some (cmd, rest) →
    Reads P cmd 0 {} rest vals left → ¬ Builtin P cmd vals → ¬ Lacks P cmd vals →
    Answered P ask cmd → ∃ last, 0 ≤ cmd.id ∧
      parseCommandLineArguments P ask prog args = .returned cmd.id last left ∧
      Complete P ask cmd vals last ∧ left <:+ args ∧
      (left = [] ∨ ∃ before arg, args = before ++ arg :: left ∧
        cmdIsIgnoreArguments arg.bytes = true)

section Arguments

variable {P : CmdParser} {cmd : Command} {vals vals' last : Vals} {arg : Bytes}
  {rest rest' args left : List CString} {npos k : ℕ}

theorem Gives.of_takeFlag (h : takeFlag P cmd vals arg rest = .ok (vals', rest')) :
    Gives P cmd arg vals rest vals' rest' := by
  rw [takeFlag] at h
  split at h
  · cases h
  · rename_i k val hresolve
    split at h
    · cases h
    · rename_i f hf
      split at h
      · rename_i validator hvalidator
        split at h
        · cases h
        · rename_i s hs
          split at h
          · cases h
          · rename_i v hv
            injection h with h
            injection h with hvals hrest
            subst hvals hrest
            cases val with
            | some s' =>
              obtain rfl : s' = s := Option.some.inj hs
              exact .attached hresolve hf hvalidator hv
            | none =>
              cases rest with
              | nil => cases hs
              | cons next rest =>
                obtain rfl : next.bytes = s := Option.some.inj hs
                exact .separate hresolve hf hvalidator hv
      · rename_i hvalidator
        cases val with
        | some s => cases h
        | none =>
          injection h with h
          injection h with hvals hrest
          subst hvals hrest
          exact .switch hresolve hf hvalidator

theorem Gives.takeFlag_eq (h : Gives P cmd arg vals rest vals' rest') :
    takeFlag P cmd vals arg rest = .ok (vals', rest') := by
  cases h with
  | switch hresolve hf hvalidator =>
    simp only [takeFlag, hresolve, hf, hvalidator]
    rfl
  | attached hresolve hf hvalidator hv =>
    simp only [takeFlag, hresolve, hf, hvalidator, Option.some_or, hv]
    rfl
  | separate hresolve hf hvalidator hv =>
    simp only [takeFlag, hresolve, hf, hvalidator, Option.none_or, List.head?_cons, Option.map_some,
      hv]
    rfl

theorem Gives.sublist (h : Gives P cmd arg vals rest vals' rest') : rest' <:+ rest := by
  cases h with
  | switch => exact List.suffix_rfl
  | attached => exact List.suffix_rfl
  | separate => exact List.suffix_cons _ _

/-- The loop takes arguments that are well-formed, and no others. -/
theorem cmdParseCommandArguments_eq_ok_iff :
    cmdParseCommandArguments P cmd npos vals args = .ok (last, left) ↔
      Reads P cmd npos vals args last left := by
  constructor
  · intro h
    induction npos, vals, args using cmdParseCommandArguments.induct P cmd with
    | case1 npos vals =>
      rw [cmdParseCommandArguments] at h
      injection h with h
      injection h with hvals hleft
      subst hvals hleft
      exact .done
    | case2 npos vals arg rest hignore =>
      rw [cmdParseCommandArguments, if_pos hignore] at h
      injection h with h
      injection h with hvals hleft
      subst hvals hleft
      exact .ignore hignore
    | case3 npos vals arg rest hignore hflag err herr =>
      rw [cmdParseCommandArguments, if_neg hignore, if_pos hflag] at h
      split at h
      · cases h
      · rename_i hok
        rw [herr] at hok
        cases hok
    | case4 npos vals arg rest hignore hflag vals₁ rest₁ hok _ ih =>
      rw [cmdParseCommandArguments, if_neg hignore, if_pos hflag] at h
      split at h
      · cases h
      · rename_i vals₂ rest₂ hok₂
        rw [hok] at hok₂
        injection hok₂ with hok₂
        injection hok₂ with hvals hrest
        subst hvals hrest
        exact .flag (Bool.eq_false_iff.mpr hignore) hflag (.of_takeFlag hok) (ih h)
    | case5 npos vals arg rest hignore hflag err herr =>
      rw [cmdParseCommandArguments, if_neg hignore, if_neg hflag, herr] at h
      cases h
    | case6 npos vals arg rest hignore hflag v hok ih =>
      rw [cmdParseCommandArguments, if_neg hignore, if_neg hflag, hok] at h
      exact .pos (Bool.eq_false_iff.mpr hignore) (Bool.eq_false_iff.mpr hflag) hok (ih h)
  · intro h
    induction h with
    | done => rw [cmdParseCommandArguments]
    | ignore hignore => rw [cmdParseCommandArguments, if_pos hignore]
    | flag hignore hflag hgives _ ih =>
      rw [cmdParseCommandArguments, if_neg (Bool.eq_false_iff.mp hignore), if_pos hflag]
      split
      · rename_i herr
        rw [hgives.takeFlag_eq] at herr
        cases herr
      · rename_i hok
        rw [hgives.takeFlag_eq] at hok
        injection hok with hok
        injection hok with hvals hrest
        subst hvals hrest
        exact ih
    | pos hignore hflag hok _ ih =>
      rw [cmdParseCommandArguments, if_neg (Bool.eq_false_iff.mp hignore),
        if_neg (Bool.eq_false_iff.mp hflag), hok]
      exact ih

/-- What is left is a last piece of the arguments, and behind `--`. -/
theorem Reads.left_suffix (h : Reads P cmd npos vals args last left) :
    left <:+ args ∧ (left = [] ∨ ∃ before arg, args = before ++ arg :: left ∧
      cmdIsIgnoreArguments arg.bytes = true) := by
  induction h with
  | done => exact ⟨List.suffix_rfl, .inl rfl⟩
  | @ignore npos vals arg rest hignore =>
    exact ⟨List.suffix_cons _ _, .inr ⟨[], arg, rfl, hignore⟩⟩
  | @flag npos vals arg rest vals' rest' last left _ _ hgives _ ih =>
    obtain ⟨taken, htaken⟩ := hgives.sublist
    refine ⟨(ih.1.trans hgives.sublist).trans (List.suffix_cons _ _), ih.2.imp_right ?_⟩
    rintro ⟨before, sep, heq, hsep⟩
    refine ⟨arg :: taken ++ before, sep, ?_, hsep⟩
    rw [← htaken, heq]
    simp only [List.cons_append, List.append_assoc]
  | @pos npos vals arg rest v last left _ _ _ _ ih =>
    refine ⟨ih.1.trans (List.suffix_cons _ _), ih.2.imp_right ?_⟩
    rintro ⟨before, sep, heq, hsep⟩
    exact ⟨arg :: before, sep, by rw [heq, List.cons_append], hsep⟩

/-- A flag without a validator is switched on, or is left. -/
theorem Gives.switched {f : CmdFlag} (h : Gives P cmd arg vals rest vals' rest')
    (hf : (slots P cmd)[k]? = some f) (hnone : f.validator = none)
    (hbefore : vals.flags k = none ∨ vals.flags k = some (.bool true)) :
    vals'.flags k = none ∨ vals'.flags k = some (.bool true) := by
  have hwrite : ∀ {j g v}, (slots P cmd)[j]? = some g → (k = j → v = some (.bool true)) →
      (vals.writeFlag j v).flags k = none ∨ (vals.writeFlag j v).flags k = some (.bool true) := by
    intro j g v _ hv
    by_cases hkj : k = j
    · subst hkj
      rw [hv rfl]
      right
      exact Function.update_self _ _ _
    · rw [Vals.writeFlag]
      show Function.update vals.flags j _ k = none ∨ Function.update vals.flags j _ k = _
      rw [Function.update_of_ne hkj]
      exact hbefore
  cases h with
  | switch _ hg _ => exact hwrite hg fun _ => rfl
  | attached _ hg hvalidator _ =>
    refine hwrite hg fun hkj => ?_
    rw [← hkj, hf] at hg
    rw [← Option.some.inj hg, hnone] at hvalidator
    cases hvalidator
  | separate _ hg hvalidator _ =>
    refine hwrite hg fun hkj => ?_
    rw [← hkj, hf] at hg
    rw [← Option.some.inj hg, hnone] at hvalidator
    cases hvalidator

theorem Gives.pos_eq (h : Gives P cmd arg vals rest vals' rest') : vals'.pos = vals.pos := by
  cases h <;> rfl

theorem Reads.switched {f : CmdFlag} (h : Reads P cmd npos vals args last left)
    (hf : (slots P cmd)[k]? = some f) (hnone : f.validator = none)
    (hbefore : vals.flags k = none ∨ vals.flags k = some (.bool true)) :
    last.flags k = none ∨ last.flags k = some (.bool true) := by
  induction h with
  | done => exact hbefore
  | ignore => exact hbefore
  | flag _ _ hgives _ ih => exact ih (hgives.switched hf hnone hbefore)
  | pos _ _ _ _ ih => exact ih hbefore

/-- The first positional argument of `help` is a text. -/
theorem Reads.text (h : Reads P cmd npos vals args last left)
    (hpos : ∀ p ∈ cmd.pos.take 1, p.validator = none ∨ p.validator = some cmdParseString)
    (hbefore : vals.pos 0 = none ∨ ∃ s, vals.pos 0 = some (.text s)) :
    last.pos 0 = none ∨ ∃ s, last.pos 0 = some (.text s) := by
  induction h with
  | done => exact hbefore
  | ignore => exact hbefore
  | flag _ _ hgives _ ih => exact ih (by rwa [hgives.pos_eq])
  | @pos npos vals arg rest v _ _ _ _ htake _ ih =>
    refine ih ?_
    rw [Vals.writePos]
    show Function.update vals.pos npos _ 0 = none ∨ ∃ s, Function.update vals.pos npos _ 0 = _
    rcases npos.eq_zero_or_pos with rfl | hlt
    · right
      rw [Function.update_self]
      rw [takePos] at htake
      cases hp : cmd.pos with
      | nil =>
        rw [hp] at htake
        cases htake
      | cons p ps =>
        rw [hp] at htake hpos
        rcases hpos p List.mem_cons_self with hnone | hstring
        · simp only [List.getElem?_cons_zero, hnone] at htake
          injection htake with htake
          exact ⟨arg.bytes, by rw [← htake]; rfl⟩
        · simp only [List.getElem?_cons_zero, hstring] at htake
          injection htake with htake
          exact ⟨arg.bytes, by rw [← htake]; rfl⟩
    · rw [Function.update_of_ne hlt.ne]
      exact hbefore

end Arguments

section Validation

variable {α : Type} {cmd : Command} {P : CmdParser} {last : ℕ → Option CmdFlagValue}
  {check : α → ℕ → Option CmdFlagValue → Except CmdError (Option CmdFlagValue)}

theorem validated_eq_error_iff {off : Option CmdFlagValue} {missing : CmdError}
    {validator : Option Validator} {fallback : Option CString} {name : Bytes}
    {val : Option CmdFlagValue} :
    (∃ err, validated off missing validator fallback name val = .error err) ↔
      val = none ∧ NoDefault validator fallback name := by
  cases val with
  | some v => simp [validated]
  | none =>
    cases validator with
    | none => simp [validated, NoDefault]
    | some validator =>
      cases fallback with
      | none => simp [validated, NoDefault]
      | some text =>
        by_cases htext : text.bytes = []
        · simp [validated, NoDefault, htext]
        · cases hv : validator text.bytes name <;>
            simp [validated, NoDefault, htext, hv, Except.mapError]

/-- A value that is set is kept, and one that is required is set. -/
theorem validated_eq_ok {off : Option CmdFlagValue} {missing : CmdError}
    {validator : Option Validator} {fallback : Option CString} {name : Bytes}
    {val res : Option CmdFlagValue}
    (h : validated off missing validator fallback name val = .ok res) :
    (∀ v, val = some v → res = some v) ∧
      (validator.isSome → fallback = none → res.isSome) := by
  cases val with
  | some v =>
    injection h with h
    subst h
    exact ⟨fun _ => id, fun _ _ => rfl⟩
  | none =>
    refine ⟨nofun, fun hvalidator hfallback => ?_⟩
    obtain ⟨validator, rfl⟩ := Option.isSome_iff_exists.mp hvalidator
    subst hfallback
    cases h

theorem ne_of_numbered {rest : List (α × ℕ)} {i j : ℕ} {b : α} (hi : i ∉ rest.map Prod.snd)
    (hj : (b, j) ∈ rest) : j ≠ i := by
  intro hji
  rw [← hji] at hi
  exact hi (List.mem_map.mpr ⟨(b, j), hj, rfl⟩)

theorem validateEach_eq_error_iff {l : List (α × ℕ)} (hnodup : (l.map Prod.snd).Nodup)
    (vals : ℕ → Option CmdFlagValue) :
    (∃ err, validateEach check l vals = .error err) ↔
      ∃ a i, (a, i) ∈ l ∧ ∃ err, check a i (vals i) = .error err := by
  induction l generalizing vals with
  | nil => simp [validateEach]
  | cons head rest ih =>
    obtain ⟨a, i⟩ := head
    obtain ⟨hi, hrest⟩ := List.nodup_cons.mp hnodup
    rw [validateEach]
    cases hcheck : check a i (vals i) with
    | error err =>
      exact iff_of_true ⟨err, rfl⟩ ⟨a, i, List.mem_cons_self, err, hcheck⟩
    | ok v =>
      show (∃ err, validateEach check rest (Function.update vals i v) = .error err) ↔ _
      rw [ih hrest]
      -- the other values are those from before
      have hother : ∀ b j, (b, j) ∈ rest → Function.update vals i v j = vals j := by
        intro b j hj
        exact Function.update_of_ne (ne_of_numbered hi hj) _ _
      constructor
      · rintro ⟨b, j, hj, err, herr⟩
        rw [hother b j hj] at herr
        exact ⟨b, j, List.mem_cons_of_mem _ hj, err, herr⟩
      · rintro ⟨b, j, hj, err, herr⟩
        rcases List.mem_cons.mp hj with heq | hj
        · injection heq with hb hji
          subst hb hji
          rw [hcheck] at herr
          cases herr
        · exact ⟨b, j, hj, err, by rwa [hother b j hj]⟩

theorem validateEach_eq_ok {l : List (α × ℕ)} (hnodup : (l.map Prod.snd).Nodup)
    {vals : ℕ → Option CmdFlagValue} (h : validateEach check l vals = .ok last) :
    (∀ a i, (a, i) ∈ l → check a i (vals i) = .ok (last i)) ∧
      ∀ i, i ∉ l.map Prod.snd → last i = vals i := by
  induction l generalizing vals with
  | nil =>
    injection h with h
    subst h
    exact ⟨nofun, fun _ _ => rfl⟩
  | cons head rest ih =>
    obtain ⟨a, i⟩ := head
    obtain ⟨hi, hrest⟩ := List.nodup_cons.mp hnodup
    rw [validateEach] at h
    cases hcheck : check a i (vals i) with
    | error err =>
      rw [hcheck] at h
      cases h
    | ok v =>
      rw [hcheck] at h
      obtain ⟨hall, hother⟩ := ih hrest h
      refine ⟨fun b j hj => ?_, fun j hj => ?_⟩
      · rcases List.mem_cons.mp hj with heq | hin
        · injection heq with hb hji
          subst hb hji
          rw [hcheck, hother _ hi, Function.update_self]
        · rw [← hall b j hin, Function.update_of_ne (ne_of_numbered hi hin)]
      · obtain ⟨hji, hj⟩ := not_or.mp fun hor => hj (List.mem_cons.mpr hor)
        rw [hother j hj, Function.update_of_ne hji]

/-- Prompts that are answered write what they answer, and nothing else is written. -/
theorem askPrompts_eq_some {ask : Prompts} {l : List (CmdFlag × ℕ)}
    (hnodup : (l.map Prod.snd).Nodup)
    (hask : ∀ f k, (f, k) ∈ l → f.prompt = true → (ask k).isSome)
    (vals : ℕ → Option CmdFlagValue) :
    ∃ last, askPrompts ask l vals = some last ∧
      (∀ f k, (f, k) ∈ l → f.prompt = true → ∀ v, ask k = some v → last k = v.or (vals k)) ∧
      ∀ k, (∀ f, (f, k) ∈ l → f.prompt = false) → last k = vals k := by
  induction l generalizing vals with
  | nil => exact ⟨vals, rfl, nofun, fun _ _ => rfl⟩
  | cons head rest ih =>
    obtain ⟨f, k⟩ := head
    obtain ⟨hk, hrest⟩ := List.nodup_cons.mp hnodup
    have hne : ∀ g j, (g, j) ∈ rest → j ≠ k := fun g j => ne_of_numbered hk
    have hih := ih hrest fun g j hj => hask g j (List.mem_cons_of_mem _ hj)
    cases hprompt : f.prompt with
    | false =>
      obtain ⟨last, heq, hasked, hkept⟩ := hih vals
      refine ⟨last, ?_, fun g j hj hg => ?_, fun j hj => hkept j fun g hg =>
        hj g (List.mem_cons_of_mem _ hg)⟩
      · rw [askPrompts, if_neg (Bool.eq_false_iff.mp hprompt), heq]
      · rcases List.mem_cons.mp hj with hhead | hj
        · injection hhead with hgf _
          rw [hgf, hprompt] at hg
          cases hg
        · exact hasked g j hj hg
    | true =>
      obtain ⟨v, hv⟩ := Option.isSome_iff_exists.mp (hask f k List.mem_cons_self hprompt)
      obtain ⟨last, heq, hasked, hkept⟩ := hih (Function.update vals k (v.or (vals k)))
      refine ⟨last, ?_, fun g j hj hg w hw => ?_, fun j hj => ?_⟩
      · rw [askPrompts, if_pos hprompt, hv, ← heq]
      · rcases List.mem_cons.mp hj with hhead | hj
        · injection hhead with _ hjk
          subst hjk
          rw [hv] at hw
          obtain rfl := Option.some.inj hw
          rw [hkept j fun g hg => absurd rfl (hne g j hg), Function.update_self]
        · rw [hasked g j hj hg w hw, Function.update_of_ne (hne g j hj)]
      · have hjk : j ≠ k := by
          rintro rfl
          rw [hj f List.mem_cons_self] at hprompt
          cases hprompt
        rw [hkept j fun g hg => hj g (List.mem_cons_of_mem _ hg), Function.update_of_ne hjk]

theorem numbered_perm (P : CmdParser) (cmd : Command) :
    (numbered P cmd).Perm (slots P cmd).zipIdx := by
  rw [slots, List.zipIdx_append, Nat.zero_add]
  exact List.perm_append_comm

theorem mem_numbered {f : CmdFlag} {k : ℕ} :
    (f, k) ∈ numbered P cmd ↔ (slots P cmd)[k]? = some f := by
  rw [(numbered_perm P cmd).mem_iff, List.mem_zipIdx_iff_getElem?]

theorem nodup_zipIdx_snd (l : List α) : (l.zipIdx.map Prod.snd).Nodup := by
  rw [List.zipIdx_map_snd]
  exact List.nodup_range'

theorem numbered_nodup (P : CmdParser) (cmd : Command) :
    ((numbered P cmd).map Prod.snd).Nodup :=
  ((numbered_perm P cmd).map Prod.snd).nodup_iff.mpr (nodup_zipIdx_snd _)

end Validation

section Parser

variable {P : CmdParser} {cmd : Command} {vals last : Vals} {args rest left : List CString}
  {ask : Prompts} {prog : CString}

theorem defaultCommand_mem (h : P.defaultCommand = some cmd) : cmd ∈ P.cmds := by
  obtain ⟨i, _, hi⟩ := Option.bind_eq_some_iff.mp h
  exact List.mem_of_getElem? hi

/-- The selected command is one of the parser, and its arguments are all but its name. -/
theorem selected_eq_some (h : selected P args = some (cmd, rest)) :
    cmd ∈ P.cmds ∧ rest <:+ args := by
  have hdefault : P.defaultCommand.map (·, args) = some (cmd, rest) →
      cmd ∈ P.cmds ∧ rest <:+ args := by
    intro hmap
    obtain ⟨c, hc, heq⟩ := Option.map_eq_some_iff.mp hmap
    injection heq with hcmd hrest
    subst hcmd hrest
    exact ⟨defaultCommand_mem hc, List.suffix_rfl⟩
  cases args with
  | nil => exact hdefault h
  | cons arg args =>
    rw [selected] at h
    split_ifs at h with hdash
    · exact hdefault h
    · split at h
      · rename_i c hc
        injection h with h
        injection h with hcmd hrest
        subst hcmd hrest
        refine ⟨?_, List.suffix_cons _ _⟩
        rw [cmdFindCommandByName] at hc
        split_ifs at hc with hname
        · exact defaultCommand_mem hc
        · exact List.mem_of_find?_eq_some hc
      · exact hdefault h

theorem holdsTrue_getGlobalFlag {i : ℕ}
    (h : i < P.args.length → vals.flags i = none ∨ vals.flags i = some (.bool true)) :
    holdsTrue (getGlobalFlag P vals i) =
      some (decide (i < P.args.length ∧ vals.flags i = some (.bool true))) := by
  rw [getGlobalFlag]
  split_ifs with hlen
  · rw [decide_eq_false fun hand => absurd hand.1 (not_lt.mpr hlen)]
    rfl
  · rcases h (not_le.mp hlen) with hnone | htrue
    · have hnot : ¬ (i < P.args.length ∧ vals.flags i = some (.bool true)) := by
        rintro ⟨_, htrue⟩
        rw [hnone] at htrue
        cases htrue
      rw [decide_eq_false hnot, hnone]
      rfl
    · rw [decide_eq_true ⟨not_le.mp hlen, htrue⟩, htrue]
      rfl

/-- With the flags and the commands that `SuilParser` makes no value is of another type than is
expected. -/
theorem cmdHandleBuiltins_eq (hmade : Made P) (hcmd : cmd ∈ P.cmds)
    (h : Reads P cmd 0 {} rest vals left) :
    (Builtin P cmd vals → cmdHandleBuiltins P cmd vals = some .exited) ∧
      (¬ Builtin P cmd vals → cmdHandleBuiltins P cmd vals = none) := by
  have hflag : ∀ i < 2, i < P.args.length →
      vals.flags i = none ∨ vals.flags i = some (.bool true) := by
    intro i hi hlen
    have hslot : (slots P cmd)[i]? = some P.args[i] := by
      rw [slots, List.getElem?_append_left hlen, List.getElem?_eq_getElem hlen]
    refine h.switched hslot (hmade.builtins _ ?_) (.inl rfl)
    rw [List.mem_take_iff_getElem]
    exact ⟨i, lt_min hi hlen, rfl⟩
  rw [cmdHandleBuiltins, holdsTrue_getGlobalFlag (hflag 0 two_pos),
    holdsTrue_getGlobalFlag (hflag 1 one_lt_two), Builtin]
  split_ifs with hid
  · refine ⟨fun _ => ?_, fun hnot => absurd (.inl hid) hnot⟩
    -- the positional argument of `help`
    rw [getPositional]
    split_ifs with hlen
    · rfl
    · rcases h.text (hmade.help cmd hcmd hid) (.inl rfl) with hnone | ⟨s, hs⟩
      · rw [hnone]
      · rw [hs]
  · by_cases hversion : 0 < P.args.length ∧ vals.flags 0 = some (.bool true)
    · rw [decide_eq_true hversion]
      exact ⟨fun _ => rfl, fun hnot => absurd (.inr (.inl hversion)) hnot⟩
    · rw [decide_eq_false hversion]
      by_cases hhelp : 1 < P.args.length ∧ vals.flags 1 = some (.bool true)
      · rw [decide_eq_true hhelp]
        exact ⟨fun _ => rfl, fun hnot => absurd (.inr (.inr hhelp)) hnot⟩
      · rw [decide_eq_false hhelp]
        refine ⟨fun hor => ?_, fun _ => rfl⟩
        exact absurd hor (not_or.mpr ⟨hid, not_or.mpr ⟨hversion, hhelp⟩⟩)

/-- The flags and the positional arguments are validated when nothing is missing. -/
theorem lacks_iff : Lacks P cmd vals ↔
    (∃ err, validateEach (validateFlag cmd) (numbered P cmd) vals.flags = .error err) ∨
      ∃ err, validateEach (validatePos cmd) cmd.pos.zipIdx vals.pos = .error err := by
  rw [validateEach_eq_error_iff (numbered_nodup P cmd),
    validateEach_eq_error_iff (nodup_zipIdx_snd cmd.pos), Lacks]
  refine or_congr ?_ ?_
  · constructor
    · rintro ⟨k, f, hf, hprompt, hmissing⟩
      refine ⟨f, k, mem_numbered.mpr hf, ?_⟩
      rw [validateFlag, if_neg (Bool.eq_false_iff.mp hprompt), cmdValidateArg]
      exact validated_eq_error_iff.mpr hmissing
    · rintro ⟨f, k, hf, herr⟩
      rw [validateFlag] at herr
      split_ifs at herr with hprompt
      · obtain ⟨err, herr⟩ := herr
        cases herr
      · exact ⟨k, f, mem_numbered.mp hf, Bool.eq_false_iff.mpr hprompt,
          validated_eq_error_iff.mp herr⟩
  · constructor
    · rintro ⟨i, p, hp, hmissing⟩
      exact ⟨p, i, List.mem_zipIdx_iff_getElem?.mpr hp, validated_eq_error_iff.mpr hmissing⟩
    · rintro ⟨p, i, hp, herr⟩
      exact ⟨i, p, List.mem_zipIdx_iff_getElem?.mp hp, validated_eq_error_iff.mp herr⟩

/-- What validation and the prompts leave. -/
theorem complete_of_validated {flags flags' : ℕ → Option CmdFlagValue}
    {pos : ℕ → Option CmdFlagValue}
    (hflags : validateEach (validateFlag cmd) (numbered P cmd) vals.flags = .ok flags)
    (hpos : validateEach (validatePos cmd) cmd.pos.zipIdx vals.pos = .ok pos)
    (hasked : ∀ f k, (f, k) ∈ numbered P cmd → f.prompt = true → ∀ v, ask k = some v →
      flags' k = v.or (flags k))
    (hkept : ∀ k, (∀ f, (f, k) ∈ numbered P cmd → f.prompt = false) → flags' k = flags k) :
    Complete P ask cmd vals ⟨flags', pos⟩ := by
  obtain ⟨hflag, -⟩ := validateEach_eq_ok (numbered_nodup P cmd) hflags
  obtain ⟨hposArg, hother⟩ := validateEach_eq_ok (nodup_zipIdx_snd cmd.pos) hpos
  have hvalid : ∀ k f, (slots P cmd)[k]? = some f → f.prompt = false →
      cmdValidateArg cmd f (vals.flags k) = .ok (flags' k) := by
    intro k f hf hprompt
    have hcheck := hflag f k (mem_numbered.mpr hf)
    rw [validateFlag, if_neg (Bool.eq_false_iff.mp hprompt)] at hcheck
    rw [hkept k fun g hg => ?_, hcheck]
    obtain rfl := Option.some.inj ((mem_numbered.mp hg).symm.trans hf)
    exact hprompt
  refine ⟨fun k f hf hval hdef hprompt => ?_, fun i p hp hval hdef => ?_,
    fun k f hf hprompt => ?_, fun i v hv => ?_, fun k f hf hprompt v hv => ?_⟩
  · exact (validated_eq_ok (hvalid k f hf hprompt)).2 hval hdef
  · exact (validated_eq_ok (hposArg p i (List.mem_zipIdx_iff_getElem?.mpr hp))).2 hval hdef
  · exact (validated_eq_ok (hvalid k f hf hprompt)).1
  · by_cases hi : i ∈ cmd.pos.zipIdx.map Prod.snd
    · obtain ⟨⟨p, j⟩, hp, hji⟩ := List.mem_map.mp hi
      obtain rfl : j = i := hji
      exact (validated_eq_ok (hposArg p j hp)).1 v hv
    · exact (hother i hi).trans hv
  · have hmem := mem_numbered.mpr hf
    have hcheck := hflag f k hmem
    rw [validateFlag, if_pos hprompt] at hcheck
    injection hcheck with hcheck
    rw [hcheck]
    exact hasked f k hmem hprompt v hv

/-- **What the parser answers.** -/
theorem parse_answers (P : CmdParser) (ask : Prompts) (prog : CString) (args : List CString)
    (h : Accepted P) (hmade : Made P) : Answers P ask prog args := by
  have hreport : ∀ err, report err ≠ .exited ∧
      ∀ id vals argv, report err ≠ .returned id vals argv := by
    intro err
    rw [report]
    split_ifs
    · exact ⟨nofun, nofun⟩
    · exact ⟨nofun, nofun⟩
  have hfails : Wrong P args → ∃ err, parseCommandLineArguments P ask prog args = report err := by
    rintro (hnone | ⟨cmd, rest, hcmd, hwrong⟩)
    · exact ⟨_, by rw [parseCommandLineArguments, if_neg (not_not.mpr h), hnone]⟩
    cases hloop : cmdParseCommandArguments P cmd 0 {} rest with
    | error err =>
      exact ⟨err, by simp only [parseCommandLineArguments, if_neg (not_not.mpr h), hcmd, hloop]⟩
    | ok result =>
      obtain ⟨vals, left⟩ := result
      have hreads := cmdParseCommandArguments_eq_ok_iff.mp hloop
      rcases hwrong with hill | ⟨vals', left', hreads', hbuiltin, hlacks⟩
      · exact absurd ⟨vals, left, hreads⟩ hill
      rw [← cmdParseCommandArguments_eq_ok_iff, hloop] at hreads'
      injection hreads' with hreads'
      injection hreads' with hvals hleft
      subst hvals hleft
      have hnone := (cmdHandleBuiltins_eq hmade (selected_eq_some hcmd).1 hreads).2 hbuiltin
      cases hflags : validateEach (validateFlag cmd) (numbered P cmd) vals.flags with
      | error err =>
        exact ⟨err, by simp only [parseCommandLineArguments, if_neg (not_not.mpr h), hcmd, hloop,
          hnone, hflags]⟩
      | ok flags =>
        rcases lacks_iff.mp hlacks with ⟨err, herr⟩ | ⟨err, herr⟩
        · rw [hflags] at herr
          cases herr
        · exact ⟨err, by simp only [parseCommandLineArguments, if_neg (not_not.mpr h), hcmd, hloop,
            hnone, hflags, herr]⟩
  have hexits : ∀ cmd rest vals left, selected P args = some (cmd, rest) →
      Reads P cmd 0 {} rest vals left → Builtin P cmd vals →
      parseCommandLineArguments P ask prog args = .exited := by
    intro cmd rest vals left hcmd hreads hbuiltin
    simp only [parseCommandLineArguments, if_neg (not_not.mpr h), hcmd,
      cmdParseCommandArguments_eq_ok_iff.mpr hreads,
      (cmdHandleBuiltins_eq hmade (selected_eq_some hcmd).1 hreads).1 hbuiltin]
  have hreturns : ∀ cmd rest vals left, selected P args = some (cmd, rest) →
      Reads P cmd 0 {} rest vals left → ¬ Builtin P cmd vals → ¬ Lacks P cmd vals →
      Answered P ask cmd → ∃ last,
        parseCommandLineArguments P ask prog args = .returned cmd.id last left ∧
        Complete P ask cmd vals last := by
    intro cmd rest vals left hcmd hreads hbuiltin hlacks hask
    obtain ⟨hflags, hpos⟩ := not_or.mp fun hor => hlacks (lacks_iff.mpr hor)
    cases hvflags : validateEach (validateFlag cmd) (numbered P cmd) vals.flags with
    | error err => exact absurd ⟨err, hvflags⟩ hflags
    | ok flags =>
      cases hvpos : validateEach (validatePos cmd) cmd.pos.zipIdx vals.pos with
      | error err => exact absurd ⟨err, hvpos⟩ hpos
      | ok pos =>
        obtain ⟨last, hprompts, hasked, hkept⟩ := askPrompts_eq_some (numbered_nodup P cmd)
          (fun f k hf => hask k f (mem_numbered.mp hf)) flags
        refine ⟨⟨last, pos⟩, ?_, complete_of_validated hvflags hvpos hasked hkept⟩
        simp only [parseCommandLineArguments, if_neg (not_not.mpr h), hcmd,
          cmdParseCommandArguments_eq_ok_iff.mpr hreads,
          (cmdHandleBuiltins_eq hmade (selected_eq_some hcmd).1 hreads).2 hbuiltin, hvflags, hvpos,
          hprompts]
  refine ⟨hfails, fun hask => ⟨fun hfailed => ?_, hfails⟩, hexits, ?_⟩
  · -- whatever is not wrong exits or returns
    obtain ⟨err, herr⟩ := hfailed
    by_contra hright
    obtain ⟨hsome, hright⟩ := not_or.mp hright
    obtain ⟨⟨cmd, rest⟩, hcmd⟩ := Option.ne_none_iff_exists'.mp hsome
    obtain ⟨hread, hcomplete⟩ := not_or.mp fun hor => hright ⟨cmd, rest, hcmd, hor⟩
    obtain ⟨vals, left, hreads⟩ := not_not.mp hread
    by_cases hbuiltin : Builtin P cmd vals
    · exact (hreport err).1 (herr.symm.trans (hexits cmd rest vals left hcmd hreads hbuiltin))
    · have hlacks : ¬ Lacks P cmd vals := fun hlacks =>
        hcomplete ⟨vals, left, hreads, hbuiltin, hlacks⟩
      obtain ⟨last, hreturned, -⟩ := hreturns cmd rest vals left hcmd hreads hbuiltin hlacks
        (hask cmd rest hcmd)
      exact (hreport err).2 _ _ _ (herr.symm.trans hreturned)
  · intro cmd rest vals left hcmd hreads hbuiltin hlacks hask
    obtain ⟨last, hreturned, hcomplete⟩ :=
      hreturns cmd rest vals left hcmd hreads hbuiltin hlacks hask
    obtain ⟨hmem, taken, htaken⟩ := selected_eq_some hcmd
    obtain ⟨hleft, hbehind⟩ := hreads.left_suffix
    refine ⟨last, hmade.ids cmd hmem, hreturned, hcomplete, hleft.trans ⟨taken, htaken⟩,
      hbehind.imp_right ?_⟩
    rintro ⟨before, sep, heq, hsep⟩
    exact ⟨taken ++ before, sep, by rw [← htaken, heq, List.append_assoc], hsep⟩

theorem zero_not_mem_help : (0 : UInt8) ∉ ascii "help" := by decide

theorem zero_not_mem_serve : (0 : UInt8) ∉ ascii "serve" := by decide

/-- The commands `help` and `serve`, which must be given a port; no command is the default. -/
def sampleCommands : CmdParser where
  args := sampleParser.args
  cmds := [{ name := ⟨ascii "help", zero_not_mem_help⟩
             id := 0
             args := []
             pos := [{ name := ⟨ascii "command", by decide +kernel⟩
                       fallback := some ⟨[], List.not_mem_nil⟩
                       validator := some cmdParseString }] },
    { sampleCommand with args := [samplePort] }]
  default := none

theorem sampleCommands_made : Made sampleCommands := by
  refine ⟨?_, ?_, ?_⟩
  · intro f hf
    fin_cases hf <;> rfl
  · intro cmd hcmd hid p hp
    fin_cases hcmd
    · fin_cases hp
      exact .inr rfl
    · cases hid
  · intro cmd hcmd
    fin_cases hcmd <;> decide

/-- The command `serve -p 80`. -/
theorem parse_answers_served : Answers sampleCommands (fun _ => none)
    ⟨ascii "suil", by decide +kernel⟩ [⟨ascii "serve", zero_not_mem_serve⟩,
      ⟨ascii "-p", by decide +kernel⟩, ⟨ascii "80", by decide +kernel⟩] :=
  parse_answers _ _ _ _ (by decide +kernel) sampleCommands_made

/-- Without a command the parser fails, and there is no flag that is unknown and nothing that is
missing. -/
theorem not_fails_only_on_flags : ¬ ∀ (P : CmdParser) (ask : Prompts) (prog : CString)
    (args : List CString), Accepted P → Made P →
      ((∃ err, parseCommandLineArguments P ask prog args = report err) ↔
        ∃ cmd rest, selected P args = some (cmd, rest) ∧
          ((¬ ∃ vals left, Reads P cmd 0 {} rest vals left) ∨
            ∃ vals left, Reads P cmd 0 {} rest vals left ∧ ¬ Builtin P cmd vals ∧
              (Lacks P cmd vals ∨ ¬ Answered P ask cmd))) := by
  intro hall
  have hmissing := (hall sampleCommands (fun _ => none) ⟨ascii "suil", by decide +kernel⟩ []
    (by decide +kernel) sampleCommands_made).mp ⟨.missingCommand, ?_⟩
  · obtain ⟨cmd, rest, hcmd, -⟩ := hmissing
    cases hcmd
  · rw [parseCommandLineArguments, if_neg (not_not.mpr (by decide +kernel))]
    rfl

end Parser

end Cmd
end Suil
