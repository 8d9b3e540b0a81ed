/-
Mustache templates: the parser.

`Mustache::parse` goes over a body with a cursor and records, as pairs of positions,
the fragments of text and the actions that the tags stand for.  Here the body is the
memory it stands in and its size: the cursor moves without a look at the end, and
what it reads behind the end is whatever stands there.

* `skip_spec`, `skip_eq` — where a loop over characters stops;
* `toLastIndex_spec` — a name and the braces behind it;
* `skipComment_spec` — where the loop over a comment stops;
* `readTag_cases` — what a tag does to the cursor, the actions and the open blocks.
-/
import Suil.Strings

namespace Suil.Mustache

inductive ActionType where
  | ignore
  | tag
  | unEscapeTag
  | openBlock
  | closeBlock
  | elseBlock
  | partialTag
deriving DecidableEq

structure Action where
  tag : ActionType
  first : ℕ
  last : ℕ
  pos : ℕ
deriving DecidableEq

/-- `Parser`, with what `mFragments`, `mActions` and `blocks` hold; the last block is the
first of the list. -/
structure Parser where
  pos : ℕ
  frag : ℕ
  fragments : List (ℕ × ℕ)
  actions : List Action
  blocks : List ℕ

/-- What `parse` leaves, and the position where its cursor is then. -/
structure Template where
  fragments : List (ℕ × ℕ)
  actions : List Action
  pos : ℕ
deriving DecidableEq

section

variable (data : ℕ → UInt8) (size : ℕ)

/-- `Parser::peek`, at a position. -/
def peek (i : ℕ) : UInt8 := if size ≤ i then 0 else data i

/-- A loop that passes up to `n` characters while they are `p`. -/
def skip (p : UInt8 → Bool) : ℕ → ℕ → ℕ
  | 0, i => i
  | n + 1, i => if p (data i) then skip p n (i + 1) else i

/-- `Parser::eatSpace`. -/
def eatSpace (i : ℕ) : ℕ := skip data isSpace (size - i) i

/-- `toLastIndex`: the first and the last position of the name, and the one behind the braces. -/
def toLastIndex (chs : Bytes) (i : ℕ) : Option (ℕ × ℕ × ℕ) :=
  let s := eatSpace data size i
  if !isAlpha (data s) && data s != 95 then none
  else
    let e := skip data (fun n => isAlnum n || strchr chs n) (size - (s + 1)) (s + 1)
    let q := eatSpace data size e
    if data q != 125 || data (q + 1) != 125 then none
    else if e = s then none
    else some (s, e, q + 2)

/-- The loop over a comment. -/
def skipComment : ℕ → ℕ → ℕ
  | 0, i => i
  | n + 1, i => if data i ≠ 125 ∧ peek data size (i + 1) ≠ 125 then skipComment n (i + 1) else i

/-- `Parser::tagName`. -/
def tagName (a : Action) : Bytes := (List.range' a.first (a.last - a.first)).map data

/-- An action is recorded, and the next fragment starts at the cursor. -/
def Parser.tag (s : Parser) (a : Action) (pos : ℕ) : Parser :=
  { s with
    pos := pos
    frag := pos
    actions := s.actions ++ [a] }

/-- The action of a tag with a name. -/
def named (kind : ActionType) (chs : Bytes) (s : Parser) (i : ℕ) : Option Parser := do
  let (start, last, pos) ← toLastIndex data size chs i
  some (s.tag ⟨kind, start, last, 0⟩ pos)

/-- The action that opens a block. -/
def opened (kind : ActionType) (s : Parser) (i : ℕ) : Option Parser := do
  let (start, last, pos) ← toLastIndex data size [95] i
  some { s.tag ⟨kind, start, last, 0⟩ pos with blocks := s.actions.length :: s.blocks }

/-- `readTag`, with the cursor behind the opening braces; none when it throws. -/
def readTag (s : Parser) : Option Parser :=
  let i := eatSpace data size s.pos
  match peek data size i with
  | 35 => opened data size .openBlock s (i + 1)
  | 47 =>
    match s.blocks with
    | [] => none
    | b :: blocks => do
      let openTag ← s.actions[b]?
      let (start, last, pos) ← toLastIndex data size [95] (i + 1)
      let action : Action := ⟨.closeBlock, start, last, b⟩
      if tagName data openTag ≠ tagName data action then none
      else some { s.tag action pos with blocks := blocks }
  | 94 => opened data size .elseBlock s (i + 1)
  | 33 =>
    let k := skipComment data size (size - (i + 1)) (i + 1)
    if data k ≠ 125 ∧ peek data size (k + 1) ≠ 125 then none
    else some (s.tag ⟨.ignore, i + 1, k + 1, 0⟩ (k + 3))
  | 62 => named data size .partialTag (ascii "/._") s (i + 1)
  | 123 => do
    let (start, last, pos) ← toLastIndex data size [95] (i + 1)
    if data pos ≠ 125 then none else some (s.tag ⟨.unEscapeTag, start, last, 0⟩ (pos + 1))
  | 38 => named data size .unEscapeTag [95] s (i + 1)
  | 61 => none
  | _ => named data size .tag [95] s i

/-- Two opening braces stand at the cursor. -/
def opensTag (s : Parser) : Bool := data s.pos = 123 && peek data size (s.pos + 1) = 123

/-- One turn of the loop of `parse`. -/
def step (s : Parser) : Option Parser :=
  if opensTag data size s then
    readTag data size { s with
      pos := s.pos + 2
      fragments := s.fragments ++ [(s.frag, s.pos)] }
  else some { s with pos := s.pos + 1 }

/-- The loop of `parse`; `loop_pos` shows that `size` turns are enough. -/
def loop : ℕ → Parser → Option Parser
  | 0, s => some s
  | n + 1, s => if size ≤ s.pos then some s else (step data size s).bind (loop n)

/-- An inverted section is closed by the next action. -/
def inverted : List Action → Bool
  | a :: b :: actions =>
    (a.tag ≠ .elseBlock || b.tag = .closeBlock) && inverted (b :: actions)
  | _ => true

/-- `parse`; none when it throws. -/
def parse : Option Template :=
  if size = 0 then some ⟨[], [], 0⟩
  else do
    let s ← loop data size size ⟨0, 0, [], [], []⟩
    if s.blocks ≠ [] then none
    else
      let fragments := if s.pos ≠ s.frag then s.fragments ++ [(s.frag, s.pos)] else s.fragments
      if inverted s.actions then some ⟨fragments, s.actions, s.pos⟩ else none

end

variable {data : ℕ → UInt8} {size : ℕ} {s s' : Parser}

/-! ### Loops over characters -/

/-- A loop over characters stops at the first that is not `p`, or after `n`. -/
theorem skip_spec (data : ℕ → UInt8) (p : UInt8 → Bool) (n i : ℕ) :
    i ≤ skip data p n i ∧ skip data p n i ≤ i + n ∧
      (∀ j, i ≤ j → j < skip data p n i → p (data j) = true) ∧
      (skip data p n i < i + n → p (data (skip data p n i)) = false) := by
  induction n generalizing i with
  | zero => exact ⟨le_rfl, le_rfl, fun j h h' => absurd h (not_le.mpr h'), fun h => absurd h (lt_irrefl i)⟩
  | succ n ih =>
    rw [skip]
    split_ifs with hp
    · obtain ⟨hle, hup, hall, hstop⟩ := ih (i + 1)
      refine ⟨by omega, by omega, fun j hj hjk => ?_, fun h => hstop (by omega)⟩
      rcases Nat.eq_or_lt_of_le hj with rfl | hj
      · exact hp
      · exact hall j hj hjk
    · exact ⟨le_rfl, by omega, fun j h h' => absurd h (not_le.mpr h'), fun _ => Bool.eq_false_iff.mpr hp⟩

theorem skip_eq {p : UInt8 → Bool} {n i m : ℕ} (him : i ≤ m) (hup : m ≤ i + n)
    (hall : ∀ j, i ≤ j → j < m → p (data j) = true) (hstop : m < i + n → p (data m) = false) :
    skip data p n i = m := by
  obtain ⟨hle, hup', hall', hstop'⟩ := skip_spec data p n i
  rcases lt_trichotomy (skip data p n i) m with hlt | heq | hgt
  · have htrue := hall _ hle hlt
    rw [hstop' (by omega)] at htrue
    cases htrue
  · exact heq
  · have htrue := hall' m him hgt
    rw [hstop (by omega)] at htrue
    cases htrue

theorem eatSpace_spec (data : ℕ → UInt8) (size i : ℕ) :
    i ≤ eatSpace data size i ∧ eatSpace data size i ≤ max i size ∧
      ∀ j, i ≤ j → j < eatSpace data size i → data j ≠ 125 := by
  obtain ⟨hle, hup, hall, -⟩ := skip_spec data isSpace (size - i) i
  refine ⟨hle, ?_, fun j hj hjk h125 => ?_⟩
  · rw [eatSpace]
    omega
  · have hspace := hall j hj hjk
    rw [h125] at hspace
    exact absurd hspace (by decide)

/-- **A name** with the braces behind it: no other brace closes before them. -/
theorem toLastIndex_spec {chs : Bytes} (hchs : 125 ∉ chs) {i start last pos : ℕ}
    (h : toLastIndex data size chs i = some (start, last, pos)) :
    ∃ q, pos = q + 2 ∧ i ≤ start ∧ start < last ∧ last ≤ q ∧ data q = 125 ∧ data (q + 1) = 125 ∧
      ∀ j, i ≤ j → j < q → data j ≠ 125 := by
  rw [toLastIndex] at h
  obtain ⟨hs, -, hspaces⟩ := eatSpace_spec data size i
  set s := eatSpace data size i with hsdef
  simp only at h
  split_ifs at h with hfirst hbraces
  set e := skip data (fun n => isAlnum n || strchr chs n) (size - (s + 1)) (s + 1) with hedef
  obtain ⟨he, -, hname, -⟩ :=
    skip_spec data (fun n => isAlnum n || strchr chs n) (size - (s + 1)) (s + 1)
  obtain ⟨hq, -, hspaces'⟩ := eatSpace_spec data size e
  set q := eatSpace data size e with hqdef
  obtain ⟨rfl, rfl, rfl⟩ : s = start ∧ e = last ∧ q + 2 = pos := by simpa using h
  simp only [Bool.or_eq_true, bne_iff_ne, ne_eq, not_or, not_not] at hbraces
  refine ⟨q, rfl, hs, by omega, hq, hbraces.1, hbraces.2, fun j hj hjq h125 => ?_⟩
  -- spaces, the first character, the rest of the name, spaces
  rcases lt_or_ge j s with hjs | hjs
  · exact hspaces j hj hjs h125
  rcases Nat.eq_or_lt_of_le hjs with rfl | hjs
  · rw [h125] at hfirst
    exact hfirst (by decide)
  rcases lt_or_ge j e with hje | hje
  · have hin := hname j hjs hje
    rw [h125, strchr, Bool.or_eq_true, Bool.or_eq_true] at hin
    rcases hin with hin | hin | hin
    · exact absurd hin (by decide)
    · exact absurd hin (by decide)
    · exact hchs (List.contains_iff_mem.mp hin)
  · exact hspaces' j hje hjq h125

/-- The loop over a comment stops before its first closing brace, unless the comment starts
with one, or at the end. -/
theorem skipComment_spec (data : ℕ → UInt8) {size : ℕ} (n i : ℕ) (hn : i + n = size) :
    i ≤ skipComment data size n i ∧ skipComment data size n i ≤ size ∧
      (∀ j, i ≤ j → j < skipComment data size n i → data j ≠ 125) ∧
      (i < skipComment data size n i → skipComment data size n i < size →
        data (skipComment data size n i) ≠ 125) ∧
      (skipComment data size n i < size → data (skipComment data size n i) = 125 ∨
        peek data size (skipComment data size n i + 1) = 125) := by
  induction n generalizing i with
  | zero =>
    have hi : i = size := hn
    rw [skipComment]
    exact ⟨le_rfl, by omega, fun j h h' => absurd h (not_le.mpr h'), by omega, by omega⟩
  | succ n ih =>
    rw [skipComment]
    split_ifs with hgo
    · obtain ⟨hle, hup, hall, hlast, hstop⟩ := ih (i + 1) (by omega)
      refine ⟨by omega, hup, fun j hj hjk => ?_, fun _ hlt => ?_, hstop⟩
      · rcases Nat.eq_or_lt_of_le hj with rfl | hj
        · exact hgo.1
        · exact hall j hj hjk
      · rcases Nat.eq_or_lt_of_le hle with heq | hlt'
        · rw [← heq] at hlt ⊢
          have hpeek := hgo.2
          rwa [peek, if_neg (by omega)] at hpeek
        · exact hlast hlt' hlt
    · refine ⟨le_rfl, by omega, fun j h h' => absurd h (not_le.mpr h'), fun h => absurd h (lt_irrefl i),
        fun _ => ?_⟩
      rwa [not_and_or, not_not, not_not] at hgo

/-! ### What a tag does -/

def Action.Opens (a : Action) : Prop := a.tag = .openBlock ∨ a.tag = .elseBlock

def Action.Inner (a : Action) : Prop := ¬a.Opens ∧ a.tag ≠ .closeBlock

/-- `c` closes the action `o` at a place: it has its name, and the place. -/
def Closes (data : ℕ → UInt8) (i : ℕ) (o c : Action) : Prop :=
  c.tag = .closeBlock ∧ c.pos = i ∧ tagName data o = tagName data c

/-- The blocks that are open behind an action. -/
def Stacks (data : ℕ → UInt8) (s : Parser) (a : Action) (blocks : List ℕ) : Prop :=
  a.Inner ∧ blocks = s.blocks ∨ a.Opens ∧ blocks = s.actions.length :: s.blocks ∨
    s.blocks = a.pos :: blocks ∧ ∃ o, s.actions[a.pos]? = some o ∧ Closes data a.pos o a

/-- The closing braces of the tag whose first character stands at a position. -/
def braces (data : ℕ → UInt8) (size i : ℕ) : ℕ := if peek data size i = 123 then 3 else 2

/-- A tag that is no comment, from its first character on: braces at `q` and none before,
and the name between. -/
structure Named (data : ℕ → UInt8) (size i : ℕ) (a : Action) (pos : ℕ) : Prop where
  kind : peek data size i ≠ 33
  name : i ≤ a.first ∧ a.first ≤ a.last ∧ a.last + braces data size i ≤ pos
  first : ∀ j, i ≤ j → j + braces data size i < pos → data j ≠ 125
  last : ∀ j, pos ≤ j + braces data size i → j < pos → data j = 125

/-- A comment, from its `!` on. -/
structure Comment (data : ℕ → UInt8) (size i : ℕ) (a : Action) (pos : ℕ) : Prop where
  kind : peek data size i = 33
  text : a.first = i + 1 ∧ pos = a.last + 2
  stops : a.last = skipComment data size (size - (i + 1)) (i + 1) + 1
  brace : data (skipComment data size (size - (i + 1)) (i + 1)) = 125 ∨
    peek data size a.last = 125

theorem braces_of_ne {i : ℕ} (h : peek data size i ≠ 123) : braces data size i = 2 := if_neg h

theorem peek_eq {i : ℕ} {c : UInt8} (h : peek data size i = c) (hc : c ≠ 0) : i < size ∧ data i = c := by
  rw [peek] at h
  split_ifs at h with hi
  · exact absurd h.symm hc
  · exact ⟨not_le.mp hi, h⟩

/-- A name, from one or no character behind the first of the tag on. -/
theorem Named.of_toLastIndex {chs : Bytes} (hchs : 125 ∉ chs) {i k first last pos : ℕ} {a : Action}
    (h : toLastIndex data size chs k = some (first, last, pos))
    (hk : k = i ∨ k = i + 1 ∧ data i ≠ 125) (h₃₃ : peek data size i ≠ 33)
    (h₁₂₃ : peek data size i ≠ 123) (hfirst : a.first = first) (hlast : a.last = last) :
    Named data size i a pos := by
  obtain ⟨q, rfl, hstart, hlt, hle, hq, hq', hnone⟩ := toLastIndex_spec hchs h
  have hbraces := braces_of_ne h₁₂₃
  refine ⟨h₃₃, by omega, fun j hj hjq => ?_, fun j hj hjq => ?_⟩
  · rcases hk with rfl | ⟨rfl, hne⟩
    · exact hnone j hj (by omega)
    rcases Nat.eq_or_lt_of_le hj with rfl | hj
    · exact hne
    · exact hnone j (by omega) (by omega)
  · rcases (show j = q ∨ j = q + 1 by omega) with rfl | rfl
    · exact hq
    · exact hq'

theorem Named.of_named {kind : ActionType} {chs : Bytes} (hchs : 125 ∉ chs) {i k : ℕ}
    (h : named data size kind chs s k = some s') (hk : k = i ∨ k = i + 1 ∧ data i ≠ 125)
    (h₃₃ : peek data size i ≠ 33) (h₁₂₃ : peek data size i ≠ 123) :
    ∃ a pos, s' = s.tag a pos ∧ a.tag = kind ∧ Named data size i a pos := by
  obtain ⟨⟨start, last, pos⟩, hname, hs'⟩ := Option.bind_eq_some_iff.mp h
  exact ⟨_, pos, (Option.some.inj hs').symm, rfl, .of_toLastIndex hchs hname hk h₃₃ h₁₂₃ rfl rfl⟩

theorem Named.of_opened {kind : ActionType} {i : ℕ} (h : opened data size kind s (i + 1) = some s')
    (hne : data i ≠ 125) (h₃₃ : peek data size i ≠ 33) (h₁₂₃ : peek data size i ≠ 123) :
    ∃ a pos, s' = { s.tag a pos with blocks := s.actions.length :: s.blocks } ∧ a.tag = kind ∧
      Named data size i a pos := by
  obtain ⟨⟨start, last, pos⟩, hname, hs'⟩ := Option.bind_eq_some_iff.mp h
  exact ⟨_, pos, (Option.some.inj hs').symm, rfl,
    .of_toLastIndex (by decide) hname (Or.inr ⟨rfl, hne⟩) h₃₃ h₁₂₃ rfl rfl⟩

/-- A name within three braces. -/
theorem Named.of_triple {chs : Bytes} (hchs : 125 ∉ chs) {i first last pos : ℕ} {a : Action}
    (h : toLastIndex data size chs (i + 1) = some (first, last, pos)) (hi : data i ≠ 125)
    (h₁₂₃ : peek data size i = 123) (hbrace : data pos = 125) (hfirst : a.first = first)
    (hlast : a.last = last) : Named data size i a (pos + 1) := by
  obtain ⟨q, rfl, hstart, hlt, hle, hq, hq', hnone⟩ := toLastIndex_spec hchs h
  have hthree : braces data size i = 3 := if_pos h₁₂₃
  refine ⟨by rw [h₁₂₃]; decide, by omega, fun j hj hjq => ?_, fun j hj hjq => ?_⟩
  · rcases Nat.eq_or_lt_of_le hj with rfl | hj
    · exact hi
    · exact hnone j (by omega) (by omega)
  · rcases (show j = q ∨ j = q + 1 ∨ j = q + 2 by omega) with rfl | rfl | rfl
    · exact hq
    · exact hq'
    · exact hbrace

theorem Action.inner_of {a : Action} (kind : ActionType) (h : a.tag = kind)
    (hkind : kind ≠ .openBlock ∧ kind ≠ .elseBlock ∧ kind ≠ .closeBlock) : a.Inner := by
  rw [Inner, Opens, h]
  exact ⟨not_or.mpr ⟨hkind.1, hkind.2.1⟩, hkind.2.2⟩

/-- **What a tag does**: an action behind the others, the cursor and the next fragment behind
the tag, and the stack of the open blocks. -/
theorem readTag_cases (h : readTag data size s = some s') :
    ∃ a pos blocks, s' = { s.tag a pos with blocks := blocks } ∧ Stacks data s a blocks ∧
      (Named data size (eatSpace data size s.pos) a pos ∨
        Comment data size (eatSpace data size s.pos) a pos) := by
  rw [readTag] at h
  set i := eatSpace data size s.pos with hi
  have hne : ∀ {c : UInt8}, peek data size i = c → c ≠ 0 → c ≠ 125 → data i ≠ 125 := by
    intro c hpeek h0 h125
    rw [(peek_eq hpeek h0).2]
    exact h125
  split at h
  next hpeek =>
    obtain ⟨a, pos, rfl, ha, hnamed⟩ := Named.of_opened h (hne hpeek (by decide) (by decide))
      (by rw [hpeek]; decide) (by rw [hpeek]; decide)
    exact ⟨a, pos, _, rfl, Or.inr (Or.inl ⟨Or.inl ha, rfl⟩), Or.inl hnamed⟩
  next hpeek =>
    split at h
    · cases h
    next b blocks hblocks =>
      obtain ⟨o, ho, h⟩ := Option.bind_eq_some_iff.mp h
      obtain ⟨⟨start, last, pos⟩, hname, h⟩ := Option.bind_eq_some_iff.mp h
      obtain ⟨hsame, hs'⟩ := Option.ite_none_left_eq_some.mp h
      -- the block that was opened last is closed
      refine ⟨⟨.closeBlock, start, last, b⟩, pos, blocks, (Option.some.inj hs').symm,
        Or.inr (Or.inr ⟨hblocks, o, ho, rfl, rfl, not_not.mp hsame⟩), Or.inl ?_⟩
      exact .of_toLastIndex (by decide) hname (Or.inr ⟨rfl, hne hpeek (by decide) (by decide)⟩)
        (by rw [hpeek]; decide) (by rw [hpeek]; decide) rfl rfl
  next hpeek =>
    obtain ⟨a, pos, rfl, ha, hnamed⟩ := Named.of_opened h (hne hpeek (by decide) (by decide))
      (by rw [hpeek]; decide) (by rw [hpeek]; decide)
    exact ⟨a, pos, _, rfl, Or.inr (Or.inl ⟨Or.inr ha, rfl⟩), Or.inl hnamed⟩
  next hpeek =>
    obtain ⟨hbrace, hs'⟩ := Option.ite_none_left_eq_some.mp h
    rw [not_and_or, not_not, not_not] at hbrace
    exact ⟨_, _, s.blocks, (Option.some.inj hs').symm,
      Or.inl ⟨Action.inner_of .ignore rfl (by decide), rfl⟩,
      Or.inr ⟨hpeek, ⟨rfl, rfl⟩, rfl, hbrace⟩⟩
  next hpeek =>
    obtain ⟨a, pos, rfl, ha, hnamed⟩ := Named.of_named (by decide +kernel) h
      (Or.inr ⟨rfl, hne hpeek (by decide) (by decide)⟩) (by rw [hpeek]; decide)
      (by rw [hpeek]; decide)
    exact ⟨a, pos, s.blocks, rfl, Or.inl ⟨Action.inner_of _ ha (by decide), rfl⟩, Or.inl hnamed⟩
  next hpeek =>
    obtain ⟨⟨start, last, pos⟩, hname, h⟩ := Option.bind_eq_some_iff.mp h
    obtain ⟨hbrace, hs'⟩ := Option.ite_none_left_eq_some.mp h
    have hnamed := Named.of_triple (a := ⟨.unEscapeTag, start, last, 0⟩) (by decide) hname
      (hne hpeek (by decide) (by decide)) hpeek (not_not.mp hbrace) rfl rfl
    exact ⟨_, _, s.blocks, (Option.some.inj hs').symm,
      Or.inl ⟨Action.inner_of .unEscapeTag rfl (by decide), rfl⟩, Or.inl hnamed⟩
  next hpeek =>
    obtain ⟨a, pos, rfl, ha, hnamed⟩ := Named.of_named (by decide) h
      (Or.inr ⟨rfl, hne hpeek (by decide) (by decide)⟩) (by rw [hpeek]; decide)
      (by rw [hpeek]; decide)
    exact ⟨a, pos, s.blocks, rfl, Or.inl ⟨Action.inner_of _ ha (by decide), rfl⟩, Or.inl hnamed⟩
  next => cases h
  next h₁ h₂ h₃ h₃₃ h₅ h₁₂₃ h₇ h₈ =>
    obtain ⟨a, pos, rfl, ha, hnamed⟩ := Named.of_named (by decide) h (Or.inl rfl) h₃₃ h₁₂₃
    exact ⟨a, pos, s.blocks, rfl, Or.inl ⟨Action.inner_of _ ha (by decide), rfl⟩, Or.inl hnamed⟩

end Suil.Mustache
