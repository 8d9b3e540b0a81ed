/-
Fragments and tags tile a template.

A tag with a name leaves the cursor behind its braces.  A comment does so only when
it has some text and the first closing brace in it is followed by a second one: its
loop stops one character before a brace, and three characters are passed without a
look at them.

* `Named.isTag_iff`, `Comment.isTag_iff` — the tags that the cursor leaves rightly;
* `loop_tiles` — what the loop records, told by the tags that it meets;
* `loop_pending` — the stack of the open blocks;
* `parse_tiled_iff` — the templates that are tiled.
-/
import Suil.Mustache
import Suil.Lib.Nesting

open Nesting

namespace Suil.Mustache

variable {data : ℕ → UInt8} {size : ℕ} {s s' : Parser}

/-- A tag from `l` up to `e` and its action: two opening braces, and what closes them first. -/
structure IsTag (data : ℕ → UInt8) (size l e : ℕ) (a : Action) : Prop where
  opening : data l = 123 ∧ data (l + 1) = 123
  name : l + 2 ≤ a.first ∧ a.first ≤ a.last ∧ a.last + braces data size (eatSpace data size (l + 2)) ≤ e
  first : ∀ j, l + 2 ≤ j → j + braces data size (eatSpace data size (l + 2)) < e →
    ¬(data j = 125 ∧ data (j + 1) = 125)
  last : ∀ j, e ≤ j + braces data size (eatSpace data size (l + 2)) → j < e → data j = 125
  within : e ≤ size

/-- From a position on the body is a fragment, a tag with its action, a fragment and so on up to
its end; the last piece may be a fragment. -/
def Tiles (data : ℕ → UInt8) (size : ℕ) : ℕ → List (ℕ × ℕ) → List Action → Prop
  | i, [], [] => i = size
  | i, [f], [] => f.1 = i ∧ f.1 ≤ f.2 ∧ f.2 = size
  | i, f :: fragments, a :: actions =>
    f.1 = i ∧ f.1 ≤ f.2 ∧ ∃ e, IsTag data size f.2 e a ∧ Tiles data size e fragments actions
  | _, _, _ => False

/-- What is recorded for a body tiles it, each block is closed by its own tag, and the cursor is
not behind the end. -/
structure Tiled (data : ℕ → UInt8) (size : ℕ) (t : Template) : Prop where
  tiles : Tiles data size 0 t.fragments t.actions
  count : t.fragments.length = t.actions.length ∨ t.fragments.length = t.actions.length + 1
  blocks : Nested Action.Inner Action.Opens (Closes data) 0 t.actions
  cursor : t.pos ≤ size

/-- The first closing brace at `i` or behind it. -/
def firstBrace (data : ℕ → UInt8) (size i : ℕ) : ℕ := skip data (· != 125) (size - i) i

/-- The tag whose opening braces end at `l` is closed within the body by the first closing brace
and the ones behind it; as a comment it has some text before them. -/
def closesTag (data : ℕ → UInt8) (size l : ℕ) : Bool :=
  let i := eatSpace data size l
  (peek data size i != 33 || i + 1 < firstBrace data size i) &&
    firstBrace data size i + braces data size i ≤ size &&
    (List.range (braces data size i)).all fun j => data (firstBrace data size i + j) == 125

/-- The tags that the loop of `parse` meets are closed. -/
def tagsClose (data : ℕ → UInt8) (size : ℕ) : ℕ → Parser → Bool
  | 0, _ => true
  | n + 1, s =>
    size ≤ s.pos || (!opensTag data size s || closesTag data size (s.pos + 2)) &&
      (step data size s).all (tagsClose data size n)

/-! ### One tag -/

theorem braces_bounds (data : ℕ → UInt8) (size i : ℕ) : 2 ≤ braces data size i ∧ braces data size i ≤ 3 := by
  rw [braces]
  split_ifs <;> omega

theorem closesTag_iff (l : ℕ) :
    closesTag data size l = true ↔
      (peek data size (eatSpace data size l) = 33 →
          eatSpace data size l + 1 < firstBrace data size (eatSpace data size l)) ∧
        firstBrace data size (eatSpace data size l) + braces data size (eatSpace data size l) ≤ size ∧
        ∀ j, j < braces data size (eatSpace data size l) →
          data (firstBrace data size (eatSpace data size l) + j) = 125 := by
  simp [closesTag, and_assoc, imp_iff_not_or]

theorem firstBrace_spec {i : ℕ} (h : firstBrace data size i < size) :
    i ≤ firstBrace data size i ∧ data (firstBrace data size i) = 125 ∧
      ∀ j, i ≤ j → j < firstBrace data size i → data j ≠ 125 := by
  obtain ⟨hle, -, hall, hstop⟩ := skip_spec data (· != 125) (size - i) i
  rw [firstBrace] at *
  have hi : i + (size - i) = size := by omega
  refine ⟨hle, ?_, fun j hj hjk => by simpa using hall j hj hjk⟩
  simpa using hstop (by rw [hi]; exact h)

theorem firstBrace_eq {i m : ℕ} (him : i ≤ m) (hm : m < size) (hbrace : data m = 125)
    (hnone : ∀ j, i ≤ j → j < m → data j ≠ 125) : firstBrace data size i = m :=
  skip_eq him (by omega) (fun j hj hjm => by simpa using hnone j hj hjm) fun _ => by simp [hbrace]

theorem Named.lt_pos {i pos : ℕ} {a : Action} (h : Named data size i a pos) : i < pos := by
  have hname := h.name
  have hbraces := braces_bounds data size i
  omega

theorem Comment.lt_pos {i pos : ℕ} {a : Action} (h : Comment data size i a pos) : i < pos := by
  have hstops := h.stops
  obtain ⟨hfirst, hpos⟩ := h.text
  have hi := (peek_eq h.kind (by decide)).1
  have hle := (skipComment_spec data (size - (i + 1)) (i + 1)
    (show i + 1 + (size - (i + 1)) = size by omega)).1
  omega

/-- **A tag with a name** is recorded as it stands, unless it runs over the end. -/
theorem Named.isTag_iff {l pos : ℕ} {a : Action} (h : Named data size (eatSpace data size (l + 2)) a pos)
    (hopen : data l = 123 ∧ data (l + 1) = 123) :
    IsTag data size l pos a ↔ closesTag data size (l + 2) = true := by
  obtain ⟨hl, -, hspaces⟩ := eatSpace_spec data size (l + 2)
  rw [closesTag_iff]
  set i := eatSpace data size (l + 2) with hi
  obtain ⟨hname, hname', hlast⟩ := h.name
  obtain ⟨hn, hn'⟩ := braces_bounds data size i
  constructor
  · intro htag
    have hwithin := htag.within
    have hbrace : firstBrace data size i = pos - braces data size i := by
      refine firstBrace_eq (by omega) (by omega) (h.last _ (by omega) (by omega)) fun j hj hjm => ?_
      exact h.first j hj (by omega)
    refine ⟨fun h₃₃ => absurd h₃₃ h.kind, by omega, fun j hj => ?_⟩
    exact h.last _ (by omega) (by omega)
  · rintro ⟨-, hwithin, hbraces⟩
    obtain ⟨hle, hbrace, hnone⟩ := firstBrace_spec (show firstBrace data size i < size by omega)
    -- no brace closes before those of the name
    have hpos : pos ≤ firstBrace data size i + braces data size i := by
      by_contra hlt
      exact h.first _ hle (by omega) hbrace
    refine ⟨hopen, ⟨by omega, hname', hlast⟩, fun j hj hjp hboth => ?_, h.last, by omega⟩
    rcases lt_or_ge j i with hji | hji
    · exact hspaces j hj hji hboth.1
    · exact h.first j hji hjp hboth.1

/-- **A comment** is recorded as it stands when it has some text and its first closing brace is
followed by another one. -/
theorem Comment.isTag_iff {l pos : ℕ} {a : Action}
    (h : Comment data size (eatSpace data size (l + 2)) a pos)
    (hopen : data l = 123 ∧ data (l + 1) = 123) :
    IsTag data size l pos a ↔ closesTag data size (l + 2) = true := by
  obtain ⟨hl, -, hspaces⟩ := eatSpace_spec data size (l + 2)
  have hkind := h.kind
  rw [closesTag_iff]
  set i := eatSpace data size (l + 2) with hi
  obtain ⟨hisize, hdata⟩ := peek_eq hkind (by decide)
  have hi125 : data i ≠ 125 := by rw [hdata]; decide
  have htwo : braces data size i = 2 := braces_of_ne (by rw [hkind]; decide)
  obtain ⟨hle, hup, hnone, hlast, hstop⟩ :=
    skipComment_spec data (size - (i + 1)) (i + 1) (show i + 1 + (size - (i + 1)) = size by omega)
  have hstops := h.stops
  have hbrace := h.brace
  obtain ⟨hfirst, hpos⟩ := h.text
  set k := skipComment data size (size - (i + 1)) (i + 1) with hk
  have htwo' : braces data size (eatSpace data size (l + 2)) = 2 := htwo
  rw [htwo]
  constructor
  · intro htag
    have hwithin := htag.within
    have hlast125 : data (k + 1) = 125 := htag.last (k + 1) (by omega) (by omega)
    have hlast125' : data (k + 2) = 125 := htag.last (k + 2) (by omega) (by omega)
    -- a comment without text would close one brace earlier
    have hk125 : data k ≠ 125 := fun h125 =>
      htag.first k (by omega) (by omega) ⟨h125, hlast125⟩
    have hbraceEq : firstBrace data size i = k + 1 := by
      refine firstBrace_eq (by omega) (by omega) hlast125 fun j hj hjk => ?_
      rcases Nat.eq_or_lt_of_le hj with rfl | hj
      · exact hi125
      rcases Nat.eq_or_lt_of_le (Nat.lt_succ_iff.mp hjk) with rfl | hjk
      · exact hk125
      · exact hnone j hj hjk
    rw [hbraceEq]
    refine ⟨fun _ => by omega, by omega, fun j hj => ?_⟩
    rcases (show j = 0 ∨ j = 1 by omega) with rfl | rfl
    · exact hlast125
    · exact hlast125'
  · -- the loop over the comment stops just before its first closing brace
    rintro ⟨htext, hwithin, hbraces⟩
    obtain ⟨-, hfirst125, hbefore⟩ := firstBrace_spec (show firstBrace data size i < size by omega)
    replace htext := htext hkind
    have hsecond := hbraces 1 (by omega)
    set b := firstBrace data size i with hb
    have hkb : k ≤ b := by
      by_contra hlt
      exact hnone b (by omega) (by omega) hfirst125
    have hkb' : k ≠ b := by
      rintro heq
      exact hlast (by omega) (by omega) (heq ▸ hfirst125)
    have hnext : data (k + 1) = 125 := by
      have hpeek := (hstop (by omega)).resolve_left (hbefore k (by omega) (by omega))
      exact (peek_eq hpeek (by decide)).2
    have hbk : b = k + 1 := by
      by_contra hne
      exact hbefore (k + 1) (by omega) (by omega) hnext
    refine ⟨hopen, ⟨by omega, by omega, by omega⟩, fun j hj hjp hboth => ?_,
      fun j hj hjp => ?_, by omega⟩
    · rcases lt_or_ge j i with hji | hji
      · exact hspaces j hj hji hboth.1
      · exact hbefore j hji (by omega) hboth.1
    · rcases (show j = b ∨ j = b + 1 by omega) with rfl | rfl
      · exact hfirst125
      · exact hsecond

/-! ### One turn of the loop -/

/-- A turn passes one character or records a fragment and a tag. -/
theorem step_cases (h : step data size s = some s') :
    opensTag data size s = false ∧ s' = { s with pos := s.pos + 1 } ∨
      opensTag data size s = true ∧ ∃ a pos blocks,
        s' = ⟨pos, pos, s.fragments ++ [(s.frag, s.pos)], s.actions ++ [a], blocks⟩ ∧ s.pos < pos ∧
          Stacks data s a blocks ∧
          (IsTag data size s.pos pos a ↔ closesTag data size (s.pos + 2) = true) := by
  rw [step] at h
  split_ifs at h with hopens
  · obtain ⟨a, pos, blocks, rfl, hstacks, htag⟩ := readTag_cases h
    have hopen : data s.pos = 123 ∧ data (s.pos + 1) = 123 := by
      rw [opensTag, Bool.and_eq_true, decide_eq_true_eq, decide_eq_true_eq] at hopens
      exact ⟨hopens.1, (peek_eq hopens.2 (by decide)).2⟩
    have hspace := (eatSpace_spec data size (s.pos + 2)).1
    have hlt : eatSpace data size (s.pos + 2) < pos := htag.elim Named.lt_pos Comment.lt_pos
    refine Or.inr ⟨hopens, a, pos, blocks, rfl, by omega, hstacks, ?_⟩
    rcases htag with hnamed | hcomment
    · exact hnamed.isTag_iff hopen
    · exact hcomment.isTag_iff hopen
  · exact Or.inl ⟨Bool.eq_false_iff.mpr hopens, (Option.some.inj h).symm⟩

/-- The loop ends behind the last character. -/
theorem loop_pos {n : ℕ} (h : loop data size n s = some s') (hn : size ≤ s.pos + n) :
    size ≤ s'.pos := by
  induction n generalizing s with
  | zero =>
    obtain rfl := Option.some.inj h
    exact hn
  | succ n ih =>
    rw [loop] at h
    split_ifs at h with heof
    · obtain rfl := Option.some.inj h
      exact heof
    · obtain ⟨u, hstep, hloop⟩ := Option.bind_eq_some_iff.mp h
      refine ih hloop ?_
      rcases step_cases hstep with ⟨-, rfl⟩ | ⟨-, a, pos, blocks, rfl, hlt, -⟩
      · show size ≤ s.pos + 1 + n
        omega
      · show size ≤ pos + n
        omega

/-- What each turn preserves holds at the end. -/
theorem loop_rule {I : Parser → Prop} (hI : ∀ s s', I s → step data size s = some s' → I s') {n : ℕ}
    (h : loop data size n s = some s') (hs : I s) : I s' := by
  induction n generalizing s with
  | zero =>
    obtain rfl := Option.some.inj h
    exact hs
  | succ n ih =>
    rw [loop] at h
    split_ifs at h with heof
    · obtain rfl := Option.some.inj h
      exact hs
    · obtain ⟨u, hstep, hloop⟩ := Option.bind_eq_some_iff.mp h
      exact ih hloop (hI s u hs hstep)

/-- The stack of the blocks tells which actions are open. -/
theorem loop_pending {n : ℕ} (h : loop data size n s = some s')
    (hs : Pending Action.Inner Action.Opens (Closes data) s.blocks s.actions) :
    Pending Action.Inner Action.Opens (Closes data) s'.blocks s'.actions := by
  refine loop_rule (I := fun s => Pending Action.Inner Action.Opens (Closes data) s.blocks s.actions)
    (fun s s' hs hstep => ?_) h hs
  rcases step_cases hstep with ⟨-, rfl⟩ | ⟨-, a, pos, blocks, rfl, -, hstacks, -⟩
  · exact hs
  · rcases hstacks with ⟨hinner, rfl⟩ | ⟨hopens, rfl⟩ | ⟨hblocks, o, ho, hcloses⟩
    · exact hs.snoc hinner
    · exact hs.push hopens
    · rw [hblocks] at hs
      refine hs.close fun o' ho' => ?_
      obtain rfl := Option.some.inj (ho.symm.trans ho')
      exact hcloses

/-! ### The whole body -/

/-- The fragment behind the last tag. -/
def Parser.lastFragment (s : Parser) : List (ℕ × ℕ) := if s.pos ≠ s.frag then [(s.frag, s.pos)] else []

theorem tiles_cons {i : ℕ} {f : ℕ × ℕ} {a : Action} {fragments : List (ℕ × ℕ)}
    {actions : List Action} :
    Tiles data size i (f :: fragments) (a :: actions) ↔
      f.1 = i ∧ f.1 ≤ f.2 ∧
        ∃ e, IsTag data size f.2 e a ∧ Tiles data size e fragments actions := by
  rw [Tiles]

/-- What the loop records within `n` turns: as many fragments as tags, which with the fragment
behind them tile the rest of the body, from the cursor only, iff the tags are closed. -/
def Records (data : ℕ → UInt8) (size n : ℕ) (s s' : Parser) : Prop :=
  ∃ fragments actions, s'.fragments = s.fragments ++ fragments ∧
    s'.actions = s.actions ++ actions ∧ fragments.length = actions.length ∧
    (∀ i, s'.pos ≤ size → Tiles data size i (fragments ++ s'.lastFragment) actions → i = s.frag) ∧
    (s'.pos ≤ size ∧ Tiles data size s.frag (fragments ++ s'.lastFragment) actions ↔
      tagsClose data size n s = true ∧ s.pos ≤ size)

/-- At the end of the body there is nothing to record. -/
theorem records_end {n : ℕ} (heof : size ≤ s.pos) (hfrag : s.frag ≤ s.pos)
    (hclose : tagsClose data size n s = true) : Records data size n s s := by
  refine ⟨[], [], (List.append_nil _).symm, (List.append_nil _).symm, rfl, ?_, ?_⟩
  · intro i hle htiles
    rw [List.nil_append, Parser.lastFragment] at htiles
    split_ifs at htiles with hne
    · exact htiles.1.symm
    · rw [not_not] at hne
      rw [Tiles] at htiles
      omega
  · rw [hclose, List.nil_append, Parser.lastFragment]
    split_ifs with hne
    · simp only [Tiles, true_and]
      omega
    · simp only [Tiles, true_and]
      omega

/-- **What the loop records**: fragments and tags that tile the rest of the body if and only if
the tags that it meets are closed. -/
theorem loop_tiles {n : ℕ} (h : loop data size n s = some s') (hn : size ≤ s.pos + n)
    (hfrag : s.frag ≤ s.pos) : Records data size n s s' := by
  induction n generalizing s with
  | zero =>
    obtain rfl := Option.some.inj h
    exact records_end hn hfrag rfl
  | succ n ih =>
    rw [loop] at h
    split_ifs at h with heof
    · obtain rfl := Option.some.inj h
      exact records_end heof hfrag (by rw [tagsClose, decide_eq_true heof, Bool.true_or])
    · obtain ⟨u, hstep, hloop⟩ := Option.bind_eq_some_iff.mp h
      have hclose : tagsClose data size (n + 1) s =
          ((!opensTag data size s || closesTag data size (s.pos + 2)) && tagsClose data size n u) := by
        rw [tagsClose, decide_eq_false heof, Bool.false_or, hstep]
        rfl
      rcases step_cases hstep with ⟨hopens, rfl⟩ | ⟨hopens, a, pos, blocks, rfl, hlt, -, htag⟩
      · -- one character more of the fragment
        obtain ⟨fragments, actions, hF, hA, hlen, hhead, htiles⟩ :=
          ih hloop (by show size ≤ s.pos + 1 + n; omega) (by show s.frag ≤ s.pos + 1; omega)
        refine ⟨fragments, actions, hF, hA, hlen, hhead, htiles.trans ?_⟩
        rw [hclose, hopens, Bool.not_false, Bool.true_or, Bool.true_and]
        refine and_congr_right fun _ => ?_
        show s.pos + 1 ≤ size ↔ s.pos ≤ size
        omega
      · -- a fragment and its tag, before what the rest of the loop records
        obtain ⟨fragments, actions, hF, hA, hlen, hhead, htiles⟩ :=
          ih hloop (by show size ≤ pos + n; omega) le_rfl
        refine ⟨(s.frag, s.pos) :: fragments, a :: actions, ?_, ?_, ?_, ?_, ?_⟩
        · rw [hF, List.append_assoc]
          rfl
        · rw [hA, List.append_assoc]
          rfl
        · rw [List.length_cons, List.length_cons, hlen]
        · intro i _ htiles
          exact (tiles_cons.mp htiles).1.symm
        · rw [hclose, hopens, Bool.not_true, Bool.false_or, Bool.and_eq_true, ← htag,
            List.cons_append, tiles_cons]
          constructor
          · rintro ⟨hle, -, -, e, hIs, hrest⟩
            obtain rfl := hhead e hle hrest
            exact ⟨⟨hIs, (htiles.mp ⟨hle, hrest⟩).1⟩, by omega⟩
          · rintro ⟨⟨hIs, hrest⟩, -⟩
            obtain ⟨hle, hT⟩ := htiles.mpr ⟨hrest, hIs.within⟩
            exact ⟨hle, rfl, hfrag, pos, hIs, hT⟩

/-- **The templates that are tiled** are those whose tags are all closed by the first closing brace
in them and the ones behind it, within the body, and whose comments have some text. -/
theorem parse_tiled_iff {t : Template} (h : parse data size = some t) :
    Tiled data size t ↔ tagsClose data size size ⟨0, 0, [], [], []⟩ = true := by
  rw [parse] at h
  split_ifs at h with hzero
  · obtain rfl := Option.some.inj h
    rw [hzero]
    exact iff_of_true ⟨rfl, Or.inl rfl, .nil 0, le_rfl⟩ rfl
  obtain ⟨s, hloop, h⟩ := Option.bind_eq_some_iff.mp h
  obtain ⟨hblocks, h⟩ := Option.ite_none_left_eq_some.mp h
  obtain ⟨-, h⟩ := Option.ite_none_right_eq_some.mp h
  have hpending := loop_pending hloop (.nil (.nil 0))
  obtain ⟨fragments, actions, hF, hA, hlen, -, htiles⟩ := loop_tiles hloop (by simp) le_rfl
  rw [List.nil_append] at hF hA
  have ht : t = ⟨fragments ++ s.lastFragment, actions, s.pos⟩ := by
    obtain rfl := Option.some.inj h
    rw [← hF, ← hA, Parser.lastFragment]
    split_ifs <;> simp
  rw [not_not] at hblocks
  rw [hblocks, hA] at hpending
  rw [ht]
  constructor
  · intro htiled
    exact (htiles.mp ⟨htiled.cursor, htiled.tiles⟩).1
  · intro hclose
    obtain ⟨hle, hT⟩ := htiles.mpr ⟨hclose, Nat.zero_le _⟩
    refine ⟨hT, ?_, hpending.nested, hle⟩
    rw [List.length_append, hlen, Parser.lastFragment]
    split_ifs
    · exact Or.inr rfl
    · exact Or.inl rfl

/-- A name behind a fragment. -/
theorem tiled_name : Tiled (fun i => (ascii "a\x7b\x7bb\x7d\x7d").getD i 0) 6
    ⟨[(0, 1)], [⟨.tag, 3, 4, 0⟩], 6⟩ :=
  (parse_tiled_iff (by decide +kernel)).mpr (by decide +kernel)

/-- A comment without text takes the character behind it, or leaves the cursor behind the end. -/
theorem not_parse_tiled :
    (parse (fun i => (ascii "\x7b\x7b!\x7d\x7dx").getD i 0) 6 =
        some ⟨[(0, 0)], [⟨.ignore, 3, 4, 0⟩], 6⟩ ∧
      ¬Tiled (fun i => (ascii "\x7b\x7b!\x7d\x7dx").getD i 0) 6
        ⟨[(0, 0)], [⟨.ignore, 3, 4, 0⟩], 6⟩) ∧
      parse (fun i => (ascii "\x7b\x7b!\x7d\x7d").getD i 0) 5 =
        some ⟨[(0, 0)], [⟨.ignore, 3, 4, 0⟩], 6⟩ ∧
      ¬Tiled (fun i => (ascii "\x7b\x7b!\x7d\x7d").getD i 0) 5
        ⟨[(0, 0)], [⟨.ignore, 3, 4, 0⟩], 6⟩ := by
  refine ⟨⟨by decide +kernel, fun h => ?_⟩, by decide +kernel, fun h => ?_⟩
  · obtain ⟨-, -, e, htag, hrest⟩ := tiles_cons.mp h.tiles
    obtain rfl : e = 6 := hrest
    have hlast := htag.last 5 (by decide +kernel) (by decide)
    exact absurd hlast (by decide +kernel)
  · exact absurd h.cursor (by decide)

end Suil.Mustache
