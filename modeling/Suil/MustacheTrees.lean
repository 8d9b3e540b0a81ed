/-
The tree of a Mustache template.

What `parse` records is flat: the fragments, and the actions behind them.  As it closes
each block by its own tag, the actions are the tags of a tree, which is read off from
the right.

* `exists_doc` — nested actions with as many texts are the tags of a tree;
* `ofItems_items` — the tree is read off;
* `tree_of_parse` — the tree of a template that was parsed.
-/
import Suil.MustacheTiles

open Nesting

namespace Suil.Mustache

/-- A template as a tree: each tag with the text in front of it, and the last text. -/
inductive Doc where
  | text (text : Bytes)
  | tag (text : Bytes) (kind : ActionType) (name : Bytes) (rest : Doc)
  | block (text : Bytes) (name : Bytes) (body rest : Doc)
  | inverted (text : Bytes) (name : Bytes) (body : Bytes) (rest : Doc)
deriving DecidableEq

/-- A tag and the text in front of it. -/
structure Item where
  text : Bytes
  kind : ActionType
  name : Bytes
deriving DecidableEq

namespace Doc

/-- The text behind the last tag. -/
def last : Doc → Bytes
  | text t => t
  | tag _ _ _ rest => rest.last
  | block _ _ _ rest => rest.last
  | inverted _ _ _ rest => rest.last

/-- The tags, one behind the other. -/
def items : Doc → List Item
  | text _ => []
  | tag t kind name rest => ⟨t, kind, name⟩ :: rest.items
  | block t name body rest =>
    ⟨t, .openBlock, name⟩ :: (body.items ++ ⟨body.last, .closeBlock, name⟩ :: rest.items)
  | inverted t name body rest => ⟨t, .elseBlock, name⟩ :: ⟨body, .closeBlock, name⟩ :: rest.items

/-- The tags are of their kinds, and blocks have a name. -/
def Proper : Doc → Prop
  | text _ => True
  | tag _ kind _ rest =>
    kind ≠ .openBlock ∧ kind ≠ .elseBlock ∧ kind ≠ .closeBlock ∧ rest.Proper
  | block _ name body rest => name ≠ [] ∧ body.Proper ∧ rest.Proper
  | inverted _ _ _ rest => rest.Proper

end Doc

/-- A tag in front of the tree of what is behind it, below which are the trees of what is behind
the blocks around it. -/
def Item.before (x : Item) (trees : List Doc) : Option (List Doc) :=
  match x.kind, trees with
  | .closeBlock, d :: trees => some (.text x.text :: d :: trees)
  | .openBlock, body :: rest :: trees => some (.block x.text x.name body rest :: trees)
  | .openBlock, _ => none
  | .elseBlock, .text body :: rest :: trees => some (.inverted x.text x.name body rest :: trees)
  | .elseBlock, _ => none
  | kind, d :: trees => some (.tag x.text kind x.name d :: trees)
  | _, [] => none

def ofItems : List Item → List Doc → Option (List Doc)
  | [], trees => some trees
  | x :: xs, trees => (ofItems xs trees).bind x.before

section

variable (data : ℕ → UInt8)

/-- `fragString` -/
def fragString (f : ℕ × ℕ) : Bytes := (List.range' f.1 (f.2 - f.1)).map data

/-- The tags that texts and actions make. -/
def itemsOf (texts : List Bytes) (actions : List Action) : List Item :=
  List.zipWith (fun text a => ⟨text, a.tag, tagName data a⟩) texts actions

/-- The tags of a template. -/
def Template.items (t : Template) : List Item :=
  itemsOf data (t.fragments.map (fragString data)) t.actions

/-- The text behind the last tag, which may have no fragment. -/
def Template.last (t : Template) : Bytes :=
  ((t.fragments[t.actions.length]?).map (fragString data)).getD []

/-- The tree of a template; none when its blocks are not closed. -/
def Template.tree (t : Template) : Option Doc :=
  match ofItems (t.items data) [.text (t.last data)] with
  | some [d] => some d
  | _ => none

end

variable {data : ℕ → UInt8} {size i : ℕ} {s s' : Parser} {t : Template}

/-! ### Nested actions -/

theorem inverted_cons {a : Action} {as : List Action} (h : inverted (a :: as) = true) :
    inverted as = true := by
  cases as with
  | nil => rfl
  | cons b as => exact (Bool.and_eq_true_iff.mp h).2

theorem inverted_append (as bs : List Action) (h : inverted (as ++ bs) = true) :
    inverted as = true ∧ inverted bs = true := by
  induction as with
  | nil => exact ⟨rfl, h⟩
  | cons a as ih =>
    obtain ⟨has, hbs⟩ := ih (inverted_cons h)
    refine ⟨?_, hbs⟩
    cases as with
    | nil => rfl
    | cons b as => exact Bool.and_eq_true_iff.mpr ⟨(Bool.and_eq_true_iff.mp h).1, has⟩

theorem inverted_head {a b : Action} {as : List Action} (h : inverted (a :: b :: as) = true)
    (ha : a.tag = .elseBlock) : b.tag = .closeBlock := by
  rw [inverted, Bool.and_eq_true, ha] at h
  simpa using h.1

theorem itemsOf_append {texts texts' : List Bytes} {as bs : List Action}
    (h : texts.length = as.length) :
    itemsOf data (texts ++ texts') (as ++ bs) = itemsOf data texts as ++ itemsOf data texts' bs :=
  List.zipWith_append h

/-- What is nested begins with no closing tag. -/
theorem nil_of_head {u v : List Action} {c : Action}
    (h : Nested Action.Inner Action.Opens (Closes data) i u)
    (hc : ∀ a as, u ++ c :: v = a :: as → a.tag = .closeBlock) : u = [] := by
  cases h with
  | nil => rfl
  | cons ha hw => exact absurd (hc _ _ rfl) ha.2
  | block ho hclose hu hv =>
    have htag := hc _ _ rfl
    rcases ho with ho | ho <;> rw [ho] at htag <;> cases htag

/-- **Nested actions** with as many texts are the tags of a tree, whatever its last text. -/
theorem exists_doc {w : List Action} (h : Nested Action.Inner Action.Opens (Closes data) i w)
    {texts : List Bytes} (hlen : texts.length = w.length) (hinverted : inverted w = true)
    (hnames : ∀ a ∈ w, a.tag = .openBlock → tagName data a ≠ []) (last : Bytes) :
    ∃ d : Doc, d.Proper ∧ d.last = last ∧ d.items = itemsOf data texts w := by
  induction h generalizing texts last with
  | nil i =>
    obtain rfl := List.length_eq_zero_iff.mp hlen
    exact ⟨.text last, trivial, rfl, rfl⟩
  | @cons i a w ha hw ih =>
    obtain ⟨text, texts, rfl⟩ := List.exists_cons_of_length_eq_add_one hlen
    obtain ⟨rest, hproper, hlast, hitems⟩ := ih (Nat.succ.inj hlen)
      (inverted_cons hinverted) (fun b hb => hnames b (List.mem_cons_of_mem a hb)) last
    obtain ⟨hopen, helse⟩ := not_or.mp ha.1
    refine ⟨.tag text a.tag (tagName data a) rest, ⟨hopen, helse, ha.2, hproper⟩, hlast, ?_⟩
    rw [Doc.items, hitems]
    rfl
  | @block i o c u v ho hc hu hv ihu ihv =>
    obtain ⟨text, texts, rfl⟩ := List.exists_cons_of_length_eq_add_one hlen
    rw [List.length_cons, List.length_cons, List.length_append, List.length_cons] at hlen
    obtain ⟨textsu, texts, rfl, hlenu⟩ : ∃ textsu texts', texts = textsu ++ texts' ∧
        textsu.length = u.length := by
      refine ⟨texts.take u.length, texts.drop u.length, (List.take_append_drop _ _).symm, ?_⟩
      rw [List.length_take]
      omega
    rw [List.length_append, hlenu] at hlen
    obtain ⟨textc, texts, rfl⟩ := List.exists_cons_of_length_eq_add_one
      (show texts.length = v.length + 1 by omega)
    have hlenv : texts.length = v.length := by
      rw [List.length_cons] at hlen
      omega
    have hitems : itemsOf data (text :: (textsu ++ textc :: texts)) (o :: (u ++ c :: v)) =
        ⟨text, o.tag, tagName data o⟩ :: (itemsOf data textsu u ++
          ⟨textc, .closeBlock, tagName data o⟩ :: itemsOf data texts v) := by
      have hcons : itemsOf data (textsu ++ textc :: texts) (u ++ c :: v) =
          itemsOf data textsu u ++ ⟨textc, c.tag, tagName data c⟩ :: itemsOf data texts v :=
        itemsOf_append hlenu
      rw [hc.1, ← hc.2.2] at hcons
      exact congrArg (List.cons _) hcons
    obtain ⟨hinvertedu, hinvertedc⟩ := inverted_append u (c :: v) (inverted_cons hinverted)
    obtain ⟨rest, hproper, hlast, hrest⟩ := ihv hlenv (inverted_cons hinvertedc)
      (fun a ha => hnames a (by simp [ha])) last
    rcases ho with ho | ho
    · obtain ⟨body, hproperb, hlastb, hbody⟩ := ihu hlenu hinvertedu
        (fun a ha => hnames a (by simp [ha])) textc
      refine ⟨.block text (tagName data o) body rest,
        ⟨hnames o List.mem_cons_self ho, hproperb, hproper⟩, hlast, ?_⟩
      rw [hitems, Doc.items, hrest, hbody, hlastb, ho]
    · -- an inverted section has only text in it
      obtain rfl : u = [] := by
        refine nil_of_head (c := c) (v := v) hu fun a as heq => ?_
        rw [heq] at hinverted
        exact inverted_head hinverted ho
      obtain rfl := List.length_eq_zero_iff.mp hlenu
      refine ⟨.inverted text (tagName data o) textc rest, hproper, hlast, ?_⟩
      rw [hitems, Doc.items, hrest, ho]
      rfl

theorem ofItems_append (xs ys : List Item) (trees : List Doc) :
    ofItems (xs ++ ys) trees = (ofItems ys trees).bind (ofItems xs) := by
  induction xs with
  | nil =>
    rw [List.nil_append]
    cases ofItems ys trees <;> rfl
  | cons x xs ih =>
    rw [List.cons_append, ofItems, ih, Option.bind_assoc]
    rfl

/-- **The tree** is read off from its tags. -/
theorem ofItems_items {d : Doc} (h : d.Proper) (trees : List Doc) :
    ofItems d.items (.text d.last :: trees) = some (d :: trees) := by
  induction d generalizing trees with
  | text t => rfl
  | tag t kind name rest ih =>
    obtain ⟨hopen, helse, hclose, hproper⟩ := h
    rw [Doc.items, Doc.last, ofItems, ih hproper, Option.bind_some]
    cases kind with
    | openBlock => exact absurd rfl hopen
    | elseBlock => exact absurd rfl helse
    | closeBlock => exact absurd rfl hclose
    | ignore => rfl
    | tag => rfl
    | unEscapeTag => rfl
    | partialTag => rfl
  | block t name body rest ihb ihr =>
    obtain ⟨-, hproperb, hproper⟩ := h
    -- the closing tag puts the tree of the block on that of what is behind it
    have hclose : ofItems (body.items ++ ⟨body.last, .closeBlock, name⟩ :: rest.items)
        (.text rest.last :: trees) = some (body :: rest :: trees) := by
      rw [ofItems_append, ofItems, ihr hproper]
      exact ihb hproperb _
    rw [Doc.items, Doc.last, ofItems, hclose]
    rfl
  | inverted t name body rest ih =>
    rw [Doc.items, Doc.last, ofItems, ofItems, ih h]
    rfl

/-! ### What was parsed -/

/-- What `parse` looks after: a fragment in front of each action and at most one behind them, blocks
that are closed, inverted sections with only text in them, and names. -/
structure Shaped (data : ℕ → UInt8) (t : Template) : Prop where
  count : t.fragments.length = t.actions.length ∨ t.fragments.length = t.actions.length + 1
  blocks : Nested Action.Inner Action.Opens (Closes data) 0 t.actions
  inverted : inverted t.actions = true
  names : ∀ a ∈ t.actions, a.tag ≠ .ignore → tagName data a ≠ []

theorem toLastIndex_lt {chs : Bytes} {start last pos : ℕ}
    (h : toLastIndex data size chs i = some (start, last, pos)) : start < last := by
  rw [toLastIndex] at h
  simp only at h
  split_ifs at h
  obtain ⟨rfl, rfl, -⟩ := Prod.mk.inj (Option.some.inj h)
  exact (skip_spec data _ _ _).1

theorem tagName_ne_nil {a : Action} (h : a.first < a.last) : tagName data a ≠ [] := by
  rw [tagName, Ne, List.map_eq_nil_iff, List.range'_eq_nil_iff]
  omega

/-- Only comments have no name. -/
theorem readTag_named (h : readTag data size s = some s') :
    ∃ a, s'.actions = s.actions ++ [a] ∧ (a.tag ≠ .ignore → a.first < a.last) := by
  have hnamed : ∀ {kind chs k}, named data size kind chs s k = some s' →
      ∃ a, s'.actions = s.actions ++ [a] ∧ (a.tag ≠ .ignore → a.first < a.last) := by
    intro kind chs k hn
    obtain ⟨⟨start, last, pos⟩, hname, hs'⟩ := Option.bind_eq_some_iff.mp hn
    exact ⟨_, by rw [← Option.some.inj hs']; rfl, fun _ => toLastIndex_lt hname⟩
  have hopened : ∀ {kind k}, opened data size kind s k = some s' →
      ∃ a, s'.actions = s.actions ++ [a] ∧ (a.tag ≠ .ignore → a.first < a.last) := by
    intro kind k hn
    obtain ⟨⟨start, last, pos⟩, hname, hs'⟩ := Option.bind_eq_some_iff.mp hn
    exact ⟨_, by rw [← Option.some.inj hs']; rfl, fun _ => toLastIndex_lt hname⟩
  rw [readTag] at h
  split at h
  next => exact hopened h
  next =>
    split at h
    · cases h
    · obtain ⟨o, ho, h⟩ := Option.bind_eq_some_iff.mp h
      obtain ⟨⟨start, last, pos⟩, hname, h⟩ := Option.bind_eq_some_iff.mp h
      obtain ⟨-, hs'⟩ := Option.ite_none_left_eq_some.mp h
      exact ⟨_, by rw [← Option.some.inj hs']; rfl, fun _ => toLastIndex_lt hname⟩
  next => exact hopened h
  next =>
    obtain ⟨-, hs'⟩ := Option.ite_none_left_eq_some.mp h
    exact ⟨_, by rw [← Option.some.inj hs']; rfl, fun hne => absurd rfl hne⟩
  next => exact hnamed h
  next =>
    obtain ⟨⟨start, last, pos⟩, hname, h⟩ := Option.bind_eq_some_iff.mp h
    obtain ⟨-, hs'⟩ := Option.ite_none_left_eq_some.mp h
    exact ⟨_, by rw [← Option.some.inj hs']; rfl, fun _ => toLastIndex_lt hname⟩
  next => exact hnamed h
  next => cases h
  next => exact hnamed h

/-- Behind every turn of the loop there are as many fragments as actions, which have names. -/
theorem loop_named {n : ℕ} (h : loop data size n s = some s')
    (hs : s.fragments.length = s.actions.length ∧
      ∀ a ∈ s.actions, a.tag ≠ .ignore → tagName data a ≠ []) :
    s'.fragments.length = s'.actions.length ∧
      ∀ a ∈ s'.actions, a.tag ≠ .ignore → tagName data a ≠ [] := by
  refine loop_rule (I := fun s => s.fragments.length = s.actions.length ∧
    ∀ a ∈ s.actions, a.tag ≠ .ignore → tagName data a ≠ []) (fun s s' hs hstep => ?_) h hs
  rcases step_cases hstep with ⟨-, rfl⟩ | ⟨hopens, a, pos, blocks, rfl, -, -, -⟩
  · exact hs
  rw [step, if_pos hopens] at hstep
  obtain ⟨b, hb, hname⟩ := readTag_named hstep
  obtain rfl : a = b := by simpa using hb
  refine ⟨?_, fun b hb hne => ?_⟩
  · simp [hs.1]
  · rcases List.mem_append.mp hb with hb | hb
    · exact hs.2 b hb hne
    · obtain rfl := List.mem_singleton.mp hb
      exact tagName_ne_nil (hname hne)

theorem shaped_of_parse (h : parse data size = some t) : Shaped data t := by
  rw [parse] at h
  split_ifs at h with hzero
  · obtain rfl := Option.some.inj h
    exact ⟨Or.inl rfl, .nil 0, rfl, List.forall_mem_nil _⟩
  obtain ⟨s, hloop, h⟩ := Option.bind_eq_some_iff.mp h
  obtain ⟨hblocks, h⟩ := Option.ite_none_left_eq_some.mp h
  obtain ⟨hinverted, h⟩ := Option.ite_none_right_eq_some.mp h
  obtain ⟨hlen, hnames⟩ := loop_named hloop ⟨rfl, List.forall_mem_nil _⟩
  have hpending := loop_pending hloop (.nil (.nil 0))
  rw [not_not.mp hblocks] at hpending
  obtain rfl := Option.some.inj h
  refine ⟨?_, hpending.nested, hinverted, hnames⟩
  simp only
  split_ifs
  · exact Or.inr (by simp [hlen])
  · exact Or.inl hlen

/-- What a tree says of a template: its tags are the actions with the fragments in front of them,
and its last text is the fragment behind them, if any. -/
structure IsTree (data : ℕ → UInt8) (t : Template) (d : Doc) : Prop where
  proper : d.Proper
  items : d.items = t.items data
  last : d.last = t.last data

/-- **The tree of a template** that was parsed. -/
theorem Shaped.tree (h : Shaped data t) : ∃ d, t.tree data = some d ∧ IsTree data t d := by
  have hlen : ((t.fragments.map (fragString data)).take t.actions.length).length =
      t.actions.length := by
    rw [List.length_take, List.length_map]
    have hcount := h.count
    omega
  have hitems : itemsOf data ((t.fragments.map (fragString data)).take t.actions.length) t.actions =
      t.items data := by
    rw [← List.take_of_length_le (l := t.items data) (i := t.actions.length)
      (by simp [Template.items, itemsOf]), Template.items, itemsOf, itemsOf, List.take_zipWith,
      List.take_length]
  obtain ⟨d, hproper, hlast, hd⟩ := exists_doc h.blocks hlen h.inverted
    (fun a ha hopen => h.names a ha (by simp [hopen])) (t.last data)
  rw [hitems] at hd
  refine ⟨d, ?_, hproper, hd, hlast⟩
  rw [Template.tree, ← hd, ← hlast, ofItems_items hproper]

end Suil.Mustache
