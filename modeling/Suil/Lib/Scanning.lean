/-
Reading a text from the left.

A reader looks at a text, and says what it has read and what is left of the text.  Two loops are
made of one: the first reads until it stands before a text at which to stop, the second reads items
that a separator is between and that a closing symbol is behind, and skips blanks around them.

* `turns_iff` — what the first loop reads, when it is known what one turn reads;
* `items_iff` — what the second loop reads: a list of items (`Listed`).
-/
import Mathlib

namespace Scanning

variable {α β : Type*}

/-- What stands for the values of a list stands for what is made of the values. -/
theorem forall₂_map_iff {γ : Type*} {R : α → β → Prop} {f : β → γ} {as : List α} {cs : List γ} :
    List.Forall₂ (fun a c => ∃ b, R a b ∧ c = f b) as cs ↔
      ∃ bs, List.Forall₂ R as bs ∧ cs = bs.map f := by
  constructor
  · intro h
    induction h with
    | nil => exact ⟨[], .nil, rfl⟩
    | cons hac _ ih =>
      obtain ⟨b, hb, rfl⟩ := hac
      obtain ⟨bs, hbs, rfl⟩ := ih
      exact ⟨b :: bs, .cons hb hbs, rfl⟩
  · rintro ⟨bs, h, rfl⟩
    induction h with
    | nil => exact .nil
    | cons hab _ ih => exact .cons ⟨_, hab, rfl⟩ ih

/-- A list of values that have a property, each with what stands for it. -/
theorem forall₂_and_eq_iff {P : β → Prop} {f : β → α} {as : List α} {bs : List β} :
    List.Forall₂ (fun a b => P b ∧ a = f b) as bs ↔ (∀ b ∈ bs, P b) ∧ as = bs.map f := by
  constructor
  · intro h
    induction h with
    | nil => exact ⟨List.forall_mem_nil _, rfl⟩
    | cons hab _ ih =>
      obtain ⟨hbs, rfl⟩ := ih
      obtain ⟨hb, rfl⟩ := hab
      exact ⟨List.forall_mem_cons.mpr ⟨hb, hbs⟩, rfl⟩
  · rintro ⟨h, rfl⟩
    rw [List.forall₂_map_left_iff, List.forall₂_same]
    exact fun b hb => ⟨h b hb, rfl⟩

/-! ### Until a text at which to stop -/

section Turns

variable {stop : List α → Bool} {turn : List α → Option (β × List α)} {Spelled : List α → β → Prop}
  {n : ℕ} {s t w : List α} {b : β} {bs : List β}

/-- Turn after turn, before a text at which to stop, and no more turns than given. -/
def turns (stop : List α → Bool) (turn : List α → Option (β × List α)) :
    ℕ → List α → Option (List β × List α)
  | 0, _ => none
  | n + 1, s =>
    if stop s then some ([], s)
    else (turn s).bind fun p => (turns stop turn n p.2).map fun q => (p.1 :: q.1, q.2)

/-- A turn reads what is spelled, whatever is behind it, and does so only where it should not
stop. -/
structure Reads (stop : List α → Bool) (turn : List α → Option (β × List α))
    (Spelled : List α → β → Prop) : Prop where
  turn_iff : ∀ {s b t}, stop s = false → (turn s = some (b, t) ↔ ∃ w, Spelled w b ∧ s = w ++ t)
  ne_nil : ∀ {w b}, Spelled w b → w ≠ []
  not_stop : ∀ {w b t}, Spelled w b → stop (w ++ t) = false

theorem Reads.lt (h : Reads stop turn Spelled) (hs : stop s = false) (ht : turn s = some (b, t)) :
    t.length < s.length := by
  obtain ⟨w, hw, rfl⟩ := (h.turn_iff hs).mp ht
  have hpos := List.length_pos_of_ne_nil (h.ne_nil hw)
  rw [List.length_append]
  omega

/-- **What the loop reads**: one spelling behind the other, up to a text at which to stop. -/
theorem turns_iff (h : Reads stop turn Spelled) (hn : s.length < n) :
    turns stop turn n s = some (bs, t) ↔
      ∃ ws, List.Forall₂ Spelled ws bs ∧ s = ws.flatten ++ t ∧ stop t = true := by
  induction n generalizing s bs with
  | zero => exact absurd hn (Nat.not_lt_zero _)
  | succ n ih =>
    rw [turns]
    by_cases hs : stop s = true
    · rw [if_pos hs, Option.some.injEq, Prod.mk.injEq]
      constructor
      · rintro ⟨rfl, rfl⟩
        exact ⟨[], .nil, rfl, hs⟩
      · rintro ⟨ws, hws, rfl, -⟩
        cases hws with
        | nil => exact ⟨rfl, rfl⟩
        | cons hw _ =>
          rw [List.flatten_cons, List.append_assoc, h.not_stop hw] at hs
          exact absurd hs Bool.false_ne_true
    · have hs' : stop s = false := Bool.eq_false_iff.mpr hs
      rw [if_neg hs]
      constructor
      · intro heq
        obtain ⟨⟨b, u⟩, hb, hrest⟩ := Option.bind_eq_some_iff.mp heq
        obtain ⟨⟨cs, v⟩, hcs, hout⟩ := Option.map_eq_some_iff.mp hrest
        obtain ⟨rfl, rfl⟩ := Prod.mk.injEq .. ▸ hout
        have hlt : u.length < s.length := h.lt hs' hb
        obtain ⟨ws, hws, rfl, hstop⟩ := (ih (show u.length < n by omega)).mp hcs
        obtain ⟨w, hw, rfl⟩ := (h.turn_iff hs').mp hb
        exact ⟨w :: ws, .cons hw hws, by simp, hstop⟩
      · rintro ⟨ws, hws, rfl, hstop⟩
        cases hws with
        | nil => exact absurd hstop hs
        | @cons w b ws bs hw hws =>
          have hb : turn ((w :: ws).flatten ++ t) = some (b, ws.flatten ++ t) :=
            (h.turn_iff hs').mpr ⟨w, hw, by simp⟩
          have hlt := h.lt hs' hb
          rw [hb, Option.bind_some, (ih (by omega)).mpr ⟨ws, hws, rfl, hstop⟩, Option.map_some]

end Turns

/-! ### Items with separators between -/

section Items

variable {blank : α → Bool} {sep close c : α} {item : List α → Option (β × List α)}
  {Item : List α → β → Prop} {n m : ℕ} {s t w r b : List α} {x : β} {xs : List β}

/-- A text of nothing but blanks. -/
def Blank (blank : α → Bool) (b : List α) : Prop := ∀ c ∈ b, blank c = true

/-- Items with a separator between and a closing symbol behind. -/
inductive Listed (blank : α → Bool) (sep close : α) (Item : List α → β → Prop) :
    List α → List β → Prop
  | last {w b : List α} {x : β} (hx : Item w x) (hb : Blank blank b) :
    Listed blank sep close Item (w ++ (b ++ [close])) [x]
  | more {w b b' t : List α} {x : β} {xs : List β} (hx : Item w x) (hb : Blank blank b)
    (hb' : Blank blank b') (ht : Listed blank sep close Item t xs) :
    Listed blank sep close Item (w ++ (b ++ sep :: (b' ++ t))) (x :: xs)

/-- Item after item, with blanks skipped before and behind the separator. -/
def items [DecidableEq α] (blank : α → Bool) (sep close : α) (item : List α → Option (β × List α)) :
    ℕ → List α → Option (List β × List α)
  | 0, _ => none
  | n + 1, s =>
    (item s).bind fun p =>
      match p.2.dropWhile blank with
      | [] => none
      | c :: r =>
        if c = close then some ([p.1], r)
        else if c = sep then
          (items blank sep close item n (r.dropWhile blank)).map fun q => (p.1 :: q.1, q.2)
        else none

/-- What stands behind an item of a list. -/
def Behind (blank : α → Bool) (sep close : α) (r : List α) : Prop :=
  ∃ b c t, Blank blank b ∧ (c = sep ∨ c = close) ∧ r = b ++ c :: t

/-- Behind blanks there is what the blanks are before. -/
theorem dropWhile_blank (hb : Blank blank b) (r : List α) :
    (b ++ r).dropWhile blank = r.dropWhile blank := by
  induction b with
  | nil => rfl
  | cons c b ih =>
    have hc := hb c (List.mem_cons_self ..)
    rw [List.cons_append, List.dropWhile_cons_of_pos hc]
    exact ih fun d hd => hb d (List.mem_cons_of_mem _ hd)

theorem dropWhile_blank_cons (hb : Blank blank b) (hc : blank c = false) (r : List α) :
    (b ++ c :: r).dropWhile blank = c :: r := by
  rw [dropWhile_blank hb, List.dropWhile_cons_of_neg (by rw [hc]; exact Bool.false_ne_true)]

theorem blank_takeWhile (blank : α → Bool) (s : List α) : Blank blank (s.takeWhile blank) :=
  fun _ hc => List.mem_takeWhile_imp hc

/-- A text is blanks, and what is left when they are skipped. -/
theorem exists_blank (blank : α → Bool) (s : List α) :
    ∃ b, Blank blank b ∧ s = b ++ s.dropWhile blank :=
  ⟨s.takeWhile blank, blank_takeWhile blank s, List.takeWhile_append_dropWhile.symm⟩

/-- The symbols of a list are no blanks, no item begins with one, and the items of texts up to a
length are read right when something of the list stands behind them. -/
structure ReadsItems (blank : α → Bool) (sep close : α) (item : List α → Option (β × List α))
    (Item : List α → β → Prop) (m : ℕ) : Prop where
  sep_ne : sep ≠ close
  blank_sep : blank sep = false
  blank_close : blank close = false
  head : ∀ {w x}, Item w x → ∃ c t, w = c :: t ∧ blank c = false
  item_iff : ∀ {s x r}, s.length ≤ m → Behind blank sep close r →
    (item s = some (x, r) ↔ ∃ w, Item w x ∧ s = w ++ r)

/-- A list begins as an item does. -/
theorem Listed.head (hhead : ∀ {w x}, Item w x → ∃ c t, w = c :: t ∧ blank c = false)
    (h : Listed blank sep close Item w xs) : ∃ c t, w = c :: t ∧ blank c = false := by
  cases h with
  | last hx _ =>
    obtain ⟨c, t, rfl, hc⟩ := hhead hx
    exact ⟨c, _, rfl, hc⟩
  | more hx _ _ _ =>
    obtain ⟨c, t, rfl, hc⟩ := hhead hx
    exact ⟨c, _, rfl, hc⟩

/-- What holds of the symbols, of the blanks and in the items holds all over a list. -/
theorem Listed.forall_mem {P : α → Prop} (hsep : P sep) (hclose : P close)
    (hblank : ∀ c, blank c = true → P c) (hitem : ∀ x ∈ xs, ∀ w, Item w x → ∀ c ∈ w, P c)
    (h : Listed blank sep close Item w xs) : ∀ c ∈ w, P c := by
  induction h with
  | @last w b x hx hb =>
    refine List.forall_mem_append.mpr ⟨hitem x (List.mem_singleton.mpr rfl) w hx,
      List.forall_mem_append.mpr ⟨fun c hc => hblank c (hb c hc), ?_⟩⟩
    exact List.forall_mem_singleton.mpr hclose
  | @more w b b' t x xs hx hb hb' _ ih =>
    refine List.forall_mem_append.mpr ⟨hitem x (List.mem_cons_self ..) w hx,
      List.forall_mem_append.mpr ⟨fun c hc => hblank c (hb c hc), List.forall_mem_cons.mpr ⟨hsep,
        List.forall_mem_append.mpr ⟨fun c hc => hblank c (hb' c hc), ?_⟩⟩⟩⟩
    exact ih fun y hy => hitem y (List.mem_cons_of_mem _ hy)

/-- Each value of a list has an item. -/
theorem Listed.exists_item (h : Listed blank sep close Item w xs) : ∀ x ∈ xs, ∃ w, Item w x := by
  induction h with
  | last hx _ => exact fun y hy => ⟨_, (List.mem_singleton.mp hy) ▸ hx⟩
  | more hx _ _ _ ih =>
    intro y hy
    rcases List.mem_cons.mp hy with rfl | hy
    · exact ⟨_, hx⟩
    · exact ih y hy

/-- A list of what is made of the values. -/
theorem Listed.map {γ : Type*} {f : γ → β} {ys : List γ}
    (h : Listed blank sep close (fun w y => Item w (f y)) w ys) :
    Listed blank sep close Item w (ys.map f) := by
  induction h with
  | last hx hb => exact .last hx hb
  | more hx hb hb' _ ih => exact .more hx hb hb' ih

/-- **What the loop over the items reads.** -/
theorem items_iff [DecidableEq α] (h : ReadsItems blank sep close item Item m) (hs : s.length ≤ m)
    (hn : s.length < n) :
    items blank sep close item n s = some (xs, r) ↔
      ∃ w, Listed blank sep close Item w xs ∧ s = w ++ r := by
  induction n generalizing s xs with
  | zero => exact absurd hn (Nat.not_lt_zero _)
  | succ n ih =>
    rw [items]
    constructor
    · intro heq
      obtain ⟨⟨x, u⟩, hx, hrest⟩ := Option.bind_eq_some_iff.mp heq
      obtain ⟨b, hb, hu⟩ := exists_blank blank u
      rcases hd : u.dropWhile blank with _ | ⟨c, t⟩
      · rw [hd] at hrest
        cases hrest
      rw [hd] at hrest hu
      dsimp only at hrest
      by_cases hclose : c = close
      · rw [if_pos hclose, Option.some.injEq, Prod.mk.injEq] at hrest
        obtain ⟨rfl, rfl⟩ := hrest
        obtain ⟨w, hw, rfl⟩ := (h.item_iff hs ⟨b, c, t, hb, .inr hclose, hu⟩).mp hx
        exact ⟨_, .last hw hb, by rw [hu, hclose]; simp⟩
      rw [if_neg hclose] at hrest
      by_cases hsep : c = sep
      · rw [if_pos hsep] at hrest
        obtain ⟨⟨ys, v⟩, hys, hout⟩ := Option.map_eq_some_iff.mp hrest
        obtain ⟨rfl, rfl⟩ := Prod.mk.injEq .. ▸ hout
        obtain ⟨w, hw, rfl⟩ := (h.item_iff hs ⟨b, c, t, hb, .inl hsep, hu⟩).mp hx
        obtain ⟨b', hb', ht⟩ := exists_blank blank t
        have hlen : (t.dropWhile blank).length ≤ t.length := List.length_dropWhile_le ..
        rw [hu, List.length_append, List.length_append, List.length_cons] at hs hn
        obtain ⟨w', hw', hd'⟩ := (ih (by omega) (by omega)).mp hys
        refine ⟨_, .more hw hb hb' hw', ?_⟩
        rw [hu, hsep]
        nth_rewrite 1 [ht]
        rw [hd']
        simp
      · rw [if_neg hsep] at hrest
        cases hrest
    · rintro ⟨_, hlisted, rfl⟩
      cases hlisted with
      | @last w b x hx hb =>
        have hitem := (h.item_iff hs (x := x) (r := b ++ close :: r)
          ⟨b, close, r, hb, .inr rfl, rfl⟩).mpr ⟨w, hx, by simp⟩
        rw [hitem, Option.bind_some]
        dsimp only
        rw [dropWhile_blank_cons hb h.blank_close]
        dsimp only
        rw [if_pos rfl]
      | @more w b b' t x xs hx hb hb' ht =>
        have hitem := (h.item_iff hs (x := x) (r := b ++ sep :: (b' ++ t ++ r))
          ⟨b, sep, _, hb, .inl rfl, rfl⟩).mpr ⟨w, hx, by simp⟩
        rw [hitem, Option.bind_some]
        dsimp only
        rw [dropWhile_blank_cons hb h.blank_sep]
        dsimp only
        rw [if_neg h.sep_ne, if_pos rfl]
        have hskip : (b' ++ t ++ r).dropWhile blank = t ++ r := by
          obtain ⟨c, t', rfl, hc⟩ := ht.head h.head
          rw [List.append_assoc]
          exact dropWhile_blank_cons hb' hc _
        rw [List.length_append, List.length_append, List.length_append, List.length_cons,
          List.length_append] at hs hn
        rw [hskip, (ih (by rw [List.length_append]; omega) (by rw [List.length_append]; omega)).mpr
          ⟨t, ht, rfl⟩, Option.map_some]

end Items

end Scanning
