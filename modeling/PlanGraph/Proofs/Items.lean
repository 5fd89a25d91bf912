import PlanGraph.Bracket.Items
import PlanGraph.Proofs.Nesting

set_option autoImplicit false

/-! # Items of a written list

A list is written with a comma and a space between its items (`listed`). Its items are found by one
count of all four kinds of brackets, in which a closing bracket with no opening one does not count
(`depthBehind`). So an item is kept whole if no comma of it stands at depth zero, and the next item
is kept apart from it if it ends at depth zero. For items without quotes this is all there is to it:
a list is read as its items exactly if they are `Apart` (`split_listed_iff`). Items whose brackets
nest are, whatever else they hold (`apart_of_nested`); a comparison such as `<a < b>` opens more
than it closes and is not. -/

namespace PlanGraph

namespace Items

/-! ## Depth -/

/-- The depth behind a character. -/
def depthAfter (depth : Nat) (x : Char) : Nat :=
  if (Bracket.ofOpening? x).isSome then depth + 1
  else if (Bracket.ofClosing? x).isSome then depth - 1
  else depth

/-- The depth behind a text. -/
def depthBehind (depth : Nat) (t : Text) : Nat := t.foldl depthAfter depth

/-- A text without a comma at depth zero. -/
def Unbroken : Nat → Text → Prop
  | _, [] => True
  | depth, x :: rest => (x = ',' → 0 < depth) ∧ Unbroken (depthAfter depth x) rest

instance Unbroken.decidable : (depth : Nat) → (t : Text) → Decidable (Unbroken depth t)
  | _, [] => isTrue trivial
  | depth, x :: rest =>
    have := Unbroken.decidable (depthAfter depth x) rest
    inferInstanceAs (Decidable ((x = ',' → 0 < depth) ∧ Unbroken (depthAfter depth x) rest))

@[simp]
theorem depthBehind_nil (depth : Nat) : depthBehind depth [] = depth := rfl

@[simp]
theorem depthBehind_cons (depth : Nat) (x : Char) (t : Text) :
    depthBehind depth (x :: t) = depthBehind (depthAfter depth x) t := rfl

@[simp]
theorem depthBehind_append (depth : Nat) (s t : Text) :
    depthBehind depth (s ++ t) = depthBehind (depthBehind depth s) t :=
  List.foldl_append

theorem unbroken_append {depth : Nat} {s t : Text} :
    Unbroken depth (s ++ t) ↔ Unbroken depth s ∧ Unbroken (depthBehind depth s) t := by
  induction s generalizing depth with
  | nil => simp [Unbroken]
  | cons x s ih => simp only [List.cons_append, Unbroken, ih, depthBehind_cons, and_assoc]

/-- A broken text is cut at its first comma at depth zero. -/
theorem exists_break {depth : Nat} {t : Text} (h : ¬ Unbroken depth t) :
    ∃ a b, t = a ++ ',' :: b ∧ Unbroken depth a ∧ depthBehind depth a = 0 := by
  induction t generalizing depth with
  | nil => exact absurd trivial h
  | cons x rest ih =>
      by_cases hx : x = ',' → 0 < depth
      · obtain ⟨a, b, rfl, ha, hdepth⟩ := ih fun hrest => h ⟨hx, hrest⟩
        exact ⟨x :: a, b, rfl, ⟨hx, ha⟩, hdepth⟩
      · rw [Classical.not_imp, Nat.not_lt, Nat.le_zero] at hx
        exact ⟨[], rest, by rw [hx.1]; rfl, trivial, hx.2⟩

/-! ## Pieces -/

/-- A text without quotes. -/
def Unquoted (t : Text) : Prop := '"' ∉ t ∧ '\'' ∉ t

instance (t : Text) : Decidable (Unquoted t) := inferInstanceAs (Decidable (_ ∧ _))

theorem unquoted_cons {x : Char} {t : Text} :
    Unquoted (x :: t) ↔ (x ≠ '"' ∧ x ≠ '\'') ∧ Unquoted t := by
  simp only [Unquoted, List.mem_cons, not_or]
  tauto

theorem unquoted_append {s t : Text} : Unquoted (s ++ t) ↔ Unquoted s ∧ Unquoted t := by
  simp only [Unquoted, List.mem_append, not_or]
  tauto

theorem unquote_of_unquoted {t : Text} (h : Unquoted t) : Note.unquote t = t.trim := by
  obtain ⟨a, b, -, -, ht⟩ := Text.exists_margins t
  rw [ht] at h
  have htrim : Unquoted t.trim := (unquoted_append.1 (unquoted_append.1 h).1).2
  rw [Note.unquote]
  split
  · next hnil => exact hnil.symm
  · next q rest hcons =>
      rw [hcons, unquoted_cons] at htrim
      rw [if_neg (by simp [htrim.1]), hcons]

/-- A text in which no quote opens an item, read behind `current`. -/
def Quiet : Text → Text → Prop
  | _, [] => True
  | current, x :: rest =>
    (x = '"' ∨ x = '\'' → opensItem current = false) ∧ Quiet (x :: current) rest

theorem quiet_of_unquoted {t : Text} (h : Unquoted t) (current : Text) : Quiet current t := by
  induction t generalizing current with
  | nil => trivial
  | cons x t ih =>
      obtain ⟨hx, ht⟩ := unquoted_cons.1 h
      exact ⟨fun hquote => absurd hquote (not_or.2 hx), ih ht _⟩

/-- One step of the cut, at a character that does not open a quoted item. -/
theorem pieces_cons {x : Char} {current : Text}
    (hx : x = '"' ∨ x = '\'' → opensItem current = false) (depth : Nat) (rest : Text) :
    pieces ',' depth none current (x :: rest) =
      if x = ',' ∧ depth = 0 then current.reverse :: pieces ',' 0 none [] rest
      else pieces ',' (depthAfter depth x) none (x :: current) rest := by
  have hquote : ¬ ((x = '"' ∨ x = '\'') ∧ opensItem current = true) := by
    rintro ⟨hquote, hopens⟩
    rw [hx hquote] at hopens
    cases hopens
  rw [pieces, if_neg hquote, depthAfter]
  by_cases hcomma : x = ','
  · subst hcomma
    have hneither : Bracket.ofOpening? ',' = none ∧ Bracket.ofClosing? ',' = none := ⟨rfl, rfl⟩
    rw [hneither.1, hneither.2]
    by_cases hdepth : depth = 0 <;> simp [hdepth]
  · simp only [hcomma, false_and, if_false]
    split
    · rfl
    · split <;> rfl

/-- An unbroken text whose quotes open nothing only adds to the present piece. -/
theorem pieces_append {s current : Text} (hs : Quiet current s) {depth : Nat}
    (h : Unbroken depth s) (rest : Text) :
    pieces ',' depth none current (s ++ rest) =
      pieces ',' (depthBehind depth s) none (s.reverse ++ current) rest := by
  induction s generalizing depth current with
  | nil => rfl
  | cons x s ih =>
      have hcut : ¬ (x = ',' ∧ depth = 0) := fun hcut => absurd hcut.2 (Nat.pos_iff_ne_zero.1 (h.1 hcut.1))
      rw [List.cons_append, pieces_cons hs.1, if_neg hcut, ih hs.2 h.2]
      simp

/-- The present piece is what the first piece starts with. -/
theorem pieces_current {t : Text} (ht : Unquoted t) (depth : Nat) (current : Text) :
    pieces ',' depth none current t =
      (pieces ',' depth none [] t).modifyHead (current.reverse ++ ·) := by
  induction t generalizing depth current with
  | nil => simp [pieces]
  | cons x t ih =>
      obtain ⟨hx, ht⟩ := unquoted_cons.1 ht
      have hquote : ¬ (x = '"' ∨ x = '\'') := not_or.2 hx
      rw [pieces_cons fun h => absurd h hquote, pieces_cons fun h => absurd h hquote]
      split
      · simp
      · rw [ih ht _ (x :: current), ih ht _ [x], List.modifyHead_modifyHead]
        congr 1
        funext piece
        simp

/-- The first piece is a front of the text. -/
theorem exists_pieces (separator : Char) (depth : Nat) (quote : Option Char) (current t : Text) :
    ∃ front more, front <+: t ∧
      pieces separator depth quote current t = (current.reverse ++ front) :: more := by
  fun_induction pieces separator depth quote current t
  case case1 => exact ⟨[], [], List.nil_prefix, by simp⟩
  case case6 => exact ⟨[], _, List.nil_prefix, by rw [List.append_nil]⟩
  all_goals
    -- the character goes to the present piece
    rename_i ih
    obtain ⟨front, more, hfront, hpieces⟩ := ih
    exact ⟨_ :: front, more, List.cons_prefix_cons.2 ⟨rfl, hfront⟩, by simpa using hpieces⟩

theorem mem_of_mem_pieces {separator : Char} {depth : Nat} {quote : Option Char}
    {current t piece : Text} (h : piece ∈ pieces separator depth quote current t) :
    ∀ x ∈ piece, x ∈ current ∨ x ∈ t := by
  fun_induction pieces separator depth quote current t
  case case1 => simp_all
  case case6 ih =>
    rcases List.mem_cons.1 h with rfl | h
    · intro x hx
      exact Or.inl (List.mem_reverse.1 hx)
    · intro x hx
      exact Or.inr (List.mem_cons_of_mem _ (by simpa using ih h x hx))
  all_goals
    rename_i ih
    intro x hx
    have := ih h x hx
    grind

/-! ## Items -/

theorem mem_split {separator : Char} {t item : Text} :
    item ∈ split separator t ↔
      ∃ piece ∈ pieces separator 0 none [] t, piece.trim = item ∧ item ≠ [] := by
  rw [split, List.mem_filter, List.mem_map]
  constructor
  · rintro ⟨⟨piece, hpiece, rfl⟩, hne⟩
    exact ⟨piece, hpiece, rfl, by simpa using hne⟩
  · rintro ⟨piece, hpiece, rfl, hne⟩
    exact ⟨⟨piece, hpiece, rfl⟩, by simpa using hne⟩

theorem tight_of_mem_split {separator : Char} {t item : Text} (h : item ∈ split separator t) :
    Text.Tight item := by
  obtain ⟨piece, -, rfl, -⟩ := mem_split.1 h
  exact Text.tight_trim piece

theorem unquoted_of_mem_split {separator : Char} {t item : Text} (ht : Unquoted t)
    (h : item ∈ split separator t) : Unquoted item := by
  obtain ⟨piece, hpiece, rfl, -⟩ := mem_split.1 h
  obtain ⟨a, b, -, -, hmargins⟩ := Text.exists_margins piece
  have hmem : ∀ x ∈ piece.trim, x ∈ t := by
    intro x hx
    have hx : x ∈ piece := by rw [hmargins]; simp [hx]
    simpa using mem_of_mem_pieces hpiece x hx
  exact ⟨fun h => ht.1 (hmem _ h), fun h => ht.2 (hmem _ h)⟩

/-- Items of a text without quotes are already as they are meant. -/
theorem map_unquote_split {separator : Char} {t : Text} (ht : Unquoted t) :
    (split separator t).map (fun item => (Note.unquote item).trim) = split separator t := by
  have hsame : ∀ item ∈ split separator t, (Note.unquote item).trim = id item := by
    intro item hitem
    have htrim := Text.trim_of_tight (tight_of_mem_split hitem)
    rw [unquote_of_unquoted (unquoted_of_mem_split ht hitem), htrim, htrim, id]
  rw [List.map_congr_left hsame, List.map_id]

/-- A blank in front of a list does not matter. -/
theorem split_space_cons {t : Text} (ht : Unquoted t) : split ',' (' ' :: t) = split ',' t := by
  obtain ⟨front, more, -, hpieces⟩ := exists_pieces ',' 0 none [] t
  have hspace : pieces ',' 0 none [] (' ' :: t) = pieces ',' 0 none [' '] t := by
    rw [pieces_cons (by simp), if_neg (by decide)]
    rfl
  have htrim : Text.trim (' ' :: front) = Text.trim front := by
    rw [Text.trim, ← List.singleton_append, Text.trimStart_append _ Text.AllBlank.space, Text.trim]
  rw [split, hspace, pieces_current ht, hpieces, split, hpieces]
  simp [htrim]

/-- A text that is not broken and ends at depth zero is cut off by the comma behind it. -/
theorem split_append_cons {a : Text} (ha : Unquoted a) (hone : Unbroken 0 a)
    (hdepth : depthBehind 0 a = 0) (hne : a.trim ≠ []) (rest : Text) :
    split ',' (a ++ ',' :: rest) = a.trim :: split ',' rest := by
  rw [split, pieces_append (quiet_of_unquoted ha []) hone, hdepth, pieces_cons (by simp),
    if_pos ⟨rfl, rfl⟩, split]
  simp [hne]

/-- The first item is a front of the text, if that does not open with a blank or a comma. -/
theorem exists_split_cons {x : Char} (hblank : isBlank x = false) (hx : x ≠ ',') (t : Text) :
    ∃ front items, front <+: t ∧ split ',' (x :: t) = (x :: front) :: items := by
  obtain ⟨depth, quote, hpieces⟩ : ∃ depth quote,
      pieces ',' 0 none [] (x :: t) = pieces ',' depth quote [x] t := by
    rw [pieces]
    split
    · exact ⟨_, _, rfl⟩
    · split
      · exact ⟨_, _, rfl⟩
      · split
        · exact ⟨_, _, rfl⟩
        · rw [if_neg (fun h => hx h.1)]
          exact ⟨_, _, rfl⟩
  obtain ⟨front, more, hfront, hfirst⟩ := exists_pieces ',' depth quote [x] t
  have htrim : Text.trim (x :: front) = x :: Text.trimEnd front := by
    rw [Text.trim, Text.trimStart_of_head (by simpa using hblank), ← List.singleton_append,
      Text.trimEnd_append_of_last _ (by simpa using hblank), List.singleton_append]
  refine ⟨Text.trimEnd front, (more.map Text.trim).filter (!·.isEmpty),
    (List.rdropWhile_prefix isBlank front).trans hfront, ?_⟩
  rw [split, hpieces, hfirst]
  simp [htrim]

/-! ## Written lists -/

/-- A list of items as it is written. -/
def listed : List Text → Text
  | [] => []
  | [item] => item
  | item :: items => item ++ ',' :: ' ' :: listed items

/-- Items that a list keeps apart: each is in one piece, and all but the last end at depth zero. -/
def Apart : List Text → Prop
  | [] => True
  | [item] => Unbroken 0 item
  | item :: items => Unbroken 0 item ∧ depthBehind 0 item = 0 ∧ Apart items

instance Apart.decidable : (items : List Text) → Decidable (Apart items)
  | [] => isTrue trivial
  | [item] => inferInstanceAs (Decidable (Unbroken 0 item))
  | item :: next :: items =>
    have := Apart.decidable (next :: items)
    inferInstanceAs
      (Decidable (Unbroken 0 item ∧ depthBehind 0 item = 0 ∧ Apart (next :: items)))

/-- What can stand as an item of a list without quotes. -/
structure IsItem (t : Text) : Prop where
  unquoted : Unquoted t
  tight : Text.Tight t
  front : ∃ x ∈ t.head?, x ≠ ','

theorem IsItem.ne_nil {t : Text} (h : IsItem t) : t ≠ [] := by
  rintro rfl
  obtain ⟨x, hx, -⟩ := h.front
  cases hx

/-- A broken item is cut short. -/
theorem IsItem.split_ne_of_broken {item : Text} (h : IsItem item) (hbroken : ¬ Unbroken 0 item)
    (rest : Text) (items : List Text) : split ',' (item ++ rest) ≠ item :: items := by
  obtain ⟨a, b, rfl, hone, hdepth⟩ := exists_break hbroken
  obtain ⟨x, hx, hcomma⟩ := h.front
  have hxa : x ∈ a := by
    cases a with
    | nil => exact absurd (Option.some.inj hx).symm hcomma
    | cons y a =>
        obtain rfl : y = x := Option.some.inj hx
        exact List.mem_cons_self
  rw [List.append_assoc, List.cons_append, split_append_cons (unquoted_append.1 h.unquoted).1 hone
    hdepth (Text.trim_ne_nil hxa (h.tight.1 x hx))]
  intro heq
  have hlength := Text.length_trim_le a
  rw [(List.cons.inj heq).1, List.length_append, List.length_cons] at hlength
  omega

/-- An item that ends inside a bracket runs on behind the comma. -/
theorem IsItem.split_ne_of_open {item : Text} (h : IsItem item) (hone : Unbroken 0 item)
    (hdepth : depthBehind 0 item ≠ 0) (rest : Text) (items : List Text) :
    split ',' (item ++ ',' :: rest) ≠ item :: items := by
  obtain ⟨front, more, -, hpieces⟩ :=
    exists_pieces ',' (depthAfter (depthBehind 0 item) ',') none (',' :: item.reverse) rest
  obtain ⟨x, hx, -⟩ := h.front
  have hhead : ∀ y ∈ (item ++ ',' :: front).head?, isBlank y = false := by
    rw [List.head?_append, Option.mem_def.1 hx]
    simpa using h.tight.1 x hx
  have htrim : Text.trim (item ++ ',' :: front) = item ++ ',' :: Text.trimEnd front := by
    have hcomma : ∀ y ∈ (item ++ [',']).getLast?, isBlank y = false := by
      rw [List.getLast?_concat]
      rintro y ⟨⟩
      decide
    rw [Text.trim, Text.trimStart_of_head hhead, List.append_cons,
      Text.trimEnd_append_of_last front hcomma, ← List.append_cons]
  have hfirst : split ',' (item ++ ',' :: rest) =
      (item ++ ',' :: Text.trimEnd front) :: (more.map Text.trim).filter (!·.isEmpty) := by
    rw [split, pieces_append (quiet_of_unquoted h.unquoted []) hone, pieces_cons (by simp),
      if_neg (fun hcut => hdepth hcut.2), List.append_nil, hpieces]
    simp [htrim]
  rw [hfirst]
  intro heq
  have hlength := congrArg List.length (List.cons.inj heq).1
  simp at hlength

theorem listed_cons_cons (item next : Text) (items : List Text) :
    listed (item :: next :: items) = item ++ ',' :: ' ' :: listed (next :: items) := rfl

theorem unquoted_listed {items : List Text} (h : ∀ item ∈ items, Unquoted item) :
    Unquoted (listed items) := by
  fun_induction listed items with
  | case1 => decide
  | case2 item => exact h item List.mem_cons_self
  | case3 item items _ ih =>
      refine unquoted_append.2 ⟨h item List.mem_cons_self, ?_⟩
      simpa [unquoted_cons] using ih fun item hitem => h item (List.mem_cons_of_mem _ hitem)

/-- A written list is read as its items exactly if they are kept apart. -/
theorem split_listed_iff {items : List Text} (h : ∀ item ∈ items, IsItem item) :
    split ',' (listed items) = items ↔ Apart items := by
  induction items with
  | nil => exact ⟨fun _ => trivial, fun _ => rfl⟩
  | cons item items ih =>
      have hitem : IsItem item := h item List.mem_cons_self
      have htrim : item.trim = item := Text.trim_of_tight hitem.tight
      cases items with
      | nil =>
          show split ',' item = [item] ↔ Unbroken 0 item
          constructor
          · intro hsplit
            by_contra hbroken
            exact hitem.split_ne_of_broken hbroken [] [] (by rwa [List.append_nil])
          · intro hone
            have hpieces := pieces_append (quiet_of_unquoted hitem.unquoted []) hone []
            rw [List.append_nil] at hpieces
            rw [split, hpieces]
            simp [pieces, htrim, hitem.ne_nil]
      | cons next items =>
          have hitems : ∀ i ∈ next :: items, IsItem i := fun i hi => h i (List.mem_cons_of_mem _ hi)
          have hrest := unquoted_listed fun i hi => (hitems i hi).unquoted
          show split ',' (item ++ ',' :: ' ' :: listed (next :: items)) = item :: next :: items ↔
            Unbroken 0 item ∧ depthBehind 0 item = 0 ∧ Apart (next :: items)
          by_cases hone : Unbroken 0 item
          · by_cases hdepth : depthBehind 0 item = 0
            · rw [split_append_cons hitem.unquoted hone hdepth (by rw [htrim]; exact hitem.ne_nil),
                htrim, split_space_cons hrest, List.cons.injEq, ih hitems]
              simp [hone, hdepth]
            · exact iff_of_false (hitem.split_ne_of_open hone hdepth _ _) fun hall => hdepth hall.2.1
          · exact iff_of_false (hitem.split_ne_of_broken hone _ _) fun hall => hone hall.1

-- A proposition may compare by `>` but not by `<`, which never closes.
example : Apart ["<count > 5>", "{b}"] ∧ ¬ Apart ["<count < 5>", "{b}"] := by decide

theorem eq_of_mem_of_isPrefix_cons {α : Type} {x : α} {l : List α} (h : l <+: x :: l) :
    ∀ y ∈ l, y = x := by
  induction l with
  | nil => simp
  | cons z l ih =>
      obtain ⟨rfl, hl⟩ := List.cons_prefix_cons.1 h
      intro y hy
      rcases List.mem_cons.1 hy with rfl | hy
      · rfl
      · exact ih hl y hy

/-- A list whose opening bracket is read with it does not start with its own first item. -/
theorem split_bracket_ne {item : Text} (hitem : ∃ x ∈ item, x ≠ '[') (items : List Text)
    (rest : Text) : split ',' ('[' :: (listed (item :: items) ++ rest)) ≠ item :: items := by
  intro heq
  obtain ⟨front, more, hfront, hsplit⟩ := exists_split_cons (x := '[') (by decide) (by decide)
    (listed (item :: items) ++ rest)
  obtain ⟨rfl, -⟩ : '[' :: front = item ∧ more = items := List.cons.inj (hsplit.symm.trans heq)
  have hlisted : '[' :: front <+: listed (('[' :: front) :: items) ++ rest := by
    cases items with
    | nil => exact List.prefix_append _ _
    | cons next items =>
        rw [listed_cons_cons, List.append_assoc]
        exact List.prefix_append _ _
  -- the item is what it is without its first character, up to a last one
  have hprefix : front <+: '[' :: front :=
    List.prefix_of_prefix_length_le hfront hlisted (Nat.le_succ _)
  obtain ⟨x, hx, hne⟩ := hitem
  rcases List.mem_cons.1 hx with rfl | hx
  · exact hne rfl
  · exact hne (eq_of_mem_of_isPrefix_cons hprefix x hx)

/-! ## Nested items -/

theorem depthAfter_opening (depth : Nat) (b : Bracket) : depthAfter depth b.opening = depth + 1 := by
  cases b <;> rfl

theorem depthAfter_closing (depth : Nat) (b : Bracket) : depthAfter depth b.closing = depth - 1 := by
  cases b <;> rfl

theorem depthAfter_plain (depth : Nat) {x : Char} (hopening : Bracket.ofOpening? x = none)
    (hclosing : Bracket.ofClosing? x = none) : depthAfter depth x = depth := by
  simp [depthAfter, hopening, hclosing]

theorem depthBehind_of_nested {t : Text} (h : Bracket.Nested t) (depth : Nat) :
    depthBehind depth t = depth := by
  induction h generalizing depth with
  | nil => rfl
  | plain hopening hclosing _ ih => rw [depthBehind_cons, depthAfter_plain depth hopening hclosing, ih]
  | group b _ _ ihinner ih =>
      rw [depthBehind_cons, depthAfter_opening, depthBehind_append, ihinner, depthBehind_cons,
        depthAfter_closing, Nat.add_sub_cancel, ih]

theorem unbroken_enclosed (b : Bracket) {depth : Nat} {t : Text} (h : Unbroken (depth + 1) t) :
    Unbroken depth (b.opening :: (t ++ [b.closing])) := by
  have hcomma : b.opening ≠ ',' ∧ b.closing ≠ ',' := by cases b <;> decide
  refine ⟨fun hopening => absurd hopening hcomma.1, ?_⟩
  rw [depthAfter_opening]
  exact unbroken_append.2 ⟨h, fun hclosing => absurd hclosing hcomma.2, trivial⟩

/-- Inside a bracket nothing is cut. -/
theorem unbroken_of_nested {t : Text} (h : Bracket.Nested t) {depth : Nat} (hdepth : 0 < depth) :
    Unbroken depth t := by
  induction h generalizing depth with
  | nil => trivial
  | plain hopening hclosing _ ih =>
      refine ⟨fun _ => hdepth, ?_⟩
      rw [depthAfter_plain depth hopening hclosing]
      exact ih hdepth
  | @group b inner t hinner _ ihinner ih =>
      have hgroup := unbroken_enclosed b (ihinner (Nat.succ_pos depth))
      have hrest : Unbroken (depthBehind depth (b.opening :: (inner ++ [b.closing]))) t := by
        rw [depthBehind_of_nested (hinner.enclosed b)]
        exact ih hdepth
      simpa using unbroken_append.2 ⟨hgroup, hrest⟩

theorem apart_of_forall {items : List Text}
    (h : ∀ item ∈ items, Unbroken 0 item ∧ depthBehind 0 item = 0) : Apart items := by
  fun_induction Apart items with
  | case1 => trivial
  | case2 item => exact (h item List.mem_cons_self).1
  | case3 item items _ ih =>
      obtain ⟨hone, hdepth⟩ := h item List.mem_cons_self
      exact ⟨hone, hdepth, ih fun i hi => h i (List.mem_cons_of_mem _ hi)⟩

/-- Nested texts in brackets are kept apart, whatever commas they hold. -/
theorem apart_of_nested {items : List Text}
    (h : ∀ item ∈ items, ∃ (b : Bracket) (t : Text),
      item = b.opening :: (t ++ [b.closing]) ∧ Bracket.Nested t) : Apart items := by
  refine apart_of_forall fun item hitem => ?_
  obtain ⟨b, t, rfl, ht⟩ := h item hitem
  exact ⟨unbroken_enclosed b (unbroken_of_nested ht Nat.one_pos),
    depthBehind_of_nested (ht.enclosed b) 0⟩

theorem nested_listed {items : List Text} (h : ∀ item ∈ items, Bracket.Nested item) :
    Bracket.Nested (listed items) := by
  fun_induction listed items with
  | case1 => exact .nil
  | case2 item => exact h item List.mem_cons_self
  | case3 item items _ ih =>
      exact (h item List.mem_cons_self).append
        (.plain rfl rfl (.plain rfl rfl (ih fun i hi => h i (List.mem_cons_of_mem _ hi))))

end Items

end PlanGraph
