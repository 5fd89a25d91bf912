import Mathlib.Data.List.DropRight
import PlanGraph.Text.Basic

set_option autoImplicit false

/-! # Laws of texts

What the proofs about plans use of the cuts of a text. Splitting and joining undo each other
(`splitOn_joinWith`). Trimming is pinned down by two facts: a text is its trimmed text between two
margins of blanks (`exists_margins`), and a text without blanks at its ends is what remains of it
between any two margins (`trim_between`). The first match of a reader is the one with the shortest
front (`firstMatch_eq_some_iff`), and a front is known by its length in bytes (`eq_of_byteSize`). -/

namespace PlanGraph

namespace Text

/-! ## Splitting and joining -/

theorem splitOn_ne_nil (c : Char) (t : Text) : splitOn c t ≠ [] := by
  cases t with
  | nil => simp [splitOn]
  | cons d rest =>
      rw [splitOn]
      split
      · simp
      · split <;> simp

theorem splitOn_of_not_mem {c : Char} {t : Text} (h : c ∉ t) : splitOn c t = [t] := by
  induction t with
  | nil => rfl
  | cons d rest ih =>
      simp only [List.mem_cons, not_or] at h
      rw [splitOn, if_neg (fun he => h.1 he.symm), ih h.2]

/-- The first piece ends at the first `c`. -/
theorem splitOn_append_cons {c : Char} {a : Text} (b : Text) (h : c ∉ a) :
    splitOn c (a ++ c :: b) = a :: splitOn c b := by
  induction a with
  | nil => simp [splitOn]
  | cons d rest ih =>
      simp only [List.mem_cons, not_or] at h
      rw [List.cons_append, splitOn, if_neg (fun he => h.1 he.symm), ih h.2]

/-- A text is cut at each `c`, wherever else it is cut. -/
theorem splitOn_append (c : Char) (a b : Text) :
    splitOn c (a ++ c :: b) = splitOn c a ++ splitOn c b := by
  induction a with
  | nil => simp [splitOn]
  | cons d rest ih =>
      by_cases hd : d = c
      · simp [splitOn, hd, ih]
      · obtain ⟨piece, pieces, hs⟩ := List.exists_cons_of_ne_nil (splitOn_ne_nil c rest)
        simp [splitOn, hd, ih, hs]

theorem length_splitOn (c : Char) (t : Text) : (splitOn c t).length = t.count c + 1 := by
  induction t with
  | nil => rfl
  | cons d rest ih =>
      by_cases hd : d = c
      · simp [splitOn, hd, ih]
      · obtain ⟨piece, pieces, hs⟩ := List.exists_cons_of_ne_nil (splitOn_ne_nil c rest)
        rw [hs] at ih
        simp only [splitOn, if_neg hd, hs, List.count_cons_of_ne hd]
        exact ih

theorem length_le_of_mem_splitOn {c : Char} {t piece : Text} (h : piece ∈ splitOn c t) :
    piece.length ≤ t.length := by
  induction t generalizing piece with
  | nil =>
      rw [splitOn, List.mem_singleton] at h
      simp [h]
  | cons d rest ih =>
      rw [List.length_cons]
      by_cases hd : d = c
      · rw [splitOn, if_pos hd] at h
        rcases List.mem_cons.1 h with rfl | h
        · exact Nat.zero_le _
        · exact Nat.le_succ_of_le (ih h)
      · obtain ⟨first, pieces, hs⟩ := List.exists_cons_of_ne_nil (splitOn_ne_nil c rest)
        simp only [splitOn, if_neg hd, hs] at h
        rcases List.mem_cons.1 h with rfl | h
        · exact Nat.succ_le_succ (ih (by rw [hs]; exact List.mem_cons_self))
        · exact Nat.le_succ_of_le (ih (by rw [hs]; exact List.mem_cons_of_mem _ h))

/-- No piece holds the character that the text is cut at. -/
theorem not_mem_of_mem_splitOn {c : Char} {t piece : Text} (h : piece ∈ splitOn c t) :
    c ∉ piece := by
  induction t generalizing piece with
  | nil =>
      rw [splitOn, List.mem_singleton] at h
      simp [h]
  | cons d rest ih =>
      rw [splitOn] at h
      split at h
      · rcases List.mem_cons.1 h with rfl | h
        · simp
        · exact ih h
      · next hd =>
          split at h
          · next hs => exact absurd hs (splitOn_ne_nil c rest)
          · next first pieces hs =>
              rcases List.mem_cons.1 h with rfl | h
              · have hfirst : c ∉ first := ih (by rw [hs]; exact List.mem_cons_self)
                simp only [List.mem_cons, not_or]
                exact ⟨fun he => hd he.symm, hfirst⟩
              · exact ih (by rw [hs]; exact List.mem_cons_of_mem _ h)

/-- Joined pieces that do not hold the separator are found again. -/
theorem splitOn_joinWith {c : Char} {pieces : List Text} (hne : pieces ≠ [])
    (hfree : ∀ piece ∈ pieces, c ∉ piece) : splitOn c (joinWith c pieces) = pieces := by
  induction pieces with
  | nil => exact absurd rfl hne
  | cons piece rest ih =>
      have hpiece : c ∉ piece := hfree piece List.mem_cons_self
      cases rest with
      | nil => exact splitOn_of_not_mem hpiece
      | cons next more =>
          have hrest := ih (by simp) (fun q hq => hfree q (List.mem_cons_of_mem _ hq))
          rw [joinWith, splitOn_append_cons _ hpiece, hrest]
          simp

theorem mem_joinWith {c d : Char} {pieces : List Text} (h : d ∈ joinWith c pieces) :
    d = c ∨ ∃ piece ∈ pieces, d ∈ piece := by
  induction pieces with
  | nil => simp [joinWith] at h
  | cons piece rest ih =>
      cases rest with
      | nil => exact Or.inr ⟨piece, List.mem_cons_self, h⟩
      | cons next more =>
          rw [joinWith, List.mem_append, List.mem_cons] at h
          · rcases h with h | rfl | h
            · exact Or.inr ⟨piece, List.mem_cons_self, h⟩
            · exact Or.inl rfl
            · rcases ih h with h | ⟨q, hq, hd⟩
              · exact Or.inl h
              · exact Or.inr ⟨q, List.mem_cons_of_mem _ hq, hd⟩
          · simp

/-! ## Literals at the end -/

theorem before?_eq_some_iff {t p body : Text} : t.before? p = some body ↔ t = body ++ p := by
  have hreverse : t.before? p = (after? t.reverse p.reverse).map List.reverse := rfl
  rw [hreverse, Option.map_eq_some_iff]
  constructor
  · rintro ⟨r, hr, rfl⟩
    have := congrArg List.reverse (after?_eq_some_iff.1 hr)
    simpa using this
  · rintro rfl
    exact ⟨body.reverse, after?_eq_some_iff.2 (by simp), by simp⟩

/-! ## Trimming -/

/-- A text of blanks only. -/
def AllBlank (t : Text) : Prop := ∀ c ∈ t, isBlank c = true

/-- A text without blanks at its ends. -/
def Tight (t : Text) : Prop :=
  (∀ c ∈ t.head?, isBlank c = false) ∧ ∀ c ∈ t.getLast?, isBlank c = false

instance (t : Text) : Decidable (AllBlank t) :=
  decidable_of_iff (t.all isBlank = true) List.all_eq_true

theorem AllBlank.nil : AllBlank [] := by decide

theorem AllBlank.space : AllBlank [' '] := by decide

theorem Tight.nil : Tight [] := by simp [Tight]

theorem trimStart_append {a : Text} (t : Text) (ha : AllBlank a) :
    trimStart (a ++ t) = trimStart t :=
  List.dropWhile_append_of_pos ha

theorem trimStart_of_head {t : Text} (h : ∀ c ∈ t.head?, isBlank c = false) : trimStart t = t := by
  cases t with
  | nil => rfl
  | cons c rest => simp [trimStart, h c (by simp)]

theorem trimEnd_append {b : Text} (t : Text) (hb : AllBlank b) : trimEnd (t ++ b) = trimEnd t := by
  have hrev : ∀ c ∈ b.reverse, isBlank c = true := fun c hc => hb c (List.mem_reverse.1 hc)
  rw [trimEnd, List.reverse_append, List.dropWhile_append_of_pos hrev, trimEnd]

theorem trimEnd_of_last {t : Text} (h : ∀ c ∈ t.getLast?, isBlank c = false) : trimEnd t = t := by
  have hself : t.rdropWhile isBlank = t := by
    rw [List.rdropWhile_eq_self_iff]
    intro hne
    rw [h _ (List.getLast?_eq_some_getLast hne)]
    simp
  exact hself

/-- What stands between two margins of blanks and has no blanks at its ends is the trimmed
    text. -/
theorem trim_between {a m b : Text} (ha : AllBlank a) (hm : Tight m) (hb : AllBlank b) :
    trim (a ++ m ++ b) = m := by
  rw [trim, List.append_assoc, trimStart_append _ ha]
  cases m with
  | nil =>
      have : trimStart b = [] := List.dropWhile_eq_nil_iff.2 hb
      rw [List.nil_append, this, trimEnd_of_last hm.2]
  | cons c rest =>
      have : trimStart (c :: rest ++ b) = c :: rest ++ b :=
        trimStart_of_head (by simpa using hm.1)
      rw [this, trimEnd_append _ hb, trimEnd_of_last hm.2]

/-- Trimming the end alone keeps the left margin. -/
theorem trimEnd_between {a m b : Text} (hne : m ≠ []) (hm : Tight m) (hb : AllBlank b) :
    trimEnd (a ++ m ++ b) = a ++ m := by
  rw [trimEnd_append _ hb]
  refine trimEnd_of_last ?_
  rw [List.getLast?_append_of_ne_nil _ hne]
  exact hm.2

theorem tight_trim (t : Text) : Tight (trim t) := by
  constructor
  · intro c hc
    -- the end of the text is trimmed last, which keeps a first character
    have hpre : trim t <+: trimStart t := List.rdropWhile_prefix _ _
    have hstart : c ∈ (trimStart t).head? := by
      obtain ⟨s, hs⟩ := hpre
      rw [← hs]
      cases htrim : trim t with
      | nil => simp [htrim] at hc
      | cons d rest => simpa [htrim] using hc
    have := List.head?_dropWhile_not isBlank t
    simp only [trimStart] at hstart
    rw [Option.mem_def.1 hstart] at this
    simpa using this
  · intro c hc
    have hne : trim t ≠ [] := by
      intro h
      simp [h] at hc
    have hlast : ¬ isBlank ((trim t).getLast hne) = true :=
      List.rdropWhile_last_not isBlank (trimStart t) hne
    rw [List.getLast?_eq_some_getLast hne, Option.mem_def, Option.some.injEq] at hc
    rw [← hc]
    exact Bool.eq_false_iff.2 hlast

/-- A text is its trimmed text between two margins. -/
theorem exists_margins (t : Text) :
    ∃ a b, AllBlank a ∧ AllBlank b ∧ t = a ++ trim t ++ b := by
  refine ⟨t.takeWhile isBlank, (trimStart t).rtakeWhile isBlank, ?_, ?_, ?_⟩
  · intro c hc
    exact List.mem_takeWhile_imp hc
  · intro c hc
    exact List.mem_rtakeWhile_imp hc
  · have hback : trim t ++ (trimStart t).rtakeWhile isBlank = trimStart t :=
      List.rdropWhile_append_rtakeWhile
    rw [List.append_assoc, hback]
    exact (List.takeWhile_append_dropWhile).symm

theorem length_trim_le (t : Text) : (trim t).length ≤ t.length := by
  obtain ⟨a, b, -, -, ht⟩ := exists_margins t
  conv_rhs => rw [ht]
  simp only [List.length_append]
  omega

theorem trim_ne_nil {t : Text} {x : Char} (hx : x ∈ t) (hblank : isBlank x = false) :
    trim t ≠ [] := by
  intro hnil
  obtain ⟨a, b, ha, hb, ht⟩ := exists_margins t
  rw [ht, hnil, List.append_nil, List.mem_append] at hx
  have hx : isBlank x = true := hx.elim (ha x) (hb x)
  rw [hblank] at hx
  cases hx

theorem trim_of_tight {t : Text} (h : Tight t) : trim t = t := by
  simpa using trim_between AllBlank.nil h AllBlank.nil

theorem tight_iff {t : Text} : Tight t ↔ trim t = t :=
  ⟨trim_of_tight, fun h => h ▸ tight_trim t⟩

instance (t : Text) : Decidable (Tight t) := decidable_of_iff (trim t = t) tight_iff.symm

theorem trim_append_blank {b : Text} (t : Text) (hb : AllBlank b) : trim (t ++ b) = trim t := by
  obtain ⟨a, b', ha, hb', ht⟩ := exists_margins t
  have hbb : AllBlank (b' ++ b) := by
    intro c hc
    rcases List.mem_append.1 hc with hc | hc
    · exact hb' c hc
    · exact hb c hc
  calc trim (t ++ b) = trim (a ++ trim t ++ (b' ++ b)) := by rw [← List.append_assoc, ← ht]
    _ = trim t := trim_between ha (tight_trim t) hbb

theorem tight_of_forall {t : Text} (h : ∀ c ∈ t, isBlank c = false) : Tight t :=
  ⟨fun c hc => h c (List.mem_of_mem_head? hc), fun c hc => h c (List.mem_of_mem_getLast? hc)⟩

theorem trimEnd_append_of_ne_nil (a : Text) {m : Text} (h : trimEnd m ≠ []) :
    trimEnd (a ++ m) = a ++ trimEnd m := by
  have hne : (m.reverse.dropWhile isBlank).isEmpty = false := by
    cases hd : m.reverse.dropWhile isBlank with
    | nil => exact absurd (by rw [trimEnd, hd]; rfl) h
    | cons c rest => rfl
  rw [trimEnd, List.reverse_append, List.dropWhile_append, hne]
  simp [trimEnd]

theorem trimEnd_append_of_last {a : Text} (m : Text) (h : ∀ c ∈ a.getLast?, isBlank c = false) :
    trimEnd (a ++ m) = a ++ trimEnd m := by
  by_cases hm : trimEnd m = []
  · have hblank : AllBlank m := by
      intro c hc
      have hdrop : m.reverse.dropWhile isBlank = [] := List.reverse_eq_nil_iff.1 hm
      exact List.dropWhile_eq_nil_iff.1 hdrop c (List.mem_reverse.2 hc)
    rw [trimEnd_append a hblank, trimEnd_of_last h, hm, List.append_nil]
  · exact trimEnd_append_of_ne_nil a hm

theorem last_trimEnd (t : Text) : ∀ c ∈ (trimEnd t).getLast?, isBlank c = false := by
  intro c hc
  have hne : trimEnd t ≠ [] := by
    intro h
    simp [h] at hc
  rw [List.getLast?_eq_some_getLast hne, Option.mem_def, Option.some.injEq] at hc
  rw [← hc]
  exact Bool.eq_false_iff.2 (List.rdropWhile_last_not isBlank t hne)

/-! ## The first match -/

theorem isSome_firstMatch_iff {α : Type} {reader : Text → Option α} {t : Text} :
    (firstMatch reader t).isSome = true ↔ ∃ place, place <:+ t ∧ (reader place).isSome = true := by
  induction t with
  | nil => simp [firstMatch]
  | cons c rest ih =>
      rw [firstMatch, Option.orElse_eq_or, Option.isSome_or, Bool.or_eq_true, ih]
      simp only [List.suffix_cons_iff, or_and_right, exists_or, exists_eq_left]

/-- The value at the first place where there is one. -/
theorem firstMatch_eq_some_iff {α : Type} {reader : Text → Option α} {t : Text} {a : α} :
    firstMatch reader t = some a ↔
      ∃ front place, t = front ++ place ∧ reader place = some a ∧
        ∀ f p, t = f ++ p → f.length < front.length → reader p = none := by
  induction t with
  | nil => simp [firstMatch]
  | cons c rest ih =>
      rw [firstMatch, Option.orElse_eq_or]
      constructor
      · intro h
        rcases Option.or_eq_some_iff.1 h with hhere | ⟨hnone, hrest⟩
        · exact ⟨[], c :: rest, rfl, hhere, fun f p _ hf => absurd hf (Nat.not_lt_zero _)⟩
        · obtain ⟨front, place, rfl, hplace, hfirst⟩ := ih.1 hrest
          refine ⟨c :: front, place, rfl, hplace, fun f p hcut hf => ?_⟩
          cases f with
          | nil => rwa [hcut, List.nil_append] at hnone
          | cons d f => exact hfirst f p (List.cons.inj hcut).2 (Nat.lt_of_succ_lt_succ hf)
      · rintro ⟨front, place, hcut, hplace, hfirst⟩
        cases front with
        | nil => rw [hcut, List.nil_append, hplace, Option.some_or]
        | cons d front =>
            obtain ⟨rfl, hrest⟩ := List.cons.inj hcut
            rw [hfirst [] _ rfl (Nat.succ_pos _), Option.none_or, ih]
            exact ⟨front, place, hrest, hplace, fun f p hf hlt =>
              hfirst (c :: f) p (congrArg _ hf) (Nat.succ_lt_succ hlt)⟩

/-- Places without a value are passed over. -/
theorem firstMatch_append {α : Type} {reader : Text → Option α} {s : Text} (t : Text)
    (h : ∀ u, u ≠ [] → u <:+ s → reader (u ++ t) = none) :
    firstMatch reader (s ++ t) = firstMatch reader t := by
  induction s with
  | nil => rfl
  | cons c s ih =>
      have hhere : reader (c :: (s ++ t)) = none := h (c :: s) (List.cons_ne_nil _ _) List.suffix_rfl
      rw [List.cons_append, firstMatch, hhere, Option.orElse_eq_or, Option.none_or]
      exact ih fun u hu hsuffix => h u hu (hsuffix.trans (List.suffix_cons _ _))

/-! ## Bytes -/

theorem byteSize_append (s t : Text) : byteSize (s ++ t) = byteSize s + byteSize t := by
  have hfrom : ∀ n, t.foldl (fun n c => n + c.utf8Size) n = n + byteSize t := by
    induction t with
    | nil => simp [byteSize]
    | cons c t ih =>
        intro n
        rw [byteSize, List.foldl_cons, List.foldl_cons, ih, ih]
        omega
  rw [byteSize, List.foldl_append, hfrom]
  rfl

theorem byteSize_cons (c : Char) (t : Text) : byteSize (c :: t) = c.utf8Size + byteSize t := by
  rw [← List.singleton_append, byteSize_append]
  simp [byteSize]

theorem fromByte?_byteSize (before rest : Text) :
    fromByte? before.byteSize (before ++ rest) = some rest := by
  induction before with
  | nil => simp [byteSize, fromByte?]
  | cons c before ih =>
      have hpos := c.utf8Size_pos
      obtain ⟨n, hn⟩ : ∃ n, byteSize (c :: before) = n + 1 :=
        Nat.exists_eq_succ_of_ne_zero (by rw [byteSize_cons]; omega)
      have hrest : n + 1 - c.utf8Size = byteSize before := by
        rw [← hn, byteSize_cons]
        omega
      rw [hn, List.cons_append, fromByte?, if_pos (by rw [← hn, byteSize_cons]; omega), hrest, ih]

theorem eq_nil_of_byteSize {t : Text} (h : t.byteSize = 0) : t = [] := by
  cases t with
  | nil => rfl
  | cons c t =>
      have hpos := c.utf8Size_pos
      rw [byteSize_cons] at h
      omega

/-- A front of a text is known by its bytes. -/
theorem eq_of_byteSize {s t a b : Text} (h : s ++ a = t ++ b) (hsize : s.byteSize = t.byteSize) :
    s = t := by
  rcases List.append_eq_append_iff.1 h with ⟨more, rfl, -⟩ | ⟨more, rfl, -⟩
  · rw [byteSize_append] at hsize
    rw [eq_nil_of_byteSize (t := more) (by omega), List.append_nil]
  · rw [byteSize_append] at hsize
    rw [eq_nil_of_byteSize (t := more) (by omega), List.append_nil]

end Text

end PlanGraph
