import PlanGraph.Note
import PlanGraph.Proofs.Text

set_option autoImplicit false

/-! # Reading notes

The notes of a comment are found by one search from left to right. Here the search is unfolded to
one match at a time (`Text.allMatches_of_none`, `Text.allMatches_of_some`): a match leaves an end of
the text that it was found in. Of the entries for one key the first counts (`TextMap.get?_ofFirst`),
where others make a map in which the last one does (`TextMap.get?_ofLast`). -/

namespace PlanGraph

namespace Text

/-! ## Matches, one by one -/

section Matches

variable {α : Type} {reader : Text → Option (α × Text)}

theorem matchesFrom_eq_drop (n : Nat) (t : Text) :
    matchesFrom reader n t = matchesFrom reader 0 (t.drop n) := by
  induction t generalizing n with
  | nil => simp [matchesFrom]
  | cons c rest ih =>
      cases n with
      | zero => rfl
      | succ n => rw [matchesFrom, ih, List.drop_succ_cons]

theorem allMatches_nil : allMatches reader [] = [] := rfl

theorem allMatches_of_none {c : Char} {rest : Text} (h : reader (c :: rest) = none) :
    allMatches reader (c :: rest) = allMatches reader rest := by
  rw [allMatches, matchesFrom, h]
  rfl

/-- Behind a match the search goes on with what the match leaves. -/
theorem allMatches_of_some {c : Char} {rest left : Text} {a : α}
    (h : reader (c :: rest) = some (a, left)) (hleft : left <:+ rest) :
    allMatches reader (c :: rest) = a :: allMatches reader left := by
  obtain ⟨taken, rfl⟩ := hleft
  have hdrop : (taken ++ left).drop ((taken ++ left).length - left.length) = left := by
    simp
  rw [allMatches, matchesFrom, h]
  show a :: _ = a :: _
  rw [matchesFrom_eq_drop, hdrop]
  rfl

/-- A match was found at some place. -/
theorem exists_of_mem_allMatches {a : α} {t : Text} (h : a ∈ allMatches reader t) :
    ∃ here left, reader here = some (a, left) := by
  rw [allMatches] at h
  generalize 0 = skip at h
  fun_induction matchesFrom reader skip t with
  | case1 => cases h
  | case2 skip c rest ih => exact ih h
  | case3 c rest value left hfound ih =>
      rcases List.mem_cons.1 h with rfl | h
      · exact ⟨c :: rest, left, hfound⟩
      · exact ih h
  | case4 c rest _ ih => exact ih h

end Matches

/-- A literal without the character `c` does not reach beyond a `c`. -/
theorem after?_append_cons {c : Char} {p : Text} (t s : Text) (h : c ∉ p) :
    after? (t ++ c :: s) p = (after? t p).map (· ++ c :: s) := by
  induction p generalizing t with
  | nil => simp
  | cons d p ih =>
      simp only [List.mem_cons, not_or] at h
      cases t with
      | nil => rw [List.nil_append, cons_after?_cons, if_neg (Ne.symm h.1)]; rfl
      | cons e t =>
          rw [List.cons_append, cons_after?_cons, cons_after?_cons]
          by_cases hde : d = e
          · rw [if_pos hde, if_pos hde, ih t h.2]
          · rw [if_neg hde, if_neg hde]
            rfl

end Text

namespace TextMap

variable {α : Type}

theorem get?_eq_lookup (m : TextMap α) (key : Text) :
    m.get? key = m.lookup key := by
  induction m with
  | nil => rfl
  | cons e rest ih =>
      obtain ⟨k, v⟩ := e
      by_cases h : key = k
      · simp [get?, h]
      · rw [get?, if_neg h, ih, List.lookup_cons, beq_false_of_ne h]

theorem get?_append (a b : TextMap α) (key : Text) :
    get? (a ++ b) key = (get? a key).or (get? b key) := by
  induction a with
  | nil => simp [get?]
  | cons e rest ih =>
      rw [List.cons_append, get?, get?]
      split
      · rfl
      · exact ih

theorem mem_of_get? {m : TextMap α} {key : Text} {v : α} (h : m.get? key = some v) :
    (key, v) ∈ m := by
  induction m with
  | nil => simp [get?] at h
  | cons e rest ih =>
      rw [get?] at h
      split at h
      · next hkey =>
          obtain rfl := Option.some.inj h
          rw [hkey]
          exact List.mem_cons_self
      · exact List.mem_cons_of_mem _ (ih h)

theorem exists_get?_of_mem {m : TextMap α} {key : Text} {v : α} (h : (key, v) ∈ m) :
    ∃ w, m.get? key = some w := by
  induction m with
  | nil => cases h
  | cons e rest ih =>
      rw [get?]
      split
      · exact ⟨_, rfl⟩
      · next hkey =>
          rcases List.mem_cons.1 h with rfl | h
          · exact absurd rfl hkey
          · exact ih h

/-- The value of a key is that of its first entry. -/
theorem get?_ofFirst (entries : List (Text × α)) (key : Text) :
    (ofFirst entries).get? key = get? entries key := by
  have hfold : ∀ m : TextMap α,
      get? (entries.foldl (fun m e => m.insertNew e.1 e.2) m) key =
        (get? m key).or (get? entries key) := by
    induction entries with
    | nil => simp [get?]
    | cons e rest ih =>
        intro m
        rw [List.foldl_cons, ih, get?_insertNew, get?]
        by_cases hkey : key = e.1
        · subst hkey
          cases get? m e.1 <;> simp
        · simp [hkey]
  exact (hfold []).trans (by simp [get?])

/-- The value of a key is that of its last entry. -/
theorem get?_ofLast (entries : List (Text × α)) (key : Text) :
    (ofLast entries).get? key = get? entries.reverse key := by
  induction entries using List.reverseRecOn with
  | nil => rfl
  | append_singleton entries e ih =>
      have hlast : ofLast (entries ++ [e]) = (ofLast entries).insert e.1 e.2 := by
        rw [ofLast, List.foldl_append, ofLast]
        rfl
      rw [hlast, get?_insert, ih, List.reverse_append]
      rfl

end TextMap

namespace Note

/-! ## Keys and values -/

/-- Whether a character may stand in a key. -/
def inKey (c : Char) : Bool := c != '{' && c != '}'

theorem keyed?_eq (t : Text) :
    keyed? t = if t.takeWhile inKey = [] then none else
      (Text.after? (t.dropWhile inKey) ['}', ':']).map fun rest => (t.takeWhile inKey, rest) := by
  unfold keyed?
  split
  · next h => exact (if_pos h).symm
  · next h => exact (if_neg h).symm

theorem untilPipe_append (t : Text) : (untilPipe t).1 ++ (untilPipe t).2 = t := by
  fun_induction untilPipe t with
  | case1 => rfl
  | case2 rest ih => simp [ih]
  | case3 rest => simp
  | case4 c rest _ _ ih => simp [ih]

theorem unescape_cons {c : Char} {t : Text} (h : c = '\\' → ∀ rest, t ≠ '|' :: rest) :
    unescape (c :: t) = c :: unescape t := by
  rw [unescape]
  intro rest hc
  exact h hc rest

/-- A text without backslashes stands for itself. -/
theorem unescape_append {s : Text} (t : Text) (h : '\\' ∉ s) :
    unescape (s ++ t) = s ++ unescape t := by
  induction s with
  | nil => rfl
  | cons c rest ih =>
      simp only [List.mem_cons, not_or] at h
      rw [List.cons_append, unescape_cons fun hc => absurd hc.symm h.1, ih h.2, List.cons_append]

theorem untilPipe_cons {c : Char} {t : Text} (hpipe : c ≠ '|')
    (h : c = '\\' → ∀ rest, t ≠ '|' :: rest) :
    untilPipe (c :: t) = (c :: (untilPipe t).1, (untilPipe t).2) := by
  rw [untilPipe, if_neg hpipe]
  intro rest hc
  exact h hc rest

/-- A value goes on behind a text with neither pipes nor backslashes. -/
theorem untilPipe_append_plain {s : Text} (t : Text) (hpipe : '|' ∉ s) (hback : '\\' ∉ s) :
    untilPipe (s ++ t) = (s ++ (untilPipe t).1, (untilPipe t).2) := by
  induction s with
  | nil => rfl
  | cons c rest ih =>
      simp only [List.mem_cons, not_or] at hpipe hback
      rw [List.cons_append, untilPipe_cons (Ne.symm hpipe.1) (fun hc => absurd hc.symm hback.1),
        ih hpipe.2 hback.2]
      rfl

theorem clean_append_blank {b : Text} (t : Text) (hb : Text.AllBlank b) :
    clean (t ++ b) = clean t := by
  rw [clean, Text.trim_append_blank t hb, clean]

theorem getLast?_unescape (t : Text) : (unescape t).getLast? = t.getLast? := by
  fun_induction unescape t with
  | case1 => rfl
  | case2 rest ih => simp [List.getLast?_cons, ih]
  | case3 c rest _ ih => rw [List.getLast?_cons, ih, List.getLast?_cons]

theorem tight_unescape {t : Text} (h : Text.Tight t) : Text.Tight (unescape t) := by
  refine ⟨?_, by rw [getLast?_unescape]; exact h.2⟩
  have hhead := h.1
  clear h
  fun_cases unescape t with
  | case1 => exact hhead
  | case2 rest => simp; decide
  | case3 c rest => simpa using hhead

/-- The value of a tag has no blanks at its ends. -/
theorem tight_of_mem_tagEntries {comment : Text} {e : Text × Text} (h : e ∈ tagEntries comment) :
    Text.Tight e.2 := by
  obtain ⟨here, left, hfound⟩ := Text.exists_of_mem_allMatches h
  obtain ⟨body, -, hpair⟩ := Option.bind_eq_some_iff.1 hfound
  obtain ⟨⟨key, rest⟩, -, heq⟩ := Option.bind_eq_some_iff.1 hpair
  obtain ⟨rfl, rfl⟩ := Prod.mk.inj (Option.some.inj heq)
  exact tight_unescape (Text.tight_trim _)

theorem suffix_of_keyed? {t key rest : Text} (h : keyed? t = some (key, rest)) : rest <:+ t := by
  rw [keyed?_eq] at h
  split at h
  · exact absurd h (by simp)
  · obtain ⟨left, hleft, heq⟩ := Option.map_eq_some_iff.1 h
    cases heq
    have hdrop := Text.after?_eq_some_iff.1 hleft
    exact (hdrop ▸ List.suffix_append _ _).trans (List.dropWhile_suffix _)

theorem suffix_of_pair? {t left : Text} {e : Text × Text} (h : pair? t = some (e, left)) :
    left <:+ t := by
  cases hk : keyed? t with
  | none => simp [pair?, hk] at h
  | some found =>
      obtain ⟨key, rest⟩ := found
      simp only [pair?, hk, Option.bind_eq_bind, Option.bind_some, Option.pure_def,
        Option.some.injEq, Prod.mk.injEq] at h
      have hleft : left <:+ rest := ⟨(untilPipe rest).1, by rw [← h.2, untilPipe_append]⟩
      exact hleft.trans (suffix_of_keyed? hk)

/-! ## Whole notes -/

theorem suffix_of_keyedPair? {c : Char} {rest left : Text} {e : Text × Text}
    (h : keyedPair? (c :: rest) = some (e, left)) : left <:+ rest := by
  rw [keyedPair?.eq_def] at h
  split at h
  · next more heq =>
      cases heq
      obtain ⟨t, ht, he⟩ := Option.bind_eq_some_iff.1 h
      have htrim := Text.after?_eq_some_iff.1 ht
      have hleft : left <:+ Text.trimStart rest :=
        (suffix_of_pair? he).trans (htrim ▸ List.suffix_append _ _)
      exact hleft.trans (List.dropWhile_suffix _)
  · exact absurd h (by simp)

theorem suffix_of_tagPair? {c : Char} {rest left : Text} {e : Text × Text}
    (h : tagPair? (c :: rest) = some (e, left)) : left <:+ rest := by
  obtain ⟨t, ht, he⟩ := Option.bind_eq_some_iff.1 h
  have heq := Text.after?_eq_some_iff.1 ht
  have ht : t <:+ rest := ⟨['{'], (List.cons.inj heq).2.symm⟩
  exact (suffix_of_pair? he).trans ht

theorem keyedEntries_of_no_pipe {t : Text} (h : '|' ∉ t) : keyedEntries t = [] := by
  induction t with
  | nil => rfl
  | cons c rest ih =>
      simp only [List.mem_cons, not_or] at h
      have hnone : keyedPair? (c :: rest) = none := by simp [keyedPair?, Ne.symm h.1]
      rw [keyedEntries, Text.allMatches_of_none hnone]
      exact ih h.2

theorem unescape_of_no_pipe {t : Text} (h : '|' ∉ t) : unescape t = t := by
  fun_induction unescape t with
  | case1 => rfl
  | case2 rest => simp at h
  | case3 c rest _ ih =>
      rw [ih (fun hr => h (List.mem_cons_of_mem _ hr))]

theorem untilPipe_of_no_pipe {t : Text} (h : '|' ∉ t) : untilPipe t = (t, []) := by
  fun_induction untilPipe t with
  | case1 => rfl
  | case2 rest => simp at h
  | case3 rest => simp at h
  | case4 c rest _ _ ih =>
      rw [ih (fun hr => h (List.mem_cons_of_mem _ hr))]

end Note

end PlanGraph
