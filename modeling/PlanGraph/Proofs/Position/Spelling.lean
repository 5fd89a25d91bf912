import PlanGraph.Position.Counter
import PlanGraph.Proofs.Text

set_option autoImplicit false

/-! # Positions and their numbers

A counted position is written as its numbers in decimal with dots between them, and these numbers
are read back from it (`Counter.components_position`). So a counter can go on from the text of a
position that it gave itself (`Counter.resetTo_position`). -/

namespace PlanGraph

/-! ## Numbers in decimal -/

namespace Numeral

theorem isDigit_of_mem_decimal {c : Char} {n : Nat} (h : c ∈ decimal n) : c.isDigit = true :=
  Nat.isDigit_of_mem_toDigits (by decide) (by decide) h

theorem decimal_ne_nil (n : Nat) : decimal n ≠ [] := Nat.toDigits_ne_nil

theorem value_decimal (n : Nat) : value (decimal n) = n :=
  Nat.ofDigitChars_ten_toDigits

theorem digits?_decimal (n : Nat) : digits? (decimal n) = some n := by
  have hall : (decimal n).all Char.isDigit = true :=
    List.all_eq_true.2 fun _ hc => isDigit_of_mem_decimal hc
  have hne : (decimal n).isEmpty = false := by
    simpa using decimal_ne_nil n
  rw [digits?, hall, hne, value_decimal]
  rfl

/-- A number in decimal is read back, unless it exceeds the bound. -/
theorem natural?_decimal {bound n : Nat} (h : n ≤ bound) : natural? bound (decimal n) = some n := by
  have hplus : ∀ rest, decimal n ≠ '+' :: rest := by
    intro rest hrest
    have : ('+' : Char).isDigit = true := isDigit_of_mem_decimal (by rw [hrest]; simp)
    exact absurd this (by decide)
  rw [natural?]
  · simp [digits?_decimal, Option.filter, h]
  · exact hplus

end Numeral

theorem isBlank_of_isDigit {c : Char} (h : c.isDigit = true) : isBlank c = false := by
  simp only [Char.isDigit, Bool.and_eq_true, decide_eq_true_eq] at h
  have hlo : 48 ≤ c.toNat := h.1
  have hhi : c.toNat ≤ 57 := h.2
  simp only [isBlank, Bool.or_eq_false_iff, Bool.and_eq_false_iff, decide_eq_false_iff_not,
    beq_eq_false_iff_ne]
  omega

/-! ## Paths of numbers -/

namespace Position

theorem component_decimal {n : Nat} (h : n ≤ Numeral.max64) :
    component (Numeral.decimal n) = n := by
  have htight : Text.Tight (Numeral.decimal n) :=
    Text.tight_of_forall fun c hc => isBlank_of_isDigit (Numeral.isDigit_of_mem_decimal hc)
  rw [component, Text.trim_of_tight htight, Numeral.natural?_decimal h]
  rfl

theorem not_dot_mem_decimal (n : Nat) : '.' ∉ Numeral.decimal n := by
  intro h
  exact absurd (Numeral.isDigit_of_mem_decimal h) (by decide)

/-- The text of a path holds digits and dots only. -/
theorem mem_text_ofComponents {path : List Nat} {c : Char} (h : c ∈ (ofComponents path).text) :
    c = '.' ∨ c.isDigit = true := by
  rcases Text.mem_joinWith h with h | ⟨piece, hpiece, hc⟩
  · exact Or.inl h
  · obtain ⟨n, -, rfl⟩ := List.mem_map.1 hpiece
    exact Or.inr (Numeral.isDigit_of_mem_decimal hc)

theorem text_ofComponents_ne_nil {path : List Nat} (hne : path ≠ []) :
    (ofComponents path).text ≠ [] := by
  cases path with
  | nil => exact absurd rfl hne
  | cons n rest =>
      cases rest with
      | nil => exact Numeral.decimal_ne_nil n
      | cons m more => simp [ofComponents, Text.joinWith]

/-- The numbers of a path are read back from its text. -/
theorem components_ofComponents {path : List Nat} (hne : path ≠ [])
    (hle : ∀ n ∈ path, n ≤ Numeral.max64) : (ofComponents path).components = path := by
  have habsent : (ofComponents path).isAbsent = false := by
    simpa [isAbsent] using text_ofComponents_ne_nil hne
  have hsplit : Text.splitOn '.' (ofComponents path).text = path.map Numeral.decimal := by
    refine Text.splitOn_joinWith (by simpa using hne) ?_
    intro piece hpiece
    obtain ⟨n, -, rfl⟩ := List.mem_map.1 hpiece
    exact not_dot_mem_decimal n
  have hread : ∀ n ∈ path, (component ∘ Numeral.decimal) n = n := fun n hn =>
    component_decimal (hle n hn)
  rw [components, habsent, if_neg (by simp), hsplit, List.map_map, List.map_congr_left hread,
    List.map_id']

end Position

/-! ## Counted positions -/

namespace Counter

theorem counts_advance_ne_nil (c : Counter) (depth : Nat) : (c.advance depth).counts ≠ [] := by
  intro h
  have := length_advance c depth
  rw [h] at this
  simp at this

/-- The counts of a counter are the numbers of its position. -/
theorem text_position_ne_nil {c : Counter} (hne : c.counts ≠ []) : c.position.text ≠ [] :=
  Position.text_ofComponents_ne_nil hne

theorem components_position {c : Counter} (hne : c.counts ≠ []) :
    c.position.components = c.counts :=
  Position.components_ofComponents hne c.counts_le

/-- A counter goes on from the position that it gave. -/
theorem resetTo_position {c : Counter} (hne : c.counts ≠ []) : resetTo c.position = c := by
  have := components_position hne
  cases c with
  | mk counts hle => simpa [resetTo] using this

theorem mem_text_position {c : Counter} {d : Char} (h : d ∈ c.position.text) :
    d = '.' ∨ d.isDigit = true :=
  Position.mem_text_ofComponents h

/-- A counted position has no blanks to trim. -/
theorem isBlank_of_mem_text_position {c : Counter} {d : Char} (h : d ∈ c.position.text) :
    isBlank d = false := by
  rcases mem_text_position h with rfl | hd
  · decide
  · exact isBlank_of_isDigit hd

/-- A counted position is read back from its text. -/
theorem ofText_position (c : Counter) : Position.ofText c.position.text = c.position := by
  have htight : Text.Tight c.position.text :=
    Text.tight_of_forall fun _ hd => isBlank_of_mem_text_position hd
  rw [Position.ofText, Text.trim_of_tight htight]

end Counter

end PlanGraph
