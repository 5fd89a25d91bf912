set_option autoImplicit false

/-! # Blank characters

The white space of a plan: every character with the Unicode property `White_Space`. Trimming,
the gaps inside markers and the words of a line all use this one class. -/

namespace PlanGraph

/-- Whether `c` is white space: a tab, a line break, a space, or one of the wider blanks. -/
def isBlank (c : Char) : Bool :=
  let n := c.toNat
  (9 ≤ n && n ≤ 13) || n == 0x20 || n == 0x85 || n == 0xA0 || n == 0x1680 ||
    (0x2000 ≤ n && n ≤ 0x200A) || n == 0x2028 || n == 0x2029 || n == 0x202F ||
    n == 0x205F || n == 0x3000

/-- The ASCII blanks of the standard library are blanks of a plan. -/
theorem isBlank_of_isWhitespace {c : Char} (h : c.isWhitespace = true) : isBlank c = true := by
  simp only [Char.isWhitespace, Bool.or_eq_true, decide_eq_true_eq] at h
  rcases h with ((rfl | rfl) | rfl) | rfl <;> decide

end PlanGraph
