import PlanGraph.Text.Basic

set_option autoImplicit false

/-! # Brackets

Concept names nest freely, so a text is cut at a bracket only by counting. Round, square and curly
brackets count their own pair and nothing else. An angle bracket encloses a proposition, which may
compare (`<count > 5>`): it ends at the last `>` outside other brackets, before the first tag that
may follow a proposition. -/

namespace PlanGraph

/-- The four kinds of brackets. -/
inductive Bracket where
  | round
  | square
  | curly
  | angle
deriving DecidableEq, Repr, Inhabited

namespace Bracket

/-- The opening bracket of a kind. -/
def opening : Bracket → Char
  | round => '('
  | square => '['
  | curly => '{'
  | angle => '<'

/-- The closing bracket of a kind. -/
def closing : Bracket → Char
  | round => ')'
  | square => ']'
  | curly => '}'
  | angle => '>'

/-- The kind that a character opens. -/
def ofOpening? : Char → Option Bracket
  | '(' => some round
  | '[' => some square
  | '{' => some curly
  | '<' => some angle
  | _ => none

/-- The kind that a character closes. -/
def ofClosing? : Char → Option Bracket
  | ')' => some round
  | ']' => some square
  | '}' => some curly
  | '>' => some angle
  | _ => none

theorem ofOpening?_opening (b : Bracket) : ofOpening? b.opening = some b := by
  cases b <;> rfl

theorem opening_of_ofOpening? {c : Char} {b : Bracket} (h : ofOpening? c = some b) :
    c = b.opening := by
  unfold ofOpening? at h
  split at h <;> simp_all [opening] <;> subst h <;> rfl

/-! ## The end of a bracket -/

/-- Cuts a text at the bracket `close` that ends the present level, given that `depth` more pairs
    are open inside it. Only this one pair is counted. -/
def splitPair (openBracket close : Char) : Nat → Text → Option (Text × Text)
  | _, [] => none
  | depth, c :: rest =>
    if c = openBracket then
      (splitPair openBracket close (depth + 1) rest).map fun (inner, left) => (c :: inner, left)
    else if c = close then
      if depth = 0 then some ([], rest)
      else
        (splitPair openBracket close (depth - 1) rest).map fun (inner, left) => (c :: inner, left)
    else
      (splitPair openBracket close depth rest).map fun (inner, left) => (c :: inner, left)

/-- The tags that may follow a proposition: a binding, a loop reference, a combinator. -/
def suffixTags : List Text := [['<', ':', '{'], "<$(", ['<', '{']]

/-- Cuts the body of a proposition at its last `>` outside other brackets, `depth` of which are
    open. Once a `>` was `seen`, a tag outside other brackets ends the search. -/
def splitProposition : Nat → Bool → Text → Option (Text × Text)
  | _, _, [] => none
  | depth, seen, c :: rest =>
    if c = '(' ∨ c = '[' ∨ c = '{' then
      (splitProposition (depth + 1) seen rest).map fun (inner, left) => (c :: inner, left)
    else if c = ')' ∨ c = ']' ∨ c = '}' then
      (splitProposition (depth - 1) seen rest).map fun (inner, left) => (c :: inner, left)
    else if c = '>' ∧ depth = 0 then
      match splitProposition depth true rest with
      | some (inner, left) => some (c :: inner, left)
      | none => some ([], rest)
    else if c = '<' ∧ depth = 0 ∧ seen ∧ suffixTags.any (Text.startsWith (c :: rest)) then
      none
    else
      (splitProposition depth seen rest).map fun (inner, left) => (c :: inner, left)

/-- Cuts a text that stands just behind an opening bracket into what the bracket encloses and what
    follows the closing one. -/
def close? : Bracket → Text → Option (Text × Text)
  | angle, t => splitProposition 0 false t
  | b, t => splitPair b.opening b.closing 0 t

/-- Cuts a text that starts with an opening bracket: its kind, what it encloses and the rest. -/
def enclosed? : Text → Option (Bracket × Text × Text)
  | [] => none
  | c :: rest => do
    let b ← ofOpening? c
    let (inner, left) ← b.close? rest
    return (b, inner, left)

/-- The byte offset of the bracket that closes the one at byte offset `start`. -/
def matchingOffset? (t : Text) (start : Nat) : Option Nat := do
  let here ← t.fromByte? start
  let (_, inner, _) ← enclosed? here
  return start + 1 + inner.byteSize

/-- What a pair of brackets around the whole text encloses. -/
def strip? (b : Bracket) (t : Text) : Option Text :=
  match enclosed? t.trim with
  | some (found, inner, []) => if found = b then some inner else none
  | _ => none

/-! ## Nothing is lost -/

theorem splitPair_append {o c : Char} {depth : Nat} {t inner left : Text}
    (h : splitPair o c depth t = some (inner, left)) : t = inner ++ c :: left := by
  induction t generalizing depth inner left with
  | nil => simp [splitPair] at h
  | cons x rest ih =>
    rw [splitPair] at h
    split at h
    · obtain ⟨⟨a, b⟩, hab, heq⟩ := Option.map_eq_some_iff.1 h
      cases heq
      simp [ih hab]
    · split at h
      · next hx =>
        split at h
        · cases h; simp [hx]
        · obtain ⟨⟨a, b⟩, hab, heq⟩ := Option.map_eq_some_iff.1 h
          cases heq
          simp [ih hab]
      · obtain ⟨⟨a, b⟩, hab, heq⟩ := Option.map_eq_some_iff.1 h
        cases heq
        simp [ih hab]

theorem splitProposition_append {depth : Nat} {seen : Bool} {t inner left : Text}
    (h : splitProposition depth seen t = some (inner, left)) : t = inner ++ '>' :: left := by
  induction t generalizing depth seen inner left with
  | nil => simp [splitProposition] at h
  | cons x rest ih =>
    rw [splitProposition] at h
    split at h
    · obtain ⟨⟨a, b⟩, hab, heq⟩ := Option.map_eq_some_iff.1 h
      cases heq
      simp [ih hab]
    · split at h
      · obtain ⟨⟨a, b⟩, hab, heq⟩ := Option.map_eq_some_iff.1 h
        cases heq
        simp [ih hab]
      · split at h
        · next hx =>
          split at h
          · next a b hab => cases h; simp [ih hab]
          · cases h; simp [hx.1]
        · split at h
          · simp at h
          · obtain ⟨⟨a, b⟩, hab, heq⟩ := Option.map_eq_some_iff.1 h
            cases heq
            simp [ih hab]

/-- A closed bracket, what it encloses and the rest make up the text. -/
theorem close?_append {b : Bracket} {t inner left : Text} (h : b.close? t = some (inner, left)) :
    t = inner ++ b.closing :: left := by
  cases b with
  | angle => exact splitProposition_append h
  | round => exact splitPair_append h
  | square => exact splitPair_append h
  | curly => exact splitPair_append h

end Bracket

end PlanGraph
