import PlanGraph.Bracket.Argument
import PlanGraph.Proofs.Bracket.Matching

set_option autoImplicit false

/-! # The first argument behind a marker

The search for an argument goes from one marker to the next, and behind each it goes on with what
follows the marker. So it could miss a marker that starts inside another one. No marker does if it
is `Unbordered`, that is, if it does not end with a front of itself: then the search is the same as
trying every place of the text in turn (`findIn?_eq_firstMatch`), and it finds the leftmost marker
that a closed bracket of an accepted kind follows, whatever stood behind the markers before it
(`findIn?_leftmost`). -/

namespace PlanGraph

namespace Text

/-- A text of which no part but the whole is both its front and its end. -/
def Unbordered (p : Text) : Prop := ∀ s, s ≠ [] → s ≠ p → s <+: p → ¬ s <:+ p

instance (p : Text) : Decidable (Unbordered p) :=
  decidable_of_iff (∀ s ∈ p.inits, s ≠ [] → s ≠ p → ¬ s <:+ p)
    ⟨fun h s hne hproper hs => h s ((List.mem_inits s p).2 hs) hne hproper,
      fun h s hs hne hproper => h s hne hproper ((List.mem_inits s p).1 hs)⟩

/-- A text that does not end with a front of itself does not start again before its end. -/
theorem Unbordered.after?_eq_none {c : Char} {p u : Text} (h : Unbordered (c :: p)) (hne : u ≠ [])
    (hu : u <:+ p) (t : Text) : after? (u ++ t) (c :: p) = none := by
  rw [Option.eq_none_iff_forall_ne_some]
  intro rest hrest
  have hcut : u ++ t = (c :: p) ++ rest := after?_eq_some_iff.1 hrest
  have hlength : u.length ≤ p.length := hu.length_le
  have hprefix : u <+: c :: p :=
    List.prefix_of_prefix_length_le ⟨t, hcut⟩ (List.prefix_append _ _)
      (Nat.le_succ_of_le hlength)
  have hproper : u ≠ c :: p := by
    rintro rfl
    rw [List.length_cons] at hlength
    omega
  exact h u hne hproper hprefix (hu.trans (List.suffix_cons _ _))

end Text

namespace Bracket

theorem enclosed?_eq_some_iff {t inner left : Text} {b : Bracket} :
    enclosed? t = some (b, inner, left) ↔
      ∃ rest, t = b.opening :: rest ∧ b.close? rest = some (inner, left) := by
  constructor
  · intro h
    cases t with
    | nil => cases h
    | cons c rest =>
        cases hc : ofOpening? c with
        | none => simp [enclosed?, hc] at h
        | some d =>
            obtain rfl := opening_of_ofOpening? hc
            rw [enclosed?_opening_cons] at h
            obtain ⟨cut, hcut, heq⟩ := Option.map_eq_some_iff.1 h
            cases heq
            exact ⟨rest, rfl, hcut⟩
  · rintro ⟨rest, rfl, hclose⟩
    rw [enclosed?_opening_cons, hclose]
    rfl

/-- The bracket that closes another one is found by its offset. -/
theorem matchingOffset?_byteSize_iff {b : Bracket} {before inner rest : Text}
    (h : inner <+: rest) :
    matchingOffset? (before ++ b.opening :: rest) before.byteSize =
        some (before ++ b.opening :: inner).byteSize ↔
      ∃ left, b.close? rest = some (inner, left) := by
  have hsize : (before ++ b.opening :: inner).byteSize = before.byteSize + 1 + inner.byteSize := by
    rw [Text.byteSize_append, Text.byteSize_cons, utf8Size_opening, Nat.add_assoc]
  rw [matchingOffset?_eq (Text.fromByte?_byteSize before _), hsize, Option.map_eq_some_iff]
  constructor
  · rintro ⟨⟨found, left⟩, hclose, hfound⟩
    obtain ⟨more, rfl⟩ := h
    obtain rfl : inner = found :=
      Text.eq_of_byteSize (close?_append hclose) (Nat.add_left_cancel hfound).symm
    exact ⟨left, hclose⟩
  · rintro ⟨left, hclose⟩
    exact ⟨(inner, left), hclose, rfl⟩

end Bracket

namespace Argument

/-! ## Markers and their arguments -/

/-- The marker stands behind `front` and has an argument: a bracket of an accepted kind directly
    follows it and is closed. -/
def HasArgument (accepted : List Bracket) (marker t front : Text) : Prop :=
  ∃ b ∈ accepted, ∃ rest, t = front ++ marker ++ b.opening :: rest ∧
    (Bracket.matchingOffset? t (front ++ marker).byteSize).isSome = true

/-- The argument of the marker behind `front` is `arg`: the bracket that directly follows the marker
    is of this kind, and up to the bracket that closes it encloses this content. -/
def Occurs (accepted : List Bracket) (marker t front : Text) (arg : Argument) : Prop :=
  arg.bracket ∈ accepted ∧
    ∃ inner left : Text, t = front ++ marker ++ arg.bracket.opening :: (inner ++ left) ∧
      Bracket.matchingOffset? t (front ++ marker).byteSize =
        some (front ++ marker ++ arg.bracket.opening :: inner).byteSize ∧
      arg.content = inner.trim

theorem here?_eq_some_iff {accepted : List Bracket} {t : Text} {arg : Argument} :
    here? accepted t = some arg ↔
      arg.bracket ∈ accepted ∧ ∃ inner left,
        Bracket.enclosed? t = some (arg.bracket, inner, left) ∧ arg.content = inner.trim := by
  cases henclosed : Bracket.enclosed? t with
  | none => simp [here?, henclosed]
  | some found =>
      obtain ⟨b, inner, left⟩ := found
      obtain ⟨bracket, content⟩ := arg
      simp only [here?, henclosed, Option.bind_eq_bind, Option.bind_some]
      grind

/-- The argument of a marker is what stands at the front of the text behind the marker. -/
theorem occurs_iff {accepted : List Bracket} {marker t front : Text} {arg : Argument} :
    Occurs accepted marker t front arg ↔
      ∃ rest, t = front ++ marker ++ rest ∧ here? accepted rest = some arg := by
  simp only [Occurs, here?_eq_some_iff, Bracket.enclosed?_eq_some_iff]
  constructor
  · rintro ⟨haccepted, inner, left, rfl, hmatching, hcontent⟩
    obtain ⟨more, hclose⟩ :=
      (Bracket.matchingOffset?_byteSize_iff (List.prefix_append inner left)).1 hmatching
    exact ⟨_, rfl, haccepted, inner, more, ⟨_, rfl, hclose⟩, hcontent⟩
  · rintro ⟨_, rfl, haccepted, inner, left, ⟨rest, rfl, hclose⟩, hcontent⟩
    obtain rfl := Bracket.close?_append hclose
    exact ⟨haccepted, inner, arg.bracket.closing :: left, rfl,
      (Bracket.matchingOffset?_byteSize_iff (List.prefix_append _ _)).2 ⟨left, hclose⟩, hcontent⟩

theorem hasArgument_iff {accepted : List Bracket} {marker t front : Text} :
    HasArgument accepted marker t front ↔ ∃ arg, Occurs accepted marker t front arg := by
  constructor
  · rintro ⟨b, haccepted, rest, rfl, hclosed⟩
    rw [Bracket.matchingOffset?_eq (Text.fromByte?_byteSize _ _), Option.isSome_map] at hclosed
    obtain ⟨⟨inner, left⟩, hclose⟩ := Option.isSome_iff_exists.1 hclosed
    have henclosed : Bracket.enclosed? (b.opening :: rest) = some (b, inner, left) :=
      Bracket.enclosed?_eq_some_iff.2 ⟨rest, rfl, hclose⟩
    exact ⟨⟨b, inner.trim⟩, occurs_iff.2
      ⟨_, rfl, here?_eq_some_iff.2 ⟨haccepted, inner, left, henclosed, rfl⟩⟩⟩
  · rintro ⟨arg, haccepted, inner, left, ht, hmatching, -⟩
    exact ⟨arg.bracket, haccepted, inner ++ left, ht, by rw [hmatching]; rfl⟩

/-! ## The search -/

/-- The argument of a marker at the front of a text. -/
def behind? (accepted : List Bracket) (marker place : Text) : Option Argument :=
  (place.after? marker).bind (here? accepted)

theorem occurs_iff_behind? {accepted : List Bracket} {marker t front : Text} {arg : Argument} :
    Occurs accepted marker t front arg ↔
      ∃ place, t = front ++ place ∧ behind? accepted marker place = some arg := by
  simp only [occurs_iff, behind?, Option.bind_eq_some_iff, Text.after?_eq_some_iff,
    List.append_assoc]
  constructor
  · rintro ⟨rest, ht, hhere⟩
    exact ⟨marker ++ rest, ht, rest, rfl, hhere⟩
  · rintro ⟨_, ht, rest, rfl, hhere⟩
    exact ⟨rest, ht, hhere⟩

/-- The search for a marker that cannot overlap itself tries every place. -/
theorem findIn?_eq_firstMatch {marker : Text} (hne : marker ≠ []) (h : marker.Unbordered)
    (accepted : List Bracket) (t : Text) :
    findIn? accepted marker t = t.firstMatch (behind? accepted marker) := by
  obtain ⟨m, marker, rfl⟩ := List.exists_cons_of_ne_nil hne
  induction hn : t.length using Nat.strong_induction_on generalizing t with
  | _ n ih =>
      subst hn
      cases t with
      | nil => rfl
      | cons c rest =>
          rw [findIn?, candidates]
          cases hmark : Text.after? (c :: rest) (m :: marker) with
          | none =>
              rw [Text.allMatches_of_none (by rw [hmark]; rfl), Text.firstMatch, behind?, hmark]
              exact ih rest.length (Nat.lt_succ_self _) rest rfl
          | some left =>
              -- no other marker starts inside this one, so the search may go on behind it
              have hcut := Text.after?_eq_some_iff.1 hmark
              rw [List.cons_append, List.cons.injEq] at hcut
              obtain ⟨rfl, rfl⟩ := hcut
              have hskip : Text.firstMatch (behind? accepted (c :: marker)) (marker ++ left) =
                  Text.firstMatch (behind? accepted (c :: marker)) left := by
                refine Text.firstMatch_append left fun u hu hsuffix => ?_
                rw [behind?, h.after?_eq_none hu hsuffix, Option.bind_none]
              have hshorter : left.length < (c :: (marker ++ left)).length := by
                rw [List.length_cons, List.length_append]
                omega
              have hbehind := ih left.length hshorter left rfl
              rw [Text.allMatches_of_some (by rw [hmark]; rfl) (List.suffix_append _ _),
                Text.firstMatch, behind?, hmark, hskip, ← hbehind]
              cases hhere : here? accepted left <;> simp [hhere, findIn?, candidates]

/-- The argument found is that of the leftmost marker which has one, and it is found if any marker
    has one. -/
theorem findIn?_leftmost {marker : Text} (hne : marker ≠ []) (h : marker.Unbordered)
    (accepted : List Bracket) (t : Text) :
    (∀ arg, findIn? accepted marker t = some arg ↔
      ∃ front, Occurs accepted marker t front arg ∧
        ∀ f, HasArgument accepted marker t f → front.length ≤ f.length) ∧
    ((findIn? accepted marker t).isSome = true ↔ ∃ front, HasArgument accepted marker t front) := by
  simp only [findIn?_eq_firstMatch hne h, hasArgument_iff, occurs_iff_behind?]
  constructor
  · intro arg
    rw [Text.firstMatch_eq_some_iff]
    constructor
    · rintro ⟨front, place, ht, hread, hfirst⟩
      refine ⟨front, ⟨place, ht, hread⟩, ?_⟩
      rintro f ⟨a, p, hp, hreadp⟩
      by_contra hlt
      rw [hfirst f p hp (Nat.lt_of_not_le hlt)] at hreadp
      cases hreadp
    · rintro ⟨front, ⟨place, ht, hread⟩, hleft⟩
      refine ⟨front, place, ht, hread, fun f p hp hlt => ?_⟩
      rw [Option.eq_none_iff_forall_ne_some]
      intro a ha
      exact absurd (hleft f ⟨a, p, hp, ha⟩) (Nat.not_le_of_lt hlt)
  · rw [Text.isSome_firstMatch_iff]
    constructor
    · rintro ⟨place, ⟨front, rfl⟩, hread⟩
      obtain ⟨arg, harg⟩ := Option.isSome_iff_exists.1 hread
      exact ⟨front, arg, place, rfl, harg⟩
    · rintro ⟨front, arg, place, rfl, hread⟩
      exact ⟨place, List.suffix_append _ _, Option.isSome_iff_exists.2 ⟨arg, hread⟩⟩

/-- A marker without a bracket, one with a bracket of another kind, one whose bracket is not closed
    and one whose argument holds a marker of its own. -/
def strayMarkers : Text := "%> oops %>{a} %>(b %>[ c %>(d) ] %>[e]"

theorem findIn?_strayMarkers :
    (["%>".toList, "%<".toList, "%:".toList, "%@".toList, "%-".toList, "$%".toList].all
      fun marker => decide (marker ≠ [] ∧ Text.Unbordered marker)) = true ∧
    ∃ front, Occurs [.round, .square] "%>" strayMarkers front ⟨.square, "c %>(d)"⟩ ∧
      ∀ f, HasArgument [.round, .square] "%>" strayMarkers f → front.length ≤ f.length := by
  refine ⟨by decide, ?_⟩
  exact ((findIn?_leftmost (by decide) (by decide) _ _).1 _).1 (by decide)

end Argument

end PlanGraph
