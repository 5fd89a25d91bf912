import Mathlib.Data.List.Chain
import PlanGraph.Proofs.Line.Parse
import PlanGraph.Proofs.Note
import PlanGraph.Proofs.Position.Order

set_option autoImplicit false

/-! # Counted positions are fresh

A line that asks for no position is counted, and what is counted lies behind the position of the
line before it, however that one came about: the new path either raises one of its numbers or
extends it (`Counter.counts_lt_advance`). The cursor carries this from line to line, since behind
every role line its counts are the numbers of the position that it stands at (`Cursor.AtLine`).
So each line is read with the cursor at the position of the line before it (`isChain_readAt`), and
where no line asks for a position, all positions ascend (`ascending_parse`). -/

namespace PlanGraph

namespace Counter

/-- Counting a line leads to a later path, unless the count of its depth starts over. -/
theorem counts_lt_advance (c : Counter) {depth : Nat} (h : c.counts.getD depth 0 < Numeral.max64) :
    c.counts < (c.advance depth).counts := by
  have hraise : raise (c.counts.getD depth 0) = c.counts.getD depth 0 + 1 :=
    Nat.mod_eq_of_lt (Nat.succ_lt_succ h)
  show c.counts < c.counts.take depth ++ List.replicate (depth - c.counts.length) 0 ++
    [raise (c.counts.getD depth 0)]
  rw [hraise]
  by_cases hd : depth < c.counts.length
  · -- the count of the depth is raised, and what was deeper is dropped
    have hcount : c.counts.getD depth 0 = c.counts[depth] := by
      rw [List.getD_eq_getElem?_getD, List.getElem?_eq_getElem hd, Option.getD_some]
    have hlt := path_append_lt (Nat.lt_succ_self c.counts[depth]) (c.counts.take depth)
      (c.counts.drop (depth + 1)) []
    rw [List.getElem_cons_drop, List.take_append_drop] at hlt
    rw [hcount, Nat.sub_eq_zero_of_le (Nat.le_of_lt hd), List.replicate_zero, List.append_nil]
    exact hlt
  · -- the path is extended
    rw [List.take_of_length_le (Nat.not_lt.1 hd), List.append_assoc]
    exact path_lt_append _ (by simp)

end Counter

/-! ## The cursor behind a role line -/

namespace Physical

/-- A position that is asked for is spelled by some text. -/
theorem text_ne_nil_of_positionTag? {comment : Text} {p : Position}
    (h : positionTag? comment = some p) : p.text ≠ [] := by
  obtain ⟨value, hvalue, rfl⟩ := Option.map_eq_some_iff.1 h
  obtain ⟨hget, hne⟩ := Option.filter_eq_some_iff.1 hvalue
  rw [TextMap.get?_ofFirst] at hget
  have htight : Text.Tight value := Note.tight_of_mem_tagEntries (TextMap.mem_of_get? hget)
  rw [Position.ofText, Text.trim_of_tight htight]
  simpa using hne

end Physical

namespace Entry

/-- The cursor stands at a position, and its counts are the numbers of that position. -/
structure Cursor.AtLine (cursor : Cursor) : Prop where
  text_ne_nil : cursor.position.text ≠ []
  counts : cursor.counter.counts = cursor.position.components

theorem Cursor.atLine_step (cursor : Cursor) (depth : Nat) (comment : Option Text) :
    (cursor.step depth comment).AtLine := by
  rw [Cursor.step]
  split
  · next asked hasked =>
      obtain ⟨comment, -, htag⟩ := Option.bind_eq_some_iff.1 hasked
      exact ⟨Physical.text_ne_nil_of_positionTag? htag, rfl⟩
  · have hne := cursor.counter.counts_advance_ne_nil depth
    exact ⟨Counter.text_position_ne_nil hne, (Counter.components_position hne).symm⟩

/-- The key of the position that the cursor stands at. -/
theorem Cursor.AtLine.rank_eq {cursor : Cursor} (h : cursor.AtLine) :
    cursor.position.sortKey.rank = (cursor.counter.counts : WithTop (List Nat)) := by
  rw [Position.sortKey_of_text_ne_nil h.text_ne_nil, h.counts]
  rfl

/-- A line that is counted lies behind the position of the cursor. -/
theorem Cursor.AtLine.rank_lt_step {cursor : Cursor} (h : cursor.AtLine) {depth : Nat}
    {comment : Option Text} (hasked : comment.bind Physical.positionTag? = none)
    (hcount : cursor.position.components.getD depth 0 < Numeral.max64) :
    cursor.position.sortKey.rank < (cursor.step depth comment).position.sortKey.rank := by
  rw [h.rank_eq, (cursor.atLine_step depth comment).rank_eq, WithTop.coe_lt_coe]
  rw [← h.counts] at hcount
  simp only [Cursor.step, hasked]
  exact cursor.counter.counts_lt_advance hcount

end Entry

namespace Line

/-! ## From line to line -/

/-- The position that the role line of a parsed line asks for. -/
def asked? (source : Text) (l : Line) : Option Position :=
  ((Text.splitOn '\n' source)[l.lineNumber - 1]?).bind Physical.asked?

/-- A line that is read with the cursor at the position `p`, where the text is given from line
    `first` on. -/
def ReadAt (width first : Nat) (source : List Text) (p : Position) (l : Line) : Prop :=
  ∃ cursor raw followers, Entry.Cursor.AtLine cursor ∧ cursor.position = p ∧
    first ≤ l.lineNumber ∧ source[l.lineNumber - first]? = some raw ∧
    l = ofRole width l.lineNumber cursor raw followers

theorem ReadAt.cons {width first : Nat} {source : List Text} {p : Position} {l : Line}
    (h : ReadAt width (first + 1) source p l) (raw : Text) :
    ReadAt width first (raw :: source) p l := by
  obtain ⟨cursor, raw', followers, hcursor, hp, hfirst, hraw, hl⟩ := h
  have hindex : l.lineNumber - first = (l.lineNumber - (first + 1)) + 1 := by omega
  refine ⟨cursor, raw', followers, hcursor, hp, by omega, ?_, hl⟩
  rw [hindex, List.getElem?_cons_succ, hraw]

/-- Each line is read with the cursor at the position of the line before it, and the first one with
    the cursor where it is. -/
theorem isChain_readFrom (width : Nat) (cursor : Entry.Cursor) (n : Nat) (source : List Text) :
    (readFrom width cursor n source).2.IsChain (fun prev l => ReadAt width n source prev.position l) ∧
      (cursor.AtLine → ∀ l ∈ (readFrom width cursor n source).2.head?,
        ReadAt width n source cursor.position l) := by
  induction source generalizing cursor n with
  | nil => simp [readFrom_nil]
  | cons raw more ih =>
      cases hrole : Role.opens raw.trim with
      | true =>
          obtain ⟨hchain, hhead⟩ := ih
            (cursor.step (Physical.depth width raw) (Physical.splitComment raw.trim).2) (n + 1)
          rw [readFrom_role more hrole]
          constructor
          · -- the cursor behind the line stands at its position
            refine List.isChain_cons.2 ⟨?_, hchain.imp fun _ _ h => h.cons raw⟩
            intro l hl
            exact (hhead (cursor.atLine_step _ _) l hl).cons raw
          · rintro hcursor l hl
            obtain rfl := Option.some.inj hl
            exact ⟨cursor, raw, _, hcursor, rfl, Nat.le_refl n, by simp [lineNumber_ofRole], rfl⟩
      | false =>
          -- nothing is read, and the cursor stays
          have hsame : (readFrom width cursor n (raw :: more)).2 =
              (readFrom width cursor (n + 1) more).2 := by
            by_cases hne : raw.trim = []
            · rw [readFrom_blank more hne]
            · rw [readFrom_comment more hne hrole]
          obtain ⟨hchain, hhead⟩ := ih cursor (n + 1)
          rw [hsame]
          refine ⟨hchain.imp fun _ _ h => h.cons raw, ?_⟩
          intro hcursor l hl
          exact (hhead hcursor l hl).cons raw

theorem isChain_readAt (width : Nat) (source : Text) :
    (parse width source).IsChain fun prev l =>
      ReadAt width 1 (Text.splitOn '\n' source) prev.position l :=
  (isChain_readFrom width .start 1 _).1

/-- A line that asks for no position lies behind the position at which it is read. -/
theorem ReadAt.rank_lt {width : Nat} {source : Text} {p : Position} {l : Line}
    (h : ReadAt width 1 (Text.splitOn '\n' source) p l) (hasked : l.asked? source = none)
    (hcount : p.components.getD l.depth 0 < Numeral.max64) :
    p.sortKey.rank < l.position.sortKey.rank := by
  obtain ⟨cursor, raw, followers, hcursor, rfl, -, hraw, hl⟩ := h
  rw [asked?, hraw, Option.bind_some, Physical.asked?] at hasked
  rw [hl] at hcount ⊢
  exact hcursor.rank_lt_step hasked hcount

/-! ## Texts without positions -/

theorem asked?_of_plain {width : Nat} {source : Text} (hplain : Physical.Plain source) {l : Line}
    (hl : l ∈ parse width source) : l.asked? source = none := by
  obtain ⟨n, cursor, raw, followers, ⟨-, hraw⟩, hrole, rfl⟩ := exists_ofRole_of_mem_readFrom hl
  rw [asked?, lineNumber_ofRole, hraw]
  exact hplain raw (List.mem_of_getElem? hraw) hrole

/-- The count that a line raises, read from the position before it, is not the largest yet. -/
def CountsUp (prev l : Line) : Prop := prev.position.components.getD l.depth 0 < Numeral.max64

instance (prev l : Line) : Decidable (CountsUp prev l) :=
  inferInstanceAs (Decidable (prev.position.components.getD l.depth 0 < Numeral.max64))

/-- Where no line asks for a position, the positions ascend from line to line. -/
theorem ascending_parse {width : Nat} {source : Text} (hplain : Physical.Plain source)
    (hcounts : (parse width source).IsChain CountsUp) :
    (parse width source).Pairwise fun a b => a.position.sortKey.rank < b.position.sortKey.rank := by
  have hchain : ((parse width source).map (·.position.sortKey.rank)).IsChain (· < ·) := by
    rw [List.isChain_map, List.isChain_iff_forall_rel_of_append_cons_cons]
    intro prev l before behind hlines
    have hl : l ∈ parse width source := by rw [hlines]; simp
    have hread := List.isChain_iff_forall_rel_of_append_cons_cons.1 (isChain_readAt width source) hlines
    have hcount := List.isChain_iff_forall_rel_of_append_cons_cons.1 hcounts hlines
    exact hread.rank_lt (asked?_of_plain hplain hl) hcount
  exact List.pairwise_map.1 (List.isChain_iff_pairwise.1 hchain)

end Line

end PlanGraph
