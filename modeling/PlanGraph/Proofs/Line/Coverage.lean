import Mathlib.Data.List.Chain
import Mathlib.Data.List.Forall2
import PlanGraph.Proofs.Line.Physical
import PlanGraph.Proofs.Line.Relocation

set_option autoImplicit false

/-! # No line is lost

Between a text and its parsed lines stand the entries. On the way there each line that is not blank
gives a comment, or a main entry that its own inline comment may follow (`forall₂_covers_ofLines`),
and an entry that is not main stands at the position of the entry before it (`isChain_ofLines`). On
the way back the entries are cut in front of each main entry, and each block becomes a line
(`group_eq`). Together nothing is lost and nothing is moved (`scan_covers`). -/

namespace PlanGraph

namespace Physical

/-- The lines of a text that are not blank, each with its number. -/
def nonBlank (source : Text) : List (Text × Nat) :=
  ((Text.splitOn '\n' source).zipIdx 1).filter fun line => !line.1.trim.isEmpty

/-- No pipe that is not escaped stands in front of the first one. -/
theorem splitPipe?_eq_none_of_append {escaped : Bool} {s rest front back : Text}
    (h : splitPipe? escaped (s ++ rest) = some (front, back)) (hlength : back.length ≤ rest.length) :
    splitPipe? escaped s = none := by
  rw [Option.eq_none_iff_forall_ne_some]
  rintro ⟨front', back'⟩ hs
  rw [splitPipe?_append_of_some rest hs, Option.some.injEq, Prod.mk.injEq] at h
  obtain ⟨more, rfl⟩ := exists_of_splitPipe? hs
  have := congrArg List.length h.2
  rw [List.length_append, List.length_cons] at this
  omega

end Physical

namespace Entry

/-! ## The entries of one line -/

/-- Whether an entry opens a line of the plan. -/
def isMain (e : Entry) : Bool := e.form == .main

/-- The inline comment that the text behind the main text of line `n` makes. A pipe alone makes
    none. -/
inductive Inline (n : Nat) (behind : Text) : List Entry → Prop where
  | none (hshort : behind.length ≤ 1) : Inline n behind []
  | some {e : Entry} (hlong : 1 < behind.length) (hform : e.form = .inlineComment)
      (hnumber : e.lineNumber = n) (htext : e.text = behind) : Inline n behind [e]

/-- The entries of the line `raw` of number `n`. Without a role it is a comment as a whole. A role
    line is cut at its first pipe: what stands before the pipe is the main entry, and what stands
    from there on is the inline comment. -/
inductive Covers (n : Nat) (raw : Text) : List Entry → Prop where
  | comment {e : Entry} (hrole : Role.opens raw.trim = false) (hform : e.form = .comment)
      (hnumber : e.lineNumber = n) (htext : e.text = raw.trim) : Covers n raw [e]
  | role {e : Entry} {inline : List Entry} {front rest : Text} (hrole : Role.opens raw.trim = true)
      (hcut : raw.trim = front ++ rest) (hfront : Physical.splitPipe? false front = none)
      (hpipe : ∀ d ∈ rest.trim.head?, d = '|') (hform : e.form = .main)
      (hnumber : e.lineNumber = n) (htext : e.text = Note.unescape front)
      (hinline : Inline n rest.trim inline) : Covers n raw (e :: inline)

end Entry

namespace Physical

/-- A trimmed line is its main text, blanks, and all from the pipe on. -/
theorem exists_splitComment {t : Text} (ht : Text.Tight t) :
    ∃ rest, t = (splitComment t).1 ++ rest ∧ splitPipe? false (splitComment t).1 = none ∧
      (∀ d ∈ rest.trim.head?, d = '|') ∧
      (splitComment t).2 = if 1 < rest.trim.length then some rest.trim else none := by
  unfold splitComment
  cases hpipe : splitPipe? false t with
  | none =>
      have hnil : Text.trim [] = [] := Text.trim_of_tight Text.Tight.nil
      rw [Text.trim_of_tight ht]
      exact ⟨[], by simp, hpipe, by simp [hnil], by simp [hnil]⟩
  | some cut =>
      obtain ⟨front, back⟩ := cut
      have hline := splitPipe?_append hpipe
      obtain ⟨a, b, ha, hb, hfront⟩ := Text.exists_margins front
      -- the line is trimmed, so its main text has no margin on the left
      obtain rfl : a = [] := by
        cases a with
        | nil => rfl
        | cons c a =>
            have hhead := ht.1 c (by rw [hline, hfront]; rfl)
            rw [ha c List.mem_cons_self] at hhead
            cases hhead
      have hback := tight_of_splitPipe? ht hpipe
      obtain ⟨more, hmore⟩ := exists_of_splitPipe? hpipe
      have hrest : Text.trim (b ++ back) = back := by
        simpa using Text.trim_between hb hback Text.AllBlank.nil
      have hcut : t = front.trim ++ (b ++ back) := by
        rw [hline]
        conv_lhs => rw [hfront]
        simp
      refine ⟨b ++ back, hcut, ?_, ?_, ?_⟩
      · rw [hcut] at hpipe
        exact splitPipe?_eq_none_of_append hpipe (by simp)
      · rw [hrest, hmore]
        simp
      · simp only [hrest, Text.trim_of_tight hback]

end Physical

namespace Entry

section OfLine

variable {width n : Nat} {cursor : Cursor} {raw : Text}

theorem ofLine_comment (hrole : Role.opens raw.trim = false) :
    ofLine width cursor n raw =
      (cursor, [⟨cursor.position, Physical.depth width raw, .comment, raw.trim, n⟩]) := by
  simp [ofLine, hrole]

theorem ofLine_role (hrole : Role.opens raw.trim = true) :
    ofLine width cursor n raw =
      let depth := Physical.depth width raw
      let comment := (Physical.splitComment raw.trim).2
      let next := cursor.step depth comment
      (next, ⟨next.position, depth, .main, Note.unescape (Physical.splitComment raw.trim).1, n⟩ ::
        Line.inlineEntries next.position depth n comment) := by
  simp [ofLine, hrole, Line.inlineEntries]

theorem covers_ofLine : Covers n raw (ofLine width cursor n raw).2 := by
  cases hrole : Role.opens raw.trim with
  | false =>
      rw [ofLine_comment hrole]
      exact .comment hrole rfl rfl rfl
  | true =>
      obtain ⟨rest, hcut, hfront, hpipe, hcomment⟩ :=
        Physical.exists_splitComment (Text.tight_trim raw)
      rw [ofLine_role hrole]
      refine .role hrole hcut hfront hpipe rfl rfl rfl ?_
      rw [hcomment]
      split
      · next hlong => exact .some hlong rfl rfl rfl
      · next hshort => exact .none (Nat.not_lt.1 hshort)

/-- An entry stands where the one before it stands, unless it is main. -/
def Inherits (prev e : Entry) : Prop := e.isMain = false → e.position = prev.position

/-- The entries of a line go on from an entry at the cursor, and leave the cursor where they
    stand. -/
theorem isChain_ofLine {prev : Entry} (hprev : prev.position = cursor.position)
    {more : List Entry}
    (hmore : ∀ last : Entry, last.position = (ofLine width cursor n raw).1.position →
      (last :: more).IsChain Inherits) :
    (prev :: ((ofLine width cursor n raw).2 ++ more)).IsChain Inherits := by
  cases hrole : Role.opens raw.trim with
  | false =>
      rw [ofLine_comment hrole] at hmore ⊢
      exact .cons_cons (fun _ => hprev.symm) (hmore _ rfl)
  | true =>
      rw [ofLine_role hrole] at hmore ⊢
      refine .cons_cons (fun hmain => absurd hmain (by simp [isMain])) ?_
      cases hcomment : (Physical.splitComment raw.trim).2 with
      | none => exact hmore _ (by rw [hcomment])
      | some comment => exact .cons_cons (fun _ => rfl) (hmore _ (by rw [hcomment]))

end OfLine

/-! ## The entries of a text -/

/-- Each line that is not blank has its entries, in order, and there are no others. -/
theorem forall₂_covers_ofLines (width : Nat) (cursor : Cursor) (n : Nat) (lines : List Text) :
    ∃ groups, ofLines width cursor n lines = groups.flatten ∧
      List.Forall₂ (fun line group => Covers line.2 line.1 group)
        ((lines.zipIdx n).filter fun line => !line.1.trim.isEmpty) groups := by
  induction lines generalizing cursor n with
  | nil => exact ⟨[], rfl, .nil⟩
  | cons raw lines ih =>
      rw [List.zipIdx_cons]
      by_cases hblank : raw.trim.isEmpty = true
      · rw [ofLines, if_pos hblank, List.filter_cons_of_neg (by simp [hblank])]
        exact ih cursor (n + 1)
      · obtain ⟨groups, hgroups, hcovers⟩ := ih (ofLine width cursor n raw).1 (n + 1)
        rw [ofLines_cons hblank, List.filter_cons_of_pos (by simpa using hblank)]
        exact ⟨(ofLine width cursor n raw).2 :: groups, by rw [hgroups, List.flatten_cons],
          .cons covers_ofLine hcovers⟩

theorem isChain_ofLines (width : Nat) (cursor : Cursor) (n : Nat) (lines : List Text)
    {prev : Entry} (hprev : prev.position = cursor.position) :
    (prev :: ofLines width cursor n lines).IsChain Inherits := by
  induction lines generalizing cursor n prev with
  | nil => exact .singleton prev
  | cons raw lines ih =>
      by_cases hblank : raw.trim.isEmpty = true
      · rw [ofLines, if_pos hblank]
        exact ih cursor (n + 1) hprev
      · rw [ofLines_cons hblank]
        exact isChain_ofLine hprev fun _ hlast => ih _ (n + 1) hlast

/-- Where each entry stands where the one before it stands unless it is main, an entry that is not
    main stands where the last main entry before it stands. -/
theorem position_of_isChain {first : Entry} {before after : List Entry} {e : Entry}
    (h : (first :: (before ++ e :: after)).IsChain Inherits) (he : e.isMain = false) :
    e.position = ((before.filter (·.isMain)).getLast?.map (·.position)).getD first.position := by
  -- from the end of what stands before the entry, back to the last main entry
  induction before using List.reverseRecOn generalizing e after with
  | nil => exact (List.isChain_cons_cons.1 h).1 he
  | append_singleton before prev ih =>
      rw [List.append_assoc, List.singleton_append] at h
      have hprev : e.position = prev.position :=
        (List.isChain_cons_append_cons_cons.1 h).2.1 he
      rw [hprev, List.filter_append]
      cases hmain : prev.isMain with
      | true => simp [hmain]
      | false => simpa [hmain] using ih h hmain

/-! ## Blocks of entries -/

/-- Each main entry with the entries up to the next one. -/
def blocks : List Entry → List (Entry × List Entry)
  | [] => []
  | e :: es => if e.isMain then (e, es.takeWhile (!·.isMain)) :: blocks es else blocks es

/-- Apart from the entries in front of the first main one, the blocks hold all entries. -/
theorem flatMap_blocks (es : List Entry) :
    (blocks es).flatMap (fun block => block.1 :: block.2) = es.dropWhile (!·.isMain) := by
  induction es with
  | nil => rfl
  | cons e es ih =>
      rw [blocks]
      cases hmain : e.isMain with
      | true =>
          rw [if_pos rfl, List.flatMap_cons, ih, List.cons_append, List.takeWhile_append_dropWhile,
            List.dropWhile_cons_of_neg (by simp [hmain])]
      | false =>
          rw [if_neg Bool.false_ne_true, ih, List.dropWhile_cons_of_pos (by simp [hmain])]

end Entry

namespace Line

/-- Each block of entries becomes a line, and the entries in front of them all are left. -/
theorem group_eq (es : List Entry) :
    group es = (es.takeWhile (!·.isMain),
      (Entry.blocks es).map fun block => ofEntry block.1 block.2) := by
  induction es with
  | nil => rfl
  | cons e es ih =>
      rw [Relocation.group_cons, Entry.blocks, ih]
      cases hform : e.form with
      | main => simp [Entry.isMain, hform]
      | comment => simp [Entry.isMain, hform]
      | inlineComment => simp [Entry.isMain, hform]

/-- The wording is what follows `...:` in the first comment, if that opens so. -/
theorem wording?_eq_some_iff {followers : List Entry} {wording : Text} :
    wording? followers = some wording ↔
      ∃ comment rest, followers.find? (·.form == .comment) = some comment ∧
        comment.text = "...:".toList ++ rest ∧ wording = rest.trim := by
  simp only [wording?, Option.bind_eq_bind, Option.bind_eq_some_iff, Text.after?_eq_some_iff,
    Option.pure_def, Option.some.injEq]
  constructor
  · rintro ⟨comment, hfirst, rest, htext, rfl⟩
    exact ⟨comment, rest, hfirst, htext, rfl⟩
  · rintro ⟨comment, rest, hfirst, htext, rfl⟩
    exact ⟨comment, hfirst, rest, htext, rfl⟩

/-- **No line is lost.** The entries of a text are those of its lines that are not blank, in order:
    for each line one comment, or one main entry with its inline comment directly behind it. What
    the parsed lines hold, contents and comments one after another, are the texts of all entries from
    the first main one on. An entry that is not main stands at the position of the last main entry
    before it, or nowhere if there is none. And a parsed line has a wording exactly if the first
    comment behind its main entry, up to the next main entry, opens with `...:`. -/
theorem scan_covers (width : Nat) (source : Text) :
    let entries := Entry.scan width source
    let lines := parse width source
    (∃ groups, entries = groups.flatten ∧
      List.Forall₂ (fun line group => Entry.Covers line.2 line.1 group)
        (Physical.nonBlank source) groups) ∧
    lines.flatMap (fun l => l.content :: l.comments) =
      (entries.dropWhile (!·.isMain)).map (·.text) ∧
    (∀ before e after, entries = before ++ e :: after → e.isMain = false →
      e.position =
        ((before.filter (·.isMain)).getLast?.map (·.position)).getD Position.absent) ∧
    List.Forall₂ (fun block l =>
        l.content = block.1.text ∧ l.lineNumber = block.1.lineNumber ∧
        ∀ wording, l.sourceText = some wording ↔
          ∃ (comment : Entry) (rest : Text), block.2.find? (·.form == .comment) = some comment ∧
            comment.text = "...:".toList ++ rest ∧ wording = rest.trim)
      (Entry.blocks entries) lines := by
  intro entries lines
  have hlines : lines = (Entry.blocks entries).map fun block => ofEntry block.1 block.2 :=
    congrArg Prod.snd (group_eq entries)
  refine ⟨Entry.forall₂_covers_ofLines width .start 1 _, ?_, ?_, ?_⟩
  · rw [hlines, ← Entry.flatMap_blocks, List.flatMap_map, List.map_flatMap]
    rfl
  · intro before e after hentries hmain
    -- an entry that stands nowhere, in front of them all
    have hchain : (Entry.mk .absent 0 .comment [] 0 :: entries).IsChain Entry.Inherits :=
      Entry.isChain_ofLines width .start 1 (Text.splitOn '\n' source) rfl
    rw [hentries] at hchain
    exact Entry.position_of_isChain hchain hmain
  · rw [hlines, List.forall₂_map_right_iff]
    exact List.forall₂_same.2 fun block _ => ⟨rfl, rfl, fun _ => wording?_eq_some_iff⟩

end Line

end PlanGraph
