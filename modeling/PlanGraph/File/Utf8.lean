import PlanGraph.Text.Basic

set_option autoImplicit false

/-! # Text in bytes

A file holds bytes; as text it is read in UTF-8. Bytes that are no text are found in stretches, each
as long as it could have been the start of a character. -/

namespace PlanGraph

namespace Utf8

/-- The bytes of a text. -/
def encode (t : Text) : List UInt8 := t.flatMap String.utf8EncodeChar

/-- A byte that continues a character. -/
def isContinuation (b : UInt8) : Bool := 0x80 ≤ b && b ≤ 0xBF

/-- Whether the second byte of a character of three may follow its first. -/
def isSecondOf3 (a b : UInt8) : Bool :=
  if a = 0xE0 then 0xA0 ≤ b && b ≤ 0xBF
  else if a = 0xED then 0x80 ≤ b && b ≤ 0x9F
  else isContinuation b

/-- Whether the second byte of a character of four may follow its first. -/
def isSecondOf4 (a b : UInt8) : Bool :=
  if a = 0xF0 then 0x90 ≤ b && b ≤ 0xBF
  else if a = 0xF4 then 0x80 ≤ b && b ≤ 0x8F
  else isContinuation b

/-- The bits that a byte adds to a character. -/
def bits (mask b : UInt8) : Nat := (b &&& mask).toNat

/-- The characters of some bytes; none for a stretch that is no text. `skip` bytes still belong to
    what was read before. -/
def piecesFrom : Nat → List UInt8 → List (Option Char)
  | _, [] => []
  | skip + 1, _ :: rest => piecesFrom skip rest
  | 0, a :: rest =>
    let second := rest[0]?
    let third := rest[1]?
    let fourth := rest[2]?
    if a < 0x80 then some (Char.ofNat a.toNat) :: piecesFrom 0 rest
    else if 0xC2 ≤ a && a ≤ 0xDF then
      match second.filter isContinuation with
      | none => none :: piecesFrom 0 rest
      | some b => some (Char.ofNat (bits 0x1F a * 64 + bits 0x3F b)) :: piecesFrom 1 rest
    else if 0xE0 ≤ a && a ≤ 0xEF then
      match second.filter (isSecondOf3 a), third.filter isContinuation with
      | none, _ => none :: piecesFrom 0 rest
      | some _, none => none :: piecesFrom 1 rest
      | some b, some c =>
        some (Char.ofNat ((bits 0x0F a * 64 + bits 0x3F b) * 64 + bits 0x3F c)) ::
          piecesFrom 2 rest
    else if 0xF0 ≤ a && a ≤ 0xF4 then
      match second.filter (isSecondOf4 a), third.filter isContinuation,
          fourth.filter isContinuation with
      | none, _, _ => none :: piecesFrom 0 rest
      | some _, none, _ => none :: piecesFrom 1 rest
      | some _, some _, none => none :: piecesFrom 2 rest
      | some b, some c, some d =>
        some (Char.ofNat (((bits 0x07 a * 64 + bits 0x3F b) * 64 + bits 0x3F c) * 64 +
          bits 0x3F d)) :: piecesFrom 3 rest
    else none :: piecesFrom 0 rest

/-- The characters of some bytes; none for a stretch that is no text. -/
def pieces (bytes : List UInt8) : List (Option Char) := piecesFrom 0 bytes

/-- The text of some bytes, if they are one. -/
def decode? (bytes : List UInt8) : Option Text := (pieces bytes).mapM id

end Utf8

end PlanGraph
