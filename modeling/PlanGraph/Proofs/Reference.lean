import Mathlib.Data.List.Nodup
import PlanGraph.Proofs.Json.Token
import PlanGraph.Reference

set_option autoImplicit false

/-! # Signs and their numbers

The running number of a sign can be read off the sign, whatever file the sign is for: its digits
stand between the first closing brace and the first parenthesis behind it (`digitsOf_sign`), and
leading zeros do not matter (`hexValue_idText`). So signs of different numbers differ. Consecutive
numbers are different as long as there are no more of them than there are numbers, also where they
start again at zero, and so are the signs that they give (`nodup_signsFrom`). -/

namespace PlanGraph

namespace Reference

/-! ## Numbers in hexadecimal -/

/-- The number that hexadecimal digits spell. -/
def hexValue (digits : Text) : Nat :=
  digits.foldl (fun n c => 16 * n + (Json.Token.hexValue? c).getD 0) 0

theorem hexValue_concat (digits : Text) {n : Nat} (h : n < 16) :
    hexValue (digits ++ [Nat.digitChar n]) = 16 * hexValue digits + n := by
  have hdigit : Json.Token.hexValue? (Nat.digitChar n) = some n := Json.Token.hexValue?_hexDigit h
  rw [hexValue, List.foldl_append, List.foldl_cons, hdigit]
  rfl

theorem hexValue_toDigits (n : Nat) : hexValue (Nat.toDigits 16 n) = n := by
  induction n using Nat.strongRecOn with
  | ind n ih =>
      rw [Nat.toDigits_eq_if (by decide)]
      split
      · next hn =>
          have hone := hexValue_concat [] hn
          rwa [List.nil_append, show hexValue [] = 0 from rfl, Nat.mul_zero, Nat.zero_add] at hone
      · next hn =>
          rw [hexValue_concat _ (Nat.mod_lt n (by decide)), ih _ (by omega)]
          omega

/-- Leading zeros do not change a number. -/
theorem hexValue_idText (id : UInt32) : hexValue (idText id) = id.toNat := by
  have hzeros : ∀ n, (List.replicate n '0').foldl
      (fun n c => 16 * n + (Json.Token.hexValue? c).getD 0) 0 = 0 := by
    intro n
    induction n with
    | zero => rfl
    | succ n ih => exact ih
  rw [idText, hexValue, List.foldl_append, hzeros]
  exact hexValue_toDigits id.toNat

theorem paren_not_mem_toDigits (n : Nat) : '(' ∉ Nat.toDigits 16 n := by
  have hdigit : ∀ n, '(' ∉ [Nat.digitChar n] := by
    intro n h
    exact Nat.digitChar_ne '(' rfl (List.mem_singleton.1 h).symm
  induction n using Nat.strongRecOn with
  | ind n ih =>
      rw [Nat.toDigits_eq_if (by decide)]
      split
      · exact hdigit n
      · rw [List.mem_append, not_or]
        exact ⟨ih _ (by omega), hdigit _⟩

theorem paren_not_mem_idText (id : UInt32) : '(' ∉ idText id := by
  rw [idText, List.mem_append, not_or]
  refine ⟨?_, paren_not_mem_toDigits _⟩
  intro h
  exact absurd (List.eq_of_mem_replicate h) (by decide)

/-! ## The number of a sign -/

theorem brace_not_mem_norm (path : Text) : '}' ∉ norm path := by
  unfold norm
  split
  · split
    · decide
    · split <;> decide
  · decide

/-- What stands in a sign where the digits of its number do. -/
def digitsOf (sign : Text) : Text :=
  ((sign.dropWhile (· != '}')).drop 1).takeWhile (· != '(')

theorem digitsOf_sign (path : Text) (id : UInt32) : digitsOf (sign path id) = idText id := by
  have hcut : sign path id =
      (['%', '{'] ++ norm path) ++ '}' :: (idText id ++ '(' :: (path.trim ++ [')'])) := by
    unfold sign
    simp only [List.append_assoc, List.cons_append, List.nil_append]
  have hfront : ∀ c ∈ ['%', '{'] ++ norm path, (c != '}') = true := by
    intro c hc
    rw [bne_iff_ne]
    rintro rfl
    rcases List.mem_append.1 hc with hc | hc
    · exact absurd hc (by decide)
    · exact brace_not_mem_norm path hc
  have hdigits : ∀ c ∈ idText id, (c != '(') = true := by
    intro c hc
    rw [bne_iff_ne]
    rintro rfl
    exact paren_not_mem_idText id hc
  rw [digitsOf, hcut, List.dropWhile_append_of_pos hfront, List.dropWhile_cons_of_neg (by decide),
    List.drop_one, List.tail_cons, List.takeWhile_append_of_pos hdigits,
    List.takeWhile_cons_of_neg (by decide), List.append_nil]

theorem id_eq_of_sign_eq {path path' : Text} {id id' : UInt32}
    (h : sign path id = sign path' id') : id = id' := by
  have hdigits : idText id = idText id' := by
    rw [← digitsOf_sign path, h, digitsOf_sign]
  rw [← UInt32.toNat_inj, ← hexValue_idText, hdigits, hexValue_idText]

/-! ## Signs under consecutive numbers -/

/-- The signs of some files, numbered consecutively from `first` on. -/
def signsFrom (first : UInt32) (paths : List Text) : List Text :=
  paths.mapIdx fun i path => sign path (first + UInt32.ofNat i)

theorem signsFrom_append (first : UInt32) (paths more : List Text) :
    signsFrom first (paths ++ more) =
      signsFrom first paths ++ signsFrom (first + UInt32.ofNat paths.length) more := by
  have hshift : ∀ i, first + UInt32.ofNat (i + paths.length) =
      first + UInt32.ofNat paths.length + UInt32.ofNat i := by
    intro i
    rw [Nat.add_comm, UInt32.ofNat_add, UInt32.add_assoc]
  simp only [signsFrom, List.mapIdx_append, hshift]

theorem signsFrom_cons (first : UInt32) (path : Text) (paths : List Text) :
    signsFrom first (path :: paths) = sign path first :: signsFrom (first + 1) paths := by
  have h := signsFrom_append first [path] paths
  simpa [signsFrom] using h

/-- As many signs as there are numbers are still different, wherever their numbers start. -/
theorem nodup_signsFrom (first : UInt32) {paths : List Text} (h : paths.length ≤ UInt32.size) :
    (signsFrom first paths).Nodup := by
  unfold signsFrom
  rw [List.Nodup, List.pairwise_iff_getElem]
  intro i j hi hj hij hsame
  rw [List.getElem_mapIdx, List.getElem_mapIdx] at hsame
  rw [List.length_mapIdx] at hi hj
  have hnumber : UInt32.ofNat i = UInt32.ofNat j :=
    (UInt32.add_right_inj first).1 (id_eq_of_sign_eq hsame)
  have hvalue := congrArg UInt32.toNat hnumber
  rw [UInt32.toNat_ofNat_of_lt' (Nat.lt_of_lt_of_le hi h),
    UInt32.toNat_ofNat_of_lt' (Nat.lt_of_lt_of_le hj h)] at hvalue
  omega

end Reference

end PlanGraph
