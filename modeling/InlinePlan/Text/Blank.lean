set_option autoImplicit false

/-! # White space

Which characters separate words, and the three cuts that reading a line needs: dropping blanks at
both ends, splitting at runs of blanks, and splitting at the first occurrence of a character. All
work on `List Char`, so that a proof can follow the recursion. -/

namespace InlinePlan.Text

/-- The white space of Unicode: the ASCII controls from tab to carriage return, the space, and the
    separators beyond ASCII. -/
def isBlank (c : Char) : Bool :=
  let n := c.toNat
  (9 ≤ n && n ≤ 13) || n == 0x20 || n == 0x85 || n == 0xA0 || n == 0x1680
    || (0x2000 ≤ n && n ≤ 0x200A) || n == 0x2028 || n == 0x2029 || n == 0x202F || n == 0x205F
    || n == 0x3000

/-- Drops the blanks at the end. -/
def trimRight (cs : List Char) : List Char :=
  (cs.reverse.dropWhile isBlank).reverse

/-- Drops the blanks at both ends. -/
def trim (cs : List Char) : List Char :=
  trimRight (cs.dropWhile isBlank)

/-- The maximal runs of characters that are not blank. The accumulator holds the word being read,
    last character first. -/
def wordsFrom : List Char → List Char → List (List Char)
  | [], [] => []
  | [], word => [word.reverse]
  | c :: cs, word =>
    if isBlank c then
      match word with
      | [] => wordsFrom cs []
      | _ :: _ => word.reverse :: wordsFrom cs []
    else wordsFrom cs (c :: word)

/-- Splits at runs of blanks; the words are never empty. -/
def words (cs : List Char) : List (List Char) := wordsFrom cs []

/-- Splits at the first `sep`, which belongs to neither part; `none` if there is none. -/
def cut? (sep : Char) : List Char → Option (List Char × List Char)
  | [] => none
  | c :: cs =>
    if c = sep then some ([], cs)
    else (cut? sep cs).map fun (l, r) => (c :: l, r)

/-- Splits at the last `sep`. -/
def cutLast? (sep : Char) (cs : List Char) : Option (List Char × List Char) :=
  (cut? sep cs.reverse).map fun (r, l) => (l.reverse, r.reverse)

theorem cut?_eq_some {sep : Char} {cs l r : List Char} (h : cut? sep cs = some (l, r)) :
    cs = l ++ sep :: r := by
  induction cs generalizing l r with
  | nil => simp [cut?] at h
  | cons c cs ih =>
    rw [cut?] at h
    split at h
    case isTrue hc => simp_all
    case isFalse hc =>
      obtain ⟨⟨l', r'⟩, hcut, heq⟩ := Option.map_eq_some_iff.1 h
      simp only [Prod.mk.injEq] at heq
      obtain ⟨rfl, rfl⟩ := heq
      simp [ih hcut]

end InlinePlan.Text
