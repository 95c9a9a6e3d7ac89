set_option autoImplicit false

/-! # Priority queues

A queue kept as a binary heap in a list: the entries below position `i` are at `2 * i + 1` and
`2 * i + 2`, and `before a b` says that `a` is to come out before `b`. Entries are moved by swaps
only, in one fixed way, so that what comes out is determined even if `before` is no order. -/

namespace InlinePlan

namespace Queue

variable {α : Type} (before : α → α → Bool)

/-- Moves the entry at a position up, past each entry above it that it is to come before. -/
def up : (fuel : Nat) → (position : Nat) → List α → List α
  | 0, _, q => q
  | fuel + 1, j, q =>
    let i := (j - 1) / 2
    match q[i]?, q[j]? with
    | some a, some b => if i ≠ j && before b a then up fuel i ((q.set i b).set j a) else q
    | _, _ => q

/-- The position below `i` whose entry comes first; the left one unless the right one does. -/
def firstBelow (i : Nat) (q : List α) : Nat :=
  match q[2 * i + 1]?, q[2 * i + 2]? with
  | some a, some b => if before b a then 2 * i + 2 else 2 * i + 1
  | _, _ => 2 * i + 1

/-- Moves the entry at a position down, past each first entry below it that is to come before it. -/
def down : (fuel : Nat) → (position : Nat) → List α → List α
  | 0, _, q => q
  | fuel + 1, i, q =>
    let j := firstBelow before i q
    match q[i]?, q[j]? with
    | some a, some b => if before b a then down fuel j ((q.set i b).set j a) else q
    | _, _ => q

/-- Puts an entry in at the end and moves it up. -/
def push (q : List α) (a : α) : List α := up before q.length q.length (q ++ [a])

/-- Takes the entry at the top out. The last entry comes in its place and is moved down. -/
def pop? : List α → Option (α × List α)
  | [] => none
  | a :: q => some (a, down before q.length 0 ((q.getLast?.getD a :: q).dropLast))

end Queue

end InlinePlan
