import InlinePlan.Text.Cluster.Table

set_option autoImplicit false

/-! # Clusters of characters

A text is divided into clusters, the units that a reader sees as one character each: a base with its
marks, a syllable of Hangul letters, two letters of a flag, pictographs that are joined. Whether two
neighbours belong together is decided by their parts and by what the text before them leaves
open. -/

namespace InlinePlan.Text

/-- What a character is to its neighbours. The Hangul parts are a leading consonant, a vowel, a
    trailing consonant and the syllables of two and of three letters. -/
inductive ClusterPart where
  | other
  | carriageReturn
  | lineFeed
  | control
  | extend
  | joiner
  | spacing
  | leading
  | pictograph
  | flag
  | initial
  | vowel
  | final
  | syllable
  | closedSyllable
  deriving Repr, DecidableEq

/-- The part of a character beyond ASCII. -/
def ClusterPart.ofCode (n : Nat) : ClusterPart :=
  if 0xAC00 ≤ n && n ≤ 0xD7A3 then
    (if (n - 0xAC00) % 28 = 0 then .syllable else .closedSyllable)
  else if (0x1100 ≤ n && n ≤ 0x115F) || (0xA960 ≤ n && n ≤ 0xA97C) then .initial
  else if (0x1160 ≤ n && n ≤ 0x11A7) || (0xD7B0 ≤ n && n ≤ 0xD7C6) then .vowel
  else if (0x11A8 ≤ n && n ≤ 0x11FF) || (0xD7CB ≤ n && n ≤ 0xD7FB) then .final
  else if 0x1F1E6 ≤ n && n ≤ 0x1F1FF then .flag
  else if n = 0x200D then .joiner
  else if extendRanges.contains n then .extend
  else if spacingRanges.contains n then .spacing
  else if pictographRanges.contains n then .pictograph
  else if controlRanges.contains n then .control
  else if leadingRanges.contains n then .leading
  else .other

def ClusterPart.of (c : Char) : ClusterPart :=
  let n := c.toNat
  if n = 0x0A then .lineFeed
  else if n = 0x0D then .carriageReturn
  else if n < 0x20 || n = 0x7F then .control
  else if n < 0x80 then .other
  else ClusterPart.ofCode n

/-- What the characters so far leave open: the part of the last one, whether a joiner that ends them
    joins a pictograph, or whether marks only follow one, and whether a flag is half written. -/
structure ClusterState where
  last : ClusterPart
  afterPictograph : Bool := false
  oddFlag : Bool := false
  deriving Repr, DecidableEq

/-- The state after one more character. -/
def ClusterState.next (s : ClusterState) (p : ClusterPart) : ClusterState :=
  { last := p
    afterPictograph :=
      p = .pictograph || (s.afterPictograph && s.last ≠ .joiner && (p = .extend || p = .joiner))
    oddFlag := p = .flag && !(s.last = .flag && s.oddFlag) }

/-- The state after the first character. -/
def ClusterState.start (p : ClusterPart) : ClusterState :=
  { last := p, afterPictograph := p = .pictograph, oddFlag := p = .flag }

/-- Whether a character belongs to the cluster before it. -/
def ClusterState.joins (s : ClusterState) (p : ClusterPart) : Bool :=
  match s.last, p with
  | .carriageReturn, .lineFeed => true
  | .carriageReturn, _ | .lineFeed, _ | .control, _ => false
  | _, .carriageReturn | _, .lineFeed | _, .control => false
  | .initial, .initial | .initial, .vowel | .initial, .syllable | .initial, .closedSyllable => true
  | .syllable, .vowel | .vowel, .vowel | .syllable, .final | .vowel, .final => true
  | .closedSyllable, .final | .final, .final => true
  | _, .extend | _, .joiner | _, .spacing => true
  | .leading, _ => true
  | .joiner, .pictograph => s.afterPictograph
  | .flag, .flag => s.oddFlag
  | _, _ => false

/-- Divides the rest of a text; `cluster` holds the characters of the last cluster in reverse. -/
def clustersFrom : List Char → ClusterState → (cluster : List Char) → List (List Char)
  | [], _, cluster => [cluster.reverse]
  | c :: cs, s, cluster =>
    let p := ClusterPart.of c
    if s.joins p then clustersFrom cs (s.next p) (c :: cluster)
    else cluster.reverse :: clustersFrom cs (s.next p) [c]

/-- The clusters of a text, in order. -/
def clusters : List Char → List (List Char)
  | [] => []
  | c :: cs => clustersFrom cs (.start (ClusterPart.of c)) [c]

theorem flatten_clustersFrom (cs : List Char) (s : ClusterState) (cluster : List Char) :
    (clustersFrom cs s cluster).flatten = cluster.reverse ++ cs := by
  induction cs generalizing s cluster with
  | nil => simp [clustersFrom]
  | cons c cs ih =>
    rw [clustersFrom]
    split <;> simp [ih]

/-- No character is lost or moved. -/
theorem flatten_clusters (cs : List Char) : (clusters cs).flatten = cs := by
  cases cs with
  | nil => rfl
  | cons c cs => simp [clusters, flatten_clustersFrom]

end InlinePlan.Text
