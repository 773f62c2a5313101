import WatScript.Text.Decomposition
import WatScript.Text.Glyph
import WatScript.Text.Runs

/-!
# Composed normal form

Two spellings of the same text, with a precomposed letter or with a combining mark, should be the same
program. `Text.normalize` gives the canonical composition of a text: it is cut into segments of a
character with its marks, characters are decomposed, marks are put into canonical order, and what can be
composed is composed again. Runs of marks are kept short: a joiner is put in wherever more than thirty of
them would follow each other.

Stray bytes separate the text into parts that do not interact. If the text ends in the beginning of a
longer sequence, what is left of it stays as it is.
-/

namespace WatScript.Text

/-! ## Properties of characters -/

def combiningClass (n : Nat) : Nat :=
  if n < 0x300 then 0
  else (runsAt? combiningClassRuns n).getD 0

def hangulFirst : Nat := 0xAC00

def hangulCount : Nat := 11172

def isHangul (n : Nat) : Bool := hangulFirst ≤ n && n < hangulFirst + hangulCount

def isOpenHangul (n : Nat) : Bool := isHangul n && (n - hangulFirst) % 28 == 0

def hangulLetters (n : Nat) : List Nat :=
  let i := n - hangulFirst
  [0x1100 + i / 588, 0x1161 + i % 588 / 28] ++ (if i % 28 == 0 then [] else [0x11A7 + i % 28])

/-- The canonical decomposition of a character, taken at most `depth` levels down. -/
def decomposeTo : Nat → Nat → List Nat
  | 0, n => [n]
  | depth + 1, n =>
    if n < 0xC0 then [n]
    else if isHangul n then hangulLetters n
    else
      match pairDecompositions.find? (·.1 == n) with
      | some (_, a, b) => decomposeTo depth a ++ decomposeTo depth b
      | none =>
        match singleDecomposition? n with
        | some a => decomposeTo depth a
        | none => [n]

/-- The full canonical decomposition; no character needs more levels. -/
def decomposition (n : Nat) : List Nat := decomposeTo 8 n

/-- Only the low sixteen bits of a character are looked at when compositions are looked up. -/
def lowBits (n : Nat) : Nat := n % 0x10000

def compose? (a b : Nat) : Option Nat :=
  (pairDecompositions.find? fun (c, x, y) =>
    lowBits x == lowBits a && lowBits y == lowBits b && !compositionExclusions.contains c).map (·.1)

def composeHangul? (a b : Nat) : Option Nat :=
  if 0x1100 ≤ a && a < 0x1113 && 0x1161 ≤ b && b < 0x1176 then
    some (hangulFirst + ((a - 0x1100) * 21 + (b - 0x1161)) * 28)
  else if isOpenHangul a && 0x11A7 < b && b < 0x11C3 then some (a + (b - 0x11A7))
  else none

def isHangulLetter (n : Nat) : Bool := 0x1100 ≤ n && n < 0x1200

/-! ## Short runs of marks -/

def composesBackward (n : Nat) : Bool :=
  0x300 ≤ n && ((0x1161 ≤ n && n < 0x1176) || (0x11A7 < n && n < 0x11C3) ||
    pairDecompositions.any fun (c, _, y) => y == n && !compositionExclusions.contains c)

def isMark (n : Nat) : Bool := combiningClass n != 0 || composesBackward n

/-- Runs of characters that start and end with another number of marks than their canonical
decomposition does, because marks are counted in the compatibility decomposition. -/
def compatibilityMarks : List ((Nat × Nat) × List Nat) := [
  ((0, 1), [
    168, 1, 6, 1, 4, 1, 3, 1, 267, 3, 273, 6, 156, 1, 9, 1, 7224, 1, 1, 2, 60, 2, 24, 1, 38, 1,
    4188, 2, 465, 17, 133, 1, 2, 1, 8, 1, 13, 1, 2, 1, 16, 1, 8, 1, 4, 1, 10, 1, 2, 1, 51285, 2, 10,
    2, 169, 3, 50, 1, 72, 1, 98, 2, 267, 4, 35, 3, 1, 1, 1, 10, 1, 12, 104, 6, 232, 1, 61999, 1]),
  ((0, 2), [901, 1, 3057, 1, 1, 1, 4167, 1, 11, 3, 13, 3, 13, 2, 56431, 6, 142, 3]),
  ((1, 1), [12595, 1, 1, 2, 3, 6, 15, 21, 52794, 2, 3, 1, 1, 2, 3, 6, 18, 6, 2, 6, 2, 6, 2, 3])]

/-- The number of marks at the start and at the end of a character. -/
def marks (n : Nat) : Nat × Nat :=
  if n < 0xA0 then (0, 0)
  else if isHangul n then (0, if isOpenHangul n then 1 else 2)
  else
    match runsAt? compatibilityMarks n with
    | some (leading, trailing) => (leading, trailing)
    | none =>
      let d := decomposition n
      ((d.takeWhile isMark).length, (d.reverse.takeWhile isMark).length)

def maxMarks : Nat := 30

def joiner : Nat := 0x34F

/-- Cuts a run into segments. A segment starts at every character without leading marks; one that would
get too many marks ends in a joiner. `count` marks stand right before, and `segment` is the open segment
in reverse. -/
def segmentsFrom : Nat → List Nat → List Nat → List (List Nat)
  | _, segment, [] => [segment.reverse]
  | count, segment, n :: rest =>
    let (leading, trailing) := marks n
    -- the joiner ends the segment, and counting starts again behind it
    if maxMarks < count + leading then
      (joiner :: segment).reverse :: segmentsFrom leading [n] rest
    else if leading == 0 then segment.reverse :: segmentsFrom trailing [n] rest
    else segmentsFrom (count + leading) (n :: segment) rest

def isBoundary (n : Nat) : Bool := combiningClass n == 0 && !composesBackward n

def cutAtBoundaries : List Nat → List Nat → List (List Nat)
  | held, [] => [held.reverse]
  | held, n :: rest =>
    if isBoundary n && !held.isEmpty then held.reverse :: cutAtBoundaries [n] rest
    else cutAtBoundaries (n :: held) rest

/-- The decomposed characters of a segment, cut where a decomposition holds a boundary inside it. -/
def decomposeSegment : List Nat → List Nat → List (List Nat)
  | held, [] => [held]
  | held, n :: rest =>
    let d := decomposition n
    if d == [n] || isHangul n then decomposeSegment (held ++ d) rest
    else
      let pieces := cutAtBoundaries held.reverse d
      pieces.dropLast ++ decomposeSegment (pieces.getLast?.getD []) rest

/-! ## Order and composition -/

/-- Puts a mark behind all marks of its class and of lower classes. -/
def insertMark (n : Nat) : List Nat → List Nat
  | [] => [n]
  | m :: rest => if combiningClass m ≤ combiningClass n then m :: insertMark n rest else n :: m :: rest

/-- Puts marks into canonical order; `pending` are the marks right before, in order. -/
def reorderFrom : List Nat → List Nat → List Nat
  | pending, [] => pending
  | pending, n :: rest =>
    if combiningClass n == 0 then pending ++ n :: reorderFrom [] rest
    else reorderFrom (insertMark n pending) rest

/-- What has been composed so far: the character that others may compose with, what stands before it and
what has been passed over behind it. -/
structure Composed where
  before : List Nat
  starter : Nat
  after : List Nat
  deriving DecidableEq, Repr, Inhabited

namespace Composed

def toList (s : Composed) : List Nat := s.before ++ s.starter :: s.after

def last (s : Composed) : Nat := s.after.getLast?.getD s.starter

def push (s : Composed) (n : Nat) : Composed := { s with after := s.after ++ [n] }

/-- The last character becomes the one to compose with, unless it is a mark. -/
def settle (s : Composed) : Composed :=
  if combiningClass s.last == 0 then ⟨s.before ++ (s.starter :: s.after).dropLast, s.last, []⟩ else s

def blocks (s : Composed) (n : Nat) : Bool :=
  !s.after.isEmpty && combiningClass n ≤ combiningClass s.last

/-- Composes a character with the starter if `compose` can, and passes over it if not. -/
def join (compose : Nat → Nat → Option Nat) (s : Composed) (n : Nat) : Composed :=
  let s := s.settle
  match if s.blocks n then none else compose s.starter n with
  | some c => { s with starter := c }
  | none => s.push n

end Composed

def composeHangulFrom (s : Composed) (run : List Nat) : Composed := run.foldl (.join composeHangul?) s

/-- Composes from left to right. A starter is not moved past characters that never compose backward.
From the first Hangul letter on, only Hangul is composed. -/
def composeFrom (s : Composed) : List Nat → Composed
  | [] => s
  | n :: rest =>
    if isHangulLetter n then composeHangulFrom s (n :: rest)
    else if composesBackward n then composeFrom (s.join compose? n) rest
    else composeFrom (s.push n) rest

def composeSegment : List Nat → List Nat
  | [] => []
  | n :: rest => (composeFrom ⟨[], n, []⟩ rest).toList

def normalizeRun (run : List Nat) : List Nat :=
  ((segmentsFrom 0 [] run).flatMap (decomposeSegment [])).flatMap fun d =>
    composeSegment (reorderFrom [] d)

/-! ## Texts -/

/-- The number of bytes that a byte announces as the first one of a sequence. -/
def announced (b : UInt8) : Nat :=
  if between 0xC2 0xDF b then 2
  else if between 0xE0 0xEF b then 3
  else if between 0xF0 0xF7 b then 4
  else 1

/-- Normalizes the part of a text behind `run`, which is in reverse. -/
def normalizeFrom : List Nat → Text → Text
  | run, [] => (normalizeRun run.reverse).map fun n => .char (Char.ofNat n)
  | run, .char c :: rest => normalizeFrom (c.toNat :: run) rest
  | run, .stray b :: rest =>
    let done := (normalizeRun run.reverse).map fun n => Glyph.char (Char.ofNat n)
    if (encode (rest.take 3)).length + 1 < announced b then done ++ .stray b :: rest
    else done ++ .stray b :: normalizeFrom [] rest

def normalize (t : Text) : Text := normalizeFrom [] t

end WatScript.Text
