/-!
# Readers that turn back

A reader takes characters from the front of a text, or fails. Where one reader fails another one can
start again from the same place, so that a text may be read several times. What stays of an attempt
that was given up is how far it got: the furthest end of anything that was recognized on the way. A text
that can not be read is blamed on the line of that place.
-/

namespace WatScript.Toml

def isLineEnd (c : Char) : Bool := c == '\n' || c == '\r'

/-- A place in a text: what is left, how many characters came before it, and its line. Every character
that ends a line starts another one. -/
structure Place where
  rest : List Char
  offset : Nat
  line : Nat
  deriving DecidableEq, Repr, Inhabited

def Place.after (p : Place) (taken : List Char) : Place :=
  ⟨p.rest.drop taken.length, p.offset + taken.length, p.line + taken.countP isLineEnd⟩

/-- A reader: from a place and the furthest end so far to what was read with the place behind it, if it
could be read, and the furthest end now. -/
def Reader (α : Type) : Type := Place → Nat → Option (α × Place) × Nat

namespace Reader

def give {α : Type} (a : α) : Reader α := fun p furthest => (some (a, p), furthest)

def andThen {α β : Type} (r : Reader α) (k : α → Reader β) : Reader β := fun p furthest =>
  match r p furthest with
  | (some (a, q), furthest) => k a q furthest
  | (none, furthest) => (none, furthest)

instance : Monad Reader where
  pure := give
  bind := andThen

def fail {α : Type} : Reader α := fun _ furthest => (none, furthest)

def here : Reader Place := fun p furthest => (some (p, p), furthest)

def one (isIn : Char → Bool) : Reader Char := fun p furthest =>
  match p.rest with
  | c :: _ => (if isIn c then some (c, p.after [c]) else none, furthest)
  | [] => (none, furthest)

def mark (c : Char) : Reader Unit := fun p furthest =>
  match p.rest with
  | c' :: _ => (if c' == c then some ((), p.after [c]) else none, furthest)
  | [] => (none, furthest)

def word (w : String) : Reader Unit := fun p furthest =>
  (if w.toList.isPrefixOf p.rest then some ((), p.after w.toList) else none, furthest)

def span (isIn : Char → Bool) : Reader (List Char) := fun p furthest =>
  let taken := p.rest.takeWhile isIn
  (some (taken, p.after taken), furthest)

def span1 (isIn : Char → Bool) : Reader (List Char) := do
  let c ← one isIn
  return c :: (← span isIn)

def orElse {α : Type} (r s : Reader α) : Reader α := fun p furthest =>
  match r p furthest with
  | (some found, furthest) => (some found, furthest)
  | (none, furthest) => s p furthest

def firstOf {α : Type} (rs : List (Reader α)) : Reader α := rs.foldr orElse fail

def optional {α : Type} (r : Reader α) : Reader (Option α) := orElse (some <$> r) (give none)

def skip {α : Type} (r : Reader α) : Reader Unit := (fun _ => ()) <$> r

def pass {α : Type} (r : Reader α) : Reader Unit := skip (optional r)

def absent {α : Type} (r : Reader α) : Reader Unit := fun p furthest =>
  match r p furthest with
  | (some _, furthest) => (none, furthest)
  | (none, furthest) => (some ((), p), furthest)

def rounds {α : Type} (r : Reader α) : Nat → Reader (List α)
  | 0 => give []
  | n + 1 => orElse (do return (← r) :: (← rounds r n)) (give [])

/-- As many rounds of a reader as there are, each of which takes a character at least. -/
def many {α : Type} (r : Reader α) : Reader (List α) := fun p => rounds r p.rest.length p

def many1 {α : Type} (r : Reader α) : Reader (List α) := do return (← r) :: (← many r)

def recognized {α : Type} (r : Reader α) : Reader α := fun p furthest =>
  match r p furthest with
  | (some (a, q), furthest) =>
    (some (a, q), if p.offset < q.offset then max furthest q.offset else furthest)
  | (none, furthest) => (none, furthest)

def text {α : Type} (r : Reader α) : Reader (List Char) := fun p furthest =>
  match r p furthest with
  | (some (_, q), furthest) => (some (p.rest.take (q.offset - p.offset), q), furthest)
  | (none, furthest) => (none, furthest)

/-- Reads a whole text, or gives the line of the furthest end that was recognized, which is the next line
where that line ends there. -/
def run {α : Type} (r : Reader α) (cs : List Char) : Except Nat α :=
  match r ⟨cs, 0, 1⟩ 0 with
  | (some (a, _), _) => .ok a
  | (none, furthest) => .error (1 + (cs.take (furthest + 1)).count '\n')

end Reader

end WatScript.Toml
