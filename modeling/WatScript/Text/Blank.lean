import WatScript.Text.Glyph

/-!
# Blanks

The white space of Unicode 15, which separates fields and is trimmed from the ends of a text.
-/

namespace WatScript.Text

def isBlank (c : Char) : Bool :=
  let n := c.toNat
  (0x9 ≤ n && n ≤ 0xD) || n == 0x20 || n == 0x85 || n == 0xA0 || n == 0x1680 ||
    (0x2000 ≤ n && n ≤ 0x200A) || n == 0x2028 || n == 0x2029 || n == 0x202F || n == 0x205F ||
    n == 0x3000

def isBlankGlyph : Glyph → Bool
  | .char c => isBlank c
  | .stray _ => false

/-- The maximal stretches that hold nothing `sep` picks; `held` is the open one, last first. -/
def fieldsFrom {α : Type} (sep : α → Bool) : List α → List α → List (List α)
  | [], [] => []
  | held, [] => [held.reverse]
  | [], x :: rest => if sep x then fieldsFrom sep [] rest else fieldsFrom sep [x] rest
  | held, x :: rest =>
    if sep x then held.reverse :: fieldsFrom sep [] rest else fieldsFrom sep (x :: held) rest

theorem fieldsFrom_end {α : Type} {sep : α → Bool} {field : List α} (h : field ≠ []) :
    fieldsFrom sep field.reverse [] = [field] := by
  cases hr : field.reverse with
  | nil => exact absurd (List.reverse_eq_nil_iff.1 hr) h
  | cons x held => rw [fieldsFrom, ← hr, List.reverse_reverse]; simp

theorem fieldsFrom_cut {α : Type} {sep : α → Bool} {field : List α} (h : field ≠ []) {x : α}
    (hx : sep x = true) (rest : List α) :
    fieldsFrom sep field.reverse (x :: rest) = field :: fieldsFrom sep [] rest := by
  cases hr : field.reverse with
  | nil => exact absurd (List.reverse_eq_nil_iff.1 hr) h
  | cons y held => rw [fieldsFrom, if_pos hx, ← hr, List.reverse_reverse]; simp

def fields (t : Text) : List Text := fieldsFrom isBlankGlyph [] t

/-- The stretches between separators, empty ones included; `held` is the open one, last first. -/
def splitFrom {α : Type} (sep : α → Bool) : List α → List α → List (List α)
  | held, [] => [held.reverse]
  | held, x :: rest =>
    if sep x then held.reverse :: splitFrom sep [] rest else splitFrom sep (x :: held) rest

/-- Cuts a list at every element that `sep` picks. There is always one stretch more than cuts. -/
def split {α : Type} (sep : α → Bool) (xs : List α) : List (List α) := splitFrom sep [] xs

def trimEnd {α : Type} (p : α → Bool) (xs : List α) : List α := (xs.reverse.dropWhile p).reverse

def trimBoth {α : Type} (p : α → Bool) (xs : List α) : List α := trimEnd p (xs.dropWhile p)

def trimString (s : String) : String := String.ofList (trimBoth isBlank s.toList)

end WatScript.Text
