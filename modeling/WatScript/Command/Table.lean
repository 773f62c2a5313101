import WatScript.Text.Blank
import WatScript.Text.Width

/-!
# Tables

A table in a frame of rules. Columns are as wide as their widest cell, headers are centred, numbers
stand on the right and other text on the left. A cell may have several lines; cells of the same row
with fewer lines are filled up with blank ones.
-/

namespace WatScript

namespace Table

def blanks (n : Nat) : String := "".pushn ' ' n

def alignLeft (width : Nat) (s : String) : String := s ++ blanks (width - Text.displayWidth s)

def alignRight (width : Nat) (s : String) : String := blanks (width - Text.displayWidth s) ++ s

/-- Fills a text up on both sides; an odd blank goes to the right. -/
def centre (width : Nat) (s : String) : String :=
  let gap := width - Text.displayWidth s
  blanks (gap / 2) ++ s ++ blanks (gap - gap / 2)

def isDigits (cs : List Char) : Bool := !cs.isEmpty && cs.all Char.isDigit

def isGrouped (cs : List Char) : Bool :=
  match Text.split (· == ',') cs with
  | [] => false
  | first :: rest =>
    isDigits first && first.length ≤ 3 && rest.all fun g => isDigits g && g.length == 3

/-- A decimal number, possibly negative, grouped or with a fraction. -/
def isDecimal (s : String) : Bool :=
  let cs := (Text.trimString s).toList
  let cs := match cs with
    | '-' :: rest => rest
    | cs => cs
  match Text.split (· == '.') cs with
  | [whole] => isDigits whole || isGrouped whole
  | [whole, fraction] => (isDigits whole || isGrouped whole) && isDigits fraction
  | _ => false

def cellLines (cell : String) : List String :=
  (Text.split (· == '\n') cell.toList).map String.ofList

def cellWidth (cell : String) : Nat := ((cellLines cell).map Text.displayWidth).foldl max 0

/-- The widths of the columns: those of the header, as far as no row needs more. -/
def widths (header : List String) (rows : List (List String)) : List Nat :=
  rows.foldl (fun ws row => List.zipWith (fun w cell => max w (cellWidth cell)) ws row)
    (header.map cellWidth)

def rule (ws : List Nat) : String :=
  "+" ++ String.join (ws.map fun w => "".pushn '-' (w + 2) ++ "+") ++ "\n"

def line (cells : List String) : String :=
  "|" ++ String.join (cells.map fun c => " " ++ c ++ " |") ++ "\n"

def place (w : Nat) (s : String) : String := if isDecimal s then alignRight w s else alignLeft w s

def rowLines (ws : List Nat) (row : List String) : String :=
  let cells := row.map cellLines
  let height := (cells.map List.length).foldl max 0
  String.join ((List.range height).map fun i =>
    line (List.zipWith (fun w c => place w (c.getD i "  ")) ws cells))

end Table

def tableText (header : List String) (rows : List (List String)) : String :=
  let ws := Table.widths header rows
  Table.rule ws ++ Table.line (List.zipWith Table.centre ws header) ++ Table.rule ws ++
    String.join (rows.map (Table.rowLines ws)) ++ Table.rule ws

end WatScript
