import WatScript.Text.Numeral
import WatScript.Toml.Written

/-!
# TOML documents

A document is a tree of tables. It is put together from what is written, item by item:

* a header opens a table, and the tables around it that are not there yet;
* a pair gives a key of the open table its value;
* a table in braces is a table of its own under its key, and inside an array it is one more table of an
  array of tables.

A key of a table is given once. A table may be opened by a header once, but a table that is there only
because of a table inside it, or because of braces, may be opened again and keeps its keys.
-/

namespace WatScript.Toml

/-- A value of a document. Numbers and moments are as written. -/
inductive TomlValue where
  | text (s : String)
  | integer (written : String)
  | real (written : String)
  | moment (written : String)
  | boolean (b : Bool)
  | array (items : List TomlValue)
  deriving Repr, Inhabited

mutual

/-- A table: the line that opened it, whether that was a header, and its fields in the order in which
they came. -/
inductive Table where
  | mk (line : Nat) (isNamed : Bool) (fields : List (String × Field))

/-- What stands under a key: a value and its line, a table, or an array of tables. -/
inductive Field where
  | value (v : TomlValue) (line : Nat)
  | table (t : Table)
  | tables (ts : List Table)

end

instance : Inhabited Table := ⟨.mk 0 false []⟩

inductive DocumentFault where
  | unreadable
  | badEscape
  | keyGiven (key : String) (line : Nat)
  | keyIsTable (key : String) (line : Nat)
  | keyIsTables (key : String)
  | throughValue (key : String) (line : Nat)
  | headerIsValue (isArray : Bool) (name : String) (line : Nat)
  | headerIsTable (isArray : Bool) (name : String) (line : Nat)
  | headerIsTables (name : String) (line : Nat)
  deriving DecidableEq, Repr, Inhabited

namespace DocumentFault

def headerKind (isArray : Bool) : String := if isArray then "array table" else "table"

def message : DocumentFault → String
  | unreadable => "invalid TOML syntax"
  | badEscape => "invalid syntax"
  | keyGiven key line =>
    "key `" ++ key ++ "' is in conflict with line " ++ String.ofList (Nat.toDigits 16 line) ++ "d"
  | keyIsTable key line => "key `" ++ key ++ "' is in conflict with table in line " ++ toString line
  | keyIsTables key =>
    "BUG: key `" ++ key ++ "' is in conflict but it's unknown type `[]*ast.Table'"
  | throughValue key line => "key `" ++ key ++ "' is in conflict with line " ++ toString line
  | headerIsValue isArray name line =>
    headerKind isArray ++ " `" ++ name ++ "' is in conflict with line " ++ toString line
  | headerIsTable isArray name line =>
    headerKind isArray ++ " `" ++ name ++ "' is in conflict with table in line " ++ toString line
  | headerIsTables name line =>
    "table `" ++ name ++ "' is in conflict with array table in line " ++ toString line

end DocumentFault

structure Blame where
  line : Nat
  fault : DocumentFault
  deriving DecidableEq, Repr, Inhabited

/-! ## Escapes -/

def charOfHex? (digits : List Char) : Option Char :=
  let n := digits.foldl (fun n c => 16 * n + (Numeral.digitValue? c).getD 0) 0
  if n < 0xD800 || (0xE000 ≤ n && n < 0x110000) then some (Char.ofNat n) else none

def charOfLetter? : Char → Option Char
  | 'b' => some '\x08'
  | 't' => some '\t'
  | 'n' => some '\n'
  | 'f' => some '\x0c'
  | 'r' => some '\r'
  | '"' => some '"'
  | '\\' => some '\\'
  | _ => none

/-- The characters that a text with escapes stands for. The escaped slash, which may be written, stands
for none. -/
def unescape : List Char → Option (List Char)
  | [] => some []
  | '\\' :: 'u' :: a :: b :: c :: d :: rest => do
    return (← charOfHex? [a, b, c, d]) :: (← unescape rest)
  | '\\' :: 'U' :: a :: b :: c :: d :: e :: f :: g :: h :: rest => do
    return (← charOfHex? [a, b, c, d, e, f, g, h]) :: (← unescape rest)
  | '\\' :: c :: rest => do return (← charOfLetter? c) :: (← unescape rest)
  | c :: rest => do return c :: (← unescape rest)

/-- What a written text stands for. A text on several lines starts behind its first line ends. -/
def TextForm.read? (form : TextForm) (body : List Char) : Option String :=
  String.ofList <$> match form with
    | .basic => unescape body
    | .longBasic => unescape (body.dropWhile isLineEnd)
    | .literal => some body
    | .longLiteral => some (body.dropWhile isLineEnd)

def WrittenKey.name (k : WrittenKey) : Except Blame String :=
  if k.isQuoted then
    match unescape k.body with
    | some cs => .ok (String.ofList cs)
    | none => .error ⟨k.line, .badEscape⟩
  else .ok (String.ofList k.body)

/-! ## Tables -/

namespace Table

def line : Table → Nat
  | mk line _ _ => line

def isNamed : Table → Bool
  | mk _ isNamed _ => isNamed

def fields : Table → List (String × Field)
  | mk _ _ fields => fields

def get? (t : Table) (key : String) : Option Field := t.fields.lookup key

/-- Fields with one of them changed, or with one more at the end. -/
def put (key : String) (f : Field) : List (String × Field) → List (String × Field)
  | [] => [(key, f)]
  | (k, old) :: rest => if k == key then (k, f) :: rest else (k, old) :: put key f rest

def insert (t : Table) (key : String) (f : Field) : Table :=
  .mk t.line t.isNamed (put key f t.fields)

/-- Changes the table at the end of a path. Tables on the way that are not there yet are opened at
`line`; in an array of tables the way goes through the last one. -/
def change (line : Nat) (f : Table → Except DocumentFault Table) :
    List String → Table → Except DocumentFault Table
  | [], t => f t
  | key :: path, t => do
    match t.get? key with
    | none => return t.insert key (.table (← change line f path (.mk line false [])))
    | some (.table u) => return t.insert key (.table (← change line f path u))
    | some (.tables us) =>
      let last ← change line f path (us.getLast?.getD default)
      return t.insert key (.tables (us.dropLast ++ [last]))
    | some (.value _ n) => throw (.throughValue key n)

/-- Opens a table under a key; `name` is its name in messages. -/
def openTable (t : Table) (isNamed : Bool) (name key : String) (line : Nat) :
    Except DocumentFault Table :=
  match t.get? key with
  | none => .ok (t.insert key (.table (.mk line isNamed [])))
  | some (.table u) =>
    if u.isNamed then .error (.headerIsTable false name u.line)
    else .ok (t.insert key (.table (.mk line isNamed u.fields)))
  | some (.tables us) => .error (.headerIsTables name ((us.head?.map Table.line).getD 0))
  | some (.value _ n) => .error (.headerIsValue false name n)

def openElement (t : Table) (isNamed : Bool) (name key : String) (line : Nat) :
    Except DocumentFault Table :=
  let element : Table := .mk line isNamed []
  match t.get? key with
  | none => .ok (t.insert key (.tables [element]))
  | some (.tables us) => .ok (t.insert key (.tables (us ++ [element])))
  | some (.table u) => .error (.headerIsTable true name u.line)
  | some (.value _ n) => .error (.headerIsValue true name n)

def openAs (isArray : Bool) (t : Table) (isNamed : Bool) (name key : String) (line : Nat) :
    Except DocumentFault Table :=
  if isArray then t.openElement isNamed name key line else t.openTable isNamed name key line

def give (t : Table) (key : String) (v : TomlValue) (line : Nat) : Except DocumentFault Table :=
  match t.get? key with
  | none => .ok (t.insert key (.value v line))
  | some (.value _ n) => .error (.keyGiven key n)
  | some (.table u) => .error (.keyIsTable key u.line)
  | some (.tables _) => .error (.keyIsTables key)

end Table

def Field.line : Field → Nat
  | value _ n => n
  | table t => t.line
  | tables ts => (ts.head?.map Table.line).getD 0

/-! ## From what is written -/

/-- A document that is being put together, and the path of its open table. -/
structure Draft where
  root : Table
  current : List String

namespace Draft

def changeCurrent (d : Draft) (line : Nat) (f : Table → Except DocumentFault Table) :
    Except Blame Draft :=
  match d.root.change line f d.current with
  | .ok root => .ok { d with root }
  | .error fault => .error ⟨line, fault⟩

def openHeader (d : Draft) (isArray : Bool) (name : String) (path : List String) (line : Nat) :
    Except Blame Draft := do
  let outer := { d with current := path.dropLast }
  let d ← outer.changeCurrent line fun t => t.openAs isArray true name (path.getLast?.getD "") line
  return { d with current := path }

mutual

/-- Takes the value of a key: the value, or none if there were tables in braces, which stand in the
document. `inArray` says that the value is in an array. -/
def take (inArray : Bool) (key : String) (d : Draft) :
    WrittenValue → Except Blame (Draft × Option TomlValue)
  | .moment s => .ok (d, some (.moment s))
  | .real s => .ok (d, some (.real s))
  | .integer s => .ok (d, some (.integer s))
  | .boolean b => .ok (d, some (.boolean b))
  | .text form body line =>
    match form.read? body with
    | some s => .ok (d, some (.text s))
    | none => .error ⟨line, .badEscape⟩
  | .array items => do
    let (d, values) ← takeAll key d items
    return (d, values.map .array)
  | .table line pairs => do
    let outer := d.current
    let d ← d.changeCurrent line fun t => t.openAs inArray false key key line
    let d ← addPairs inArray { d with current := outer ++ [key] } pairs
    return ({ d with current := outer }, none)

def takeAll (key : String) (d : Draft) :
    List WrittenValue → Except Blame (Draft × Option (List TomlValue))
  | [] => .ok (d, some [])
  | item :: rest => do
    let (d, v) ← take true key d item
    let (d, vs) ← takeAll key d rest
    return (d, do return (← v) :: (← vs))

def addPair (inArray : Bool) (d : Draft) : WrittenPair → Except Blame Draft
  | .mk key value line => do
    let name ← key.name
    match ← take inArray name d value with
    | (d, none) => return d
    | (d, some v) => d.changeCurrent line fun t => t.give name v line

def addPairs (inArray : Bool) (d : Draft) : List WrittenPair → Except Blame Draft
  | [] => .ok d
  | p :: rest => do addPairs inArray (← addPair inArray d p) rest

end

def addItem (d : Draft) : WrittenItem → Except Blame Draft
  | .header isArray name path line => do
    d.openHeader isArray name (← path.mapM WrittenKey.name) line
  | .pair p => d.addPair false p

end Draft

def readDocument (cs : List Char) : Except Blame Table :=
  match readWritten cs with
  | .error line => .error ⟨line, .unreadable⟩
  | .ok items => do
    let d ← items.foldlM Draft.addItem ⟨.mk 1 false [], []⟩
    return d.root

end WatScript.Toml
