import WatScript.Command.Settings
import WatScript.Decimal.Read
import WatScript.Toml.Document
import WatScript.Toml.Moment

/-!
# Settings files

A settings file gives some settings and leaves the others as they are. It may name only tables and keys
that exist, with values of the right kind. What is wrong with the document as such is reported before
anything that is wrong with a value.
-/

namespace WatScript

open Toml (TomlValue)

inductive SettingsTable where
  | root
  | engine
  | service
  deriving DecidableEq, Repr, Inhabited

namespace SettingsTable

def typeName : SettingsTable → String
  | root => "main.lichencConfig"
  | engine => "engine.Config"
  | service => "main.httpConfig"

def reference : SettingsTable → String
  | engine =>
    ", see https://godoc.org/github.com/probechain/go-lichen/lang/engine#Config for available fields"
  | _ => ""

end SettingsTable

inductive FieldKind where
  | int
  | int64
  | uint64
  | float64
  | text
  | truth
  | texts
  | table (t : SettingsTable)
  deriving DecidableEq, Repr, Inhabited

def FieldKind.typeName : FieldKind → String
  | int => "int"
  | int64 => "int64"
  | uint64 => "uint64"
  | float64 => "float64"
  | text => "string"
  | truth => "bool"
  | texts => "[]string"
  | table t => t.typeName

inductive ValueFault where
  /-- A value of another kind; arrays are in place only where a list is needed. -/
  | wrongKind (found : String) (wanted : FieldKind) (needsList : Bool)
  | outOfRange (written : String) (wanted : FieldKind)
  | signed (written : String)
  | fractionOutOfRange (written : String)
  | badMoment (written : String) (part : Toml.MomentPart)
  | mixedArray
  deriving DecidableEq, Repr, Inhabited

def ValueFault.message : ValueFault → String
  | wrongKind found wanted needsList =>
    "cannot unmarshal TOML " ++ found ++ " into " ++ wanted.typeName ++
      (if needsList then " (need slice)" else "")
  | outOfRange written wanted => "value " ++ written ++ " is out of range for " ++ wanted.typeName
  | signed written =>
    "strconv.ParseUint: parsing " ++ Text.quoteString written ++ ": " ++ NumeralFault.invalid.message
  | fractionOutOfRange written =>
    "strconv.ParseFloat: parsing " ++ Text.quoteString written ++ ": " ++
      NumeralFault.outOfRange.message
  | badMoment written part =>
    "parsing time " ++ Text.quoteString written ++ ": " ++ part.name ++ " out of range"
  | mixedArray => "array can't contain multiple types"

inductive SettingsFault where
  | document (f : Toml.DocumentFault)
  | unknownField (table : SettingsTable) (key : String)
  | unexpectedTable (wanted : FieldKind)
  | value (table : SettingsTable) (key : String) (f : ValueFault)
  deriving DecidableEq, Repr, Inhabited

def SettingsFault.message : SettingsFault → String
  | document f => f.message
  | unknownField t key => "field '" ++ key ++ "' is not defined in " ++ t.typeName ++ t.reference
  | unexpectedTable wanted =>
    "cannot unmarshal TOML table into " ++ wanted.typeName ++ " (need struct or map)"
  | value t key f => "(" ++ t.typeName ++ "." ++ key ++ ") " ++ f.message

structure LineFault where
  line : Nat
  fault : SettingsFault
  deriving DecidableEq, Repr, Inhabited

def LineFault.message (f : LineFault) : String :=
  "line " ++ toString f.line ++ ": " ++ f.fault.message

/-! ## Values -/

def Toml.TomlValue.kindName : TomlValue → String
  | text _ => "string"
  | integer _ => "integer"
  | real _ => "float"
  | moment _ => "datetime"
  | boolean _ => "boolean"
  | array _ => "array"

/-- The failure of a value that is of another kind than `wanted`. Fractions and moments are looked at
for themselves first. -/
def ValueFault.ofKind (v : TomlValue) (wanted : FieldKind) : ValueFault :=
  match v with
  | .array _ => .wrongKind v.kindName wanted true
  | .real written =>
    match Binary64.read written with
    | .ok _ => .wrongKind v.kindName wanted false
    | .error _ => .fractionOutOfRange written
  | .moment written =>
    match Toml.Moment.fault? written.toList with
    | none => .wrongKind v.kindName wanted false
    | some part => .badMoment written part
  | _ => .wrongKind v.kindName wanted false

namespace FieldKind

def integer (wanted : FieldKind) : TomlValue → Except ValueFault Int
  | .integer written =>
    match Numeral.int64? written.toList with
    | some n => .ok n
    | none => .error (.outOfRange written wanted)
  | v => .error (.ofKind v wanted)

def natural : TomlValue → Except ValueFault Nat
  | .integer written =>
    match Numeral.unsigned 10 64 written.toList with
    | .ok n => .ok n
    | .error .invalid => .error (.signed written)
    | .error .outOfRange => .error (.outOfRange written .uint64)
  | v => .error (.ofKind v .uint64)

def fraction : TomlValue → Except ValueFault Binary64
  | .real written =>
    match Binary64.read written with
    | .ok x => .ok x
    | .error _ => .error (.fractionOutOfRange written)
  | v => .error (.ofKind v .float64)

def string : TomlValue → Except ValueFault String
  | .text s => .ok s
  | v => .error (.ofKind v .text)

def boolean : TomlValue → Except ValueFault Bool
  | .boolean b => .ok b
  | v => .error (.ofKind v .truth)

def stringsFrom (kind : String) : List TomlValue → Except ValueFault (List String)
  | [] => .ok []
  | v :: rest => do
    if v.kindName != kind then throw .mixedArray
    return (← string v) :: (← stringsFrom kind rest)

/-- A list of texts. The items are looked at in order, and have to be of the kind of the first one. -/
def strings : TomlValue → Except ValueFault (List String)
  | .array items => stringsFrom ((items.head?.map TomlValue.kindName).getD "") items
  | v => .error (.ofKind v .texts)

end FieldKind

/-! ## Fields -/

def SettingsTable.kindOf? : SettingsTable → String → Option FieldKind
  | root, "Engine" => some (.table .engine)
  | root, "HTTP" => some (.table .service)
  | engine, "MaxDepth" | engine, "MemoryPages" | engine, "CacheSize" | engine, "CacheBytes" =>
    some .int
  | engine, "StepLimit" => some .uint64
  | engine, "CacheDir" => some .text
  | engine, "Verify" => some .truth
  | service, "Addr" => some .text
  | service, "Rate" => some .float64
  | service, "Burst" => some .int
  | service, "Origins" => some .texts
  | service, "MaxSource" => some .int64
  | _, _ => none

namespace Settings

def setEngine (c : Config) (key : String) (v : TomlValue) : Except ValueFault Config := do
  match key with
  | "MaxDepth" => return { c with maxDepth := .ofInt (← FieldKind.int.integer v) }
  | "StepLimit" => return { c with stepLimit := ← FieldKind.natural v }
  | "MemoryPages" => return { c with memoryPages := ← FieldKind.int.integer v }
  | "CacheSize" => return { c with cacheSize := ← FieldKind.int.integer v }
  | "CacheBytes" => return { c with cacheBytes := ← FieldKind.int.integer v }
  | "CacheDir" => return { c with cacheDir := ← FieldKind.string v }
  | "Verify" => return { c with verify := ← FieldKind.boolean v }
  | _ => return c

def setService (s : ServiceSettings) (key : String) (v : TomlValue) :
    Except ValueFault ServiceSettings := do
  match key with
  | "Addr" => return { s with addr := ← FieldKind.string v }
  | "Rate" => return { s with rate := .finite (← FieldKind.fraction v) }
  | "Burst" => return { s with burst := ← FieldKind.int.integer v }
  | "Origins" => return { s with origins := ← FieldKind.strings v }
  | "MaxSource" => return { s with maxSource := ← FieldKind.int64.integer v }
  | _ => return s

/-- The settings with a field of a table, which is of the given kind, changed to a value. -/
def set (s : Settings) (table : SettingsTable) (key : String) (kind : FieldKind) (v : TomlValue) :
    Except ValueFault Settings :=
  match table with
  | .engine => (setEngine s.engine key v).map fun engine => { s with engine }
  | .service => (setService s.service key v).map fun service => { s with service }
  | .root => .error (.ofKind v kind)

/-- Changes a field by an array of tables, which no field takes. -/
def setTables (table : SettingsTable) (key : String) (kind : FieldKind) : SettingsFault :=
  match kind with
  | .texts => .unexpectedTable .text
  | _ => .value table key (.wrongKind "array table" kind true)

def setField (table : SettingsTable) (s : Settings) (entry : String × Toml.Field) :
    Except LineFault Settings :=
  let (key, field) := entry
  let fail (fault : SettingsFault) : Except LineFault Settings := .error ⟨field.line, fault⟩
  match table.kindOf? key with
  | none => fail (.unknownField table key)
  | some kind =>
    match field with
    | .value v _ =>
      match s.set table key kind v with
      | .ok s => .ok s
      | .error f => fail (.value table key f)
    | .table _ => fail (.unexpectedTable kind)
    | .tables _ => fail (setTables table key kind)

def setRootField (s : Settings) (entry : String × Toml.Field) : Except LineFault Settings :=
  match SettingsTable.root.kindOf? entry.1, entry.2 with
  | some (.table inner), .table t => t.fields.foldlM (setField inner) s
  | _, _ => setField .root s entry

def applyFile (s : Settings) (file : Text) : Except LineFault Settings :=
  match Toml.readDocument file.toChars with
  | .error blame => .error ⟨blame.line, .document blame.fault⟩
  | .ok root => root.fields.foldlM setRootField s

end Settings

end WatScript
