import WatScript.Service.Json
import WatScript.Text.Numeral

/-!
# Requests

What a caller asks for: a source text and arguments, as the fields of a JSON object. Names of fields are
compared without regard to case, the last one of several wins, and unknown ones are passed over.
-/

namespace WatScript

structure SourceRequest where
  source : String
  args : List Int32
  /-- What is left of a longer list of arguments that was given before. -/
  spare : List Int32
  deriving Repr, Inhabited

namespace SourceRequest

def empty : SourceRequest := ⟨"", [], []⟩

/-- A letter without its case; the long s and the Kelvin sign count as the letters they come from. -/
def foldLetter (c : Char) : Char :=
  if c == '\u017f' then 's' else if c == '\u212a' then 'k' else c.toLower

def isNamed (wanted name : String) : Bool := name.toList.map foldLetter == wanted.toList

def readArg (old : Int32) : JsonValue → Option Int32
  | .null => some old
  | .number text => Numeral.int32? text.toList
  | _ => none

def readArgs : List Int32 → List JsonValue → Option (List Int32)
  | _, [] => some []
  | old, item :: rest => do
    let v ← readArg (old.headD 0) item
    return v :: (← readArgs old.tail rest)

def withField (r : SourceRequest) (name : String) (value : JsonValue) : Option SourceRequest :=
  if isNamed "source" name then
    match value with
    | .null => some r
    | .string source => some { r with source }
    | _ => none
  else if isNamed "args" name then
    match value with
    | .null | .array [] => some { r with args := [], spare := [] }
    | .array items =>
      let old := r.args ++ r.spare
      (readArgs old items).map fun args => { r with args, spare := old.drop args.length }
    | _ => none
  else some r

def ofJson : JsonValue → Option SourceRequest
  | .null => some empty
  | .object fields => fields.foldlM (fun r (name, value) => r.withField name value) empty
  | _ => none

/-- Reads a request. Of a body beyond `limit` bytes only the first ones are read; without a limit,
which is a limit of zero or less, all of it is. A value that ends only with the text must not have been
cut off. -/
def read (limit : Int) (body : List UInt8) : Option SourceRequest := do
  let bounded := 0 < limit
  let kept := if bounded then body.take limit.toNat else body
  let (value, rest) ← JsonValue.read? (Text.decode kept).toChars
  match value with
  | .null => if rest.isEmpty && kept.length < body.length then none else ofJson value
  | value => ofJson value

end SourceRequest

end WatScript
