import WatScript.Decimal.Extended
import WatScript.Text.Quoted

/-!
# Command line options

An option is a word that starts with one or two dashes, with its value after an equals sign or in the
next word. Options end at the first other word, or at two dashes.
-/

namespace WatScript

inductive OptionKind where
  /-- No value of its own: the option is on, unless it is written with a truth value. -/
  | switch
  | text
  | integer
  | natural
  | real
  deriving DecidableEq, Repr, Inhabited

structure OptionSpec where
  names : List String
  kind : OptionKind
  deriving DecidableEq, Repr, Inhabited

inductive OptionValue where
  | switch (b : Bool)
  | text (s : String)
  | integer (n : Int)
  | natural (n : Nat)
  | real (x : Extended64)
  deriving DecidableEq, Repr, Inhabited

def valueFault : NumeralFault → String
  | .invalid => "parse error"
  | .outOfRange => "value out of range"

inductive OptionFault where
  | badSyntax (word : String)
  | undefined (name : String)
  | needsValue (name : String)
  | badSwitch (name value : String)
  | badValue (name value : String) (why : NumeralFault)
  | twoForms (second first : String)
  deriving DecidableEq, Repr, Inhabited

def OptionFault.message : OptionFault → String
  | badSyntax word => "bad flag syntax: " ++ word
  | undefined name => "flag provided but not defined: -" ++ name
  | needsValue name => "flag needs an argument: -" ++ name
  | badSwitch name value =>
    "invalid boolean value " ++ Text.quoteString value ++ " for -" ++ name ++ ": parse error"
  | badValue name value why =>
    "invalid value " ++ Text.quoteString value ++ " for flag -" ++ name ++ ": " ++ valueFault why
  | twoForms second first => "Cannot use two forms of the same flag: " ++ second ++ " " ++ first

def readTruth? (s : String) : Option Bool :=
  if ["1", "t", "T", "TRUE", "true", "True"].contains s then some true
  else if ["0", "f", "F", "FALSE", "false", "False"].contains s then some false
  else none

def OptionKind.readValue (kind : OptionKind) (s : String) : Except NumeralFault OptionValue :=
  match kind with
  | .switch | .text => .ok (.text s)
  | .integer => (Numeral.free 64 s.toList).map .integer
  | .natural => (Numeral.freeUnsigned 64 s.toList).map .natural
  | .real => (Extended64.read s).map .real

/-- The options that were given, in order, and the words that follow them. -/
structure GivenOptions where
  given : List (String × OptionValue)
  rest : List String
  deriving Repr, Inhabited

/-- The options that could be read, in order, and the words that follow them or why they end. -/
structure OptionReading where
  given : List (String × OptionValue)
  rest : Except OptionFault (List String)
  deriving Inhabited

/-- The name and the value of an option word without its dashes; an equals sign can not be first. -/
def splitOption : List Char → String × Option String
  | [] => ("", none)
  | c :: cs =>
    match cs.span (· != '=') with
    | (name, []) => (String.ofList (c :: name), none)
    | (name, _ :: value) => (String.ofList (c :: name), some (String.ofList value))

inductive OptionWord where
  | plain
  | terminator
  | malformed
  | option (name : String) (value : Option String)
  deriving DecidableEq, Repr, Inhabited

def OptionWord.ofBody : List Char → OptionWord
  | [] => malformed
  | c :: cs =>
    if c == '-' || c == '=' then malformed
    else
      let (name, value) := splitOption (c :: cs)
      option name value

def OptionWord.ofString (word : String) : OptionWord :=
  match word.toList with
  | ['-', '-'] => terminator
  | '-' :: '-' :: body => ofBody body
  | ['-'] => plain
  | '-' :: body => ofBody body
  | _ => plain

namespace OptionReading

def done (rest : List String) : OptionReading := ⟨[], .ok rest⟩

def fail (fault : OptionFault) : OptionReading := ⟨[], .error fault⟩

def cons (name : String) (v : OptionValue) (r : OptionReading) : OptionReading :=
  { r with given := (name, v) :: r.given }

def ofWords (specs : List OptionSpec) : List String → OptionReading
  | [] => done []
  | word :: rest =>
    match OptionWord.ofString word with
    | .plain => done (word :: rest)
    | .terminator => done rest
    | .malformed => fail (.badSyntax word)
    | .option name value =>
      match specs.find? fun s => s.names.contains name with
      | none => fail (.undefined name)
      | some spec =>
        match spec.kind, value, rest with
        | .switch, none, rest => (ofWords specs rest).cons name (.switch true)
        | .switch, some v, rest =>
          match readTruth? v with
          | none => fail (.badSwitch name v)
          | some b => (ofWords specs rest).cons name (.switch b)
        | kind, some v, rest =>
          match kind.readValue v with
          | .error why => fail (.badValue name v why)
          | .ok v => (ofWords specs rest).cons name v
        | _, none, [] => fail (.needsValue name)
        | kind, none, v :: rest =>
          match kind.readValue v with
          | .error why => fail (.badValue name v why)
          | .ok v => (ofWords specs rest).cons name v

def twoForms? (specs : List OptionSpec) (r : OptionReading) : Option OptionFault :=
  specs.findSome? fun s =>
    match s.names.filter fun n => r.given.any (·.1 == n) with
    | first :: second :: _ => some (.twoForms second first)
    | _ => none

end OptionReading

namespace GivenOptions

/-- Reads options, each under one of its names only. Two names of one option are reported before
anything that is wrong further on. -/
def read (specs : List OptionSpec) (words : List String) : Except OptionFault GivenOptions := do
  let r := OptionReading.ofWords specs words
  match r.twoForms? specs with
  | some fault => throw fault
  | none => return ⟨r.given, ← r.rest⟩

/-- The values given for an option under any of its names, in order. -/
def values (g : GivenOptions) (names : List String) : List OptionValue :=
  (g.given.filter fun (n, _) => names.contains n).map (·.2)

def last? (g : GivenOptions) (names : List String) : Option OptionValue := (g.values names).getLast?

def text? (g : GivenOptions) (names : List String) : Option String :=
  match g.last? names with
  | some (.text s) => some s
  | _ => none

def texts (g : GivenOptions) (names : List String) : List String :=
  (g.values names).filterMap fun
    | .text s => some s
    | _ => none

def isOn (g : GivenOptions) (names : List String) : Bool := g.last? names == some (.switch true)

end GivenOptions

def looksLikeOption (word : String) : Bool := word != "-" && word.toList.head? == some '-'

/-- Moves the words before the first option behind the options. Two dashes and what follows them stay
behind these words. -/
def optionsFirst (words : List String) : List String :=
  let (front, closed) := words.span (· != "--")
  match front.span fun w => !looksLikeOption w with
  | (_, []) => words
  | (plain, options) => options ++ plain ++ closed

end WatScript
