import WatScript.Decimal.Extended
import WatScript.Engine.Report
import WatScript.Service.Request
import WatScript.Text.Blank

/-!
# The compiler as a service

Three routes: compile a source text, run one, and tell that all is well. A caller may be refused because
there were too many requests; answers tell browsers which origins may read them.
-/

namespace WatScript

structure ServiceSettings where
  addr : String
  rate : Extended64
  burst : Int
  origins : List String
  /-- The largest request in bytes; no limit unless positive. -/
  maxSource : Int
  deriving DecidableEq, Repr, Inhabited

namespace ServiceSettings

def standard : ServiceSettings :=
  ⟨"127.0.0.1:8645", .finite ⟨false, 5629499534213120, -48⟩, 40, ["*"], 1048576⟩

end ServiceSettings

structure HttpRequest where
  method : String
  path : String
  body : List UInt8
  origin : String

structure HttpReply where
  status : Nat
  contentType : String
  body : String
  allowedOrigin : String
  deriving DecidableEq, Repr, Inhabited

/-- The service with its engine; `tokens` are the limited requests that still pass, if there is a
limit. -/
structure Service where
  engine : Engine
  origins : List String
  maxSource : Int
  tokens : Option Nat

namespace Service

def start (engine : Engine) (s : ServiceSettings) : Service :=
  ⟨engine, s.origins, s.maxSource, if s.rate.isPositive then some s.burst.toNat else none⟩

/-! ## Origins -/

/-- An origin matches a pattern, in which one star stands for any text. -/
def matchesPattern (pattern origin : List Char) : Bool :=
  match pattern.span (· != '*') with
  | (start, []) => start == origin
  | (start, _ :: rest) =>
    start.length + rest.length ≤ origin.length && start.isPrefixOf origin && rest.isSuffixOf origin

def lower (s : String) : List Char := s.toList.map Char.toLower

def allowsAll (s : Service) : Bool := s.origins.isEmpty || s.origins.contains "*"

def allowedOrigin (s : Service) (r : HttpRequest) : String :=
  if r.origin.isEmpty || !(["GET", "POST", "OPTIONS"].contains r.method.toUpper) then ""
  else if s.allowsAll then "*"
  else if s.origins.any fun o => matchesPattern (lower o) (lower r.origin) then r.origin
  else ""

/-! ## Answers -/

def plain (status : Nat) (text : String) : HttpReply :=
  ⟨status, "text/plain; charset=utf-8", text ++ "\n", ""⟩

def json (fields : List (String × String)) : HttpReply :=
  ⟨200, "application/json", JsonValue.objectText fields ++ "\n", ""⟩

def textField (name value : String) : List (String × String) :=
  if value.isEmpty then [] else [(name, JsonValue.stringText value)]

def textsField (name : String) (values : List String) : List (String × String) :=
  if values.isEmpty then [] else [(name, JsonValue.arrayText (values.map JsonValue.stringText))]

def compileFields (r : CompileReport) : List (String × String) :=
  textField "hash" r.hash ++ textField "wat" r.wat ++ textField "module" r.module ++
    textsField "locals" r.locals ++ textsField "calls" r.calls ++
    [("success", toString r.success)] ++ textField "kind" r.kind ++ textField "error" r.error

def runFields (r : RunReport) : List (String × String) :=
  let logs := r.logs.map fun v => toString v.toInt
  [("value", toString r.value.toInt), ("steps", toString r.steps)] ++
    (if logs.isEmpty then [] else [("logs", JsonValue.arrayText logs)]) ++
    [("success", toString r.success)] ++ textField "kind" r.kind ++ textField "error" r.error

def takeToken? (s : Service) : Option Service :=
  match s.tokens with
  | none => some s
  | some 0 => none
  | some (n + 1) => some { s with tokens := some n }

def serveSource (s : Service) (r : HttpRequest)
    (answer : Service → SourceRequest → Service × HttpReply) : Service × HttpReply :=
  match s.takeToken? with
  | none => (s, plain 429 "Too Many Requests")
  | some s =>
    match SourceRequest.read s.maxSource r.body with
    | none => (s, plain 400 "invalid request: unreadable body")
    | some q => answer s q

def compile (s : Service) (id : String) (q : SourceRequest) : Service × HttpReply :=
  let (engine, report) := s.engine.reportCompile (Text.ofString q.source)
  ({ s with engine }, json (("id", JsonValue.stringText id) :: compileFields report))

def run (s : Service) (id : String) (q : SourceRequest) : Service × HttpReply :=
  let (engine, report) := s.engine.reportRun (Text.ofString q.source) false q.args
  ({ s with engine }, json (("id", JsonValue.stringText id) :: runFields report))

def health : HttpReply :=
  json [("status", JsonValue.stringText "ok"), ("version", JsonValue.stringText Engine.version)]

/-! ## Routes -/

/-- A path with its escapes taken back. A byte beyond ASCII gives a character that no route has. -/
def unescapePath : List Char → List Char
  | [] => []
  | '%' :: a :: b :: rest =>
    match JsonValue.hexValue? a, JsonValue.hexValue? b with
    | some high, some low => Char.ofNat (16 * high + low) :: unescapePath rest
    | _, _ => '%' :: a :: b :: unescapePath rest
  | c :: rest => c :: unescapePath rest

/-- The path of a target and its query, which starts with a question mark if there is one. -/
def splitTarget (target : String) : String × String :=
  let (path, query) := target.toList.span (· != '?')
  (String.ofList (unescapePath path), String.ofList query)

def routes : List (String × String) := [("POST", "/compile"), ("POST", "/run"), ("GET", "/health")]

/-- The parts of a path, with steps to the same and to the outer directory taken. -/
def cleanParts : List (List Char) → List (List Char) → List (List Char)
  | kept, [] => kept.reverse
  | kept, part :: rest =>
    if part == [] || part == ['.'] then cleanParts kept rest
    else if part == ['.', '.'] then cleanParts kept.tail rest
    else cleanParts (part :: kept) rest

/-- The path that a request should have had, if one of the method is meant. A roundabout way to the top
leads there if it is to be read. -/
def intended? (method path : String) : Option String :=
  let parts := cleanParts [] (Text.split (· == '/') path.toList)
  let wanted := (('/' :: ['/'].intercalate parts).map Char.toLower)
  if method == "GET" && parts.isEmpty && path != "/" then some "/"
  else (routes.find? fun (m, p) => m == method && p.toList == wanted).map (·.2)

def markupChar : Char → List Char
  | '&' => "&amp;".toList
  | '<' => "&lt;".toList
  | '>' => "&gt;".toList
  | '"' => "&#34;".toList
  | '\'' => "&#39;".toList
  | c => [c]

def redirect (method target : String) : HttpReply :=
  if method == "GET" then
    let link := String.ofList (target.toList.flatMap markupChar)
    ⟨301, "text/html; charset=utf-8", "<a href=\"" ++ link ++ "\">Moved Permanently</a>.\n\n", ""⟩
  else ⟨307, "", "", ""⟩

def serve (s : Service) (id : String) (r : HttpRequest) : Service × HttpReply :=
  let (path, query) := splitTarget r.path
  match r.method, path with
  | "POST", "/compile" => s.serveSource r fun s q => s.compile id q
  | "POST", "/run" => s.serveSource r fun s q => s.run id q
  | "GET", "/health" => (s, health)
  | method, path =>
    let isKnown := path == "*" || routes.any (·.2 == path)
    if method == "OPTIONS" && isKnown then (s, ⟨200, "", "", ""⟩)
    else
      match intended? method path with
      | some p => (s, redirect method (p ++ query))
      | none => (s, if isKnown then plain 405 "Method Not Allowed" else plain 404 "404 page not found")

/-- Serves a request and says which origin may read the answer. A request without a method is to be
read. -/
def handle (s : Service) (id : String) (r : HttpRequest) : Service × HttpReply :=
  let r := if r.method.isEmpty then { r with method := "GET" } else r
  let (next, reply) := s.serve id r
  (next, { reply with allowedOrigin := s.allowedOrigin r })

end Service

end WatScript
