import WatScript.Command.Arguments

/-!
# Interactive sessions

A session compiles each input, runs it with the arguments set before and writes what comes of it. An
input that starts with a colon is a command to the session itself. An input whose quotation, comment or
bracket is not closed yet goes on in the next line.
-/

namespace WatScript

def isIncomplete (source : Text) : Bool :=
  match scan .top source with
  | .ok _ => false
  | .error f => f.isIncomplete

structure Session where
  engine : Engine
  args : List Int32
  /-- The instructions of every input are written before it runs. -/
  showsWat : Bool

structure SessionStep where
  session : Session
  out : String
  more : Bool

namespace Session

def start (engine : Engine) : Session := ⟨engine, [], false⟩

def greeting : String := "lichen " ++ Engine.version ++ ", type :quit to exit"

def logLines (logs : List Int32) : String :=
  String.join (logs.map fun v => "log: " ++ toString v.toInt ++ "\n")

def command (s : Session) (fields : List Text) : SessionStep :=
  match fields.head?.map Text.toString with
  | some ":quit" | some ":q" => ⟨s, "", false⟩
  | some ":wat" => ⟨{ s with showsWat := !s.showsWat }, "", true⟩
  | some ":args" =>
    match readArguments fields.tail.flatten with
    | .error f => ⟨s, f.message ++ "\n", true⟩
    | .ok args => ⟨{ s with args }, "", true⟩
  | name => ⟨s, "unknown command " ++ name.getD "" ++ "\n", true⟩

def outcome : Except EngineFault Execution → String
  | .error f => f.diagnostic.text ++ "\n"
  | .ok x =>
    logLines x.logs ++
      (match x.trap with
        | some t => t.message
        | none => toString x.value.toInt) ++ "\n"

def eval (s : Session) (source : Text) : SessionStep :=
  let trimmed := Text.trimBoth Text.isBlankGlyph source
  if trimmed.head? == some (.char ':') then s.command (Text.fields trimmed)
  else
    match s.engine.compile false source with
    | (engine, .error f) => ⟨{ s with engine }, f.diagnostic.text ++ "\n", true⟩
    | (engine, .ok p) =>
      let shown := if s.showsWat then p.wat else ""
      ⟨{ s with engine }, shown ++ outcome (engine.run p false s.args), true⟩

end Session

end WatScript
