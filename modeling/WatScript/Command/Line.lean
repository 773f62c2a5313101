import WatScript.Command.Arguments
import WatScript.Command.Disk
import WatScript.Command.Emit
import WatScript.Command.Options
import WatScript.Command.Session
import WatScript.Command.SettingsFile

/-!
# Command lines

A command line names options, a command and what the command works on. A command reads and writes a disk
and prints text; it ends well or with a failure, and what it printed and wrote before stays.
-/

namespace WatScript

structure CommandResult where
  output : String
  disk : Disk
  failure : Option Diagnostic
  deriving Inhabited

namespace CommandResult

def printed (disk : Disk) (output : String) : CommandResult := ⟨output, disk, none⟩

def failed (disk : Disk) (d : Diagnostic) : CommandResult := ⟨"", disk, some d⟩

def ofDisk (disk : Disk) : Except DiskFault Disk → CommandResult
  | .ok changed => printed changed ""
  | .error f => failed disk (.plain f.message)

end CommandResult

namespace CommandLine

/-! ## Options -/

def helpOption : OptionSpec := ⟨["help", "h"], .switch⟩

def globalOptions : List OptionSpec :=
  [⟨["config"], .text⟩, ⟨["verbosity"], .integer⟩, ⟨["log.origins"], .switch⟩,
    ⟨["maxdepth"], .integer⟩, ⟨["cachedir"], .text⟩, ⟨["steplimit"], .natural⟩,
    ⟨["noverify"], .switch⟩, helpOption, ⟨["version", "v"], .switch⟩]

def buildOptions : List OptionSpec := [⟨["emit"], .text⟩, ⟨["output", "o"], .text⟩, helpOption]

def runOptions : List OptionSpec := [⟨["args"], .text⟩, helpOption]

def serviceOptions : List OptionSpec :=
  [⟨["http.addr"], .text⟩, ⟨["http.rate"], .real⟩, ⟨["http.burst"], .integer⟩,
    ⟨["http.corsdomain"], .text⟩, helpOption]

/-! ## Settings -/

def applyGlobal (g : GivenOptions) (c : Config) : Config :=
  let c := match g.last? ["maxdepth"] with
    | some (.integer n) => { c with maxDepth := .ofInt n }
    | _ => c
  let c := match g.text? ["cachedir"] with
    | some s => { c with cacheDir := s }
    | none => c
  let c := match g.last? ["steplimit"] with
    | some (.natural n) => { c with stepLimit := n }
    | _ => c
  if g.isOn ["noverify"] then { c with verify := false } else c

def applyService (g : GivenOptions) (s : ServiceSettings) : ServiceSettings :=
  let s := match g.text? ["http.addr"] with
    | some addr => { s with addr }
    | none => s
  let s := match g.last? ["http.rate"] with
    | some (.real rate) => { s with rate }
    | _ => s
  let s := match g.last? ["http.burst"] with
    | some (.integer burst) => { s with burst }
    | _ => s
  match g.texts ["http.corsdomain"] with
  | [] => s
  | origins => { s with origins }

/-- Settings from the standard ones, then a settings file, then options. -/
def settings (disk : Disk) (globals locals : GivenOptions) : Except Diagnostic Settings := do
  let path := (globals.text? ["config"]).getD ""
  let s ←
    if path.isEmpty then pure Settings.standard
    else do
      let content ← (disk.read path).mapError fun f => .plain f.message
      (Settings.standard.applyFile (Text.decode content)).mapError fun f =>
        .plain (path ++ ", " ++ f.message)
  return ⟨applyGlobal globals s.engine, applyService locals s.service⟩

/-- The engine of a command. If a cache directory is set, earlier commands have left a store there. -/
def engineOf (store : Store) (c : Config) : Engine :=
  (Engine.create c (if c.cacheDir.isEmpty then none else some store)).withLibrary

/-! ## Commands -/

structure Rendered where
  path : String
  text : String
  deriving DecidableEq, Repr, Inhabited

/-- Renders files in order, or fails for the first one that does not render. -/
def renderAll (disk : Disk) (stage : Stage) : Engine → List String → Except Diagnostic (List Rendered)
  | _, [] => .ok []
  | e, path :: rest => do
    let content ← (disk.read path).mapError fun f => .plain f.message
    let (e, text) := e.emit stage (Text.decode content)
    let text ← text.mapError fun f => f.diagnostic.wrap path
    return ⟨path, text⟩ :: (← renderAll disk stage e rest)

def outputName (stage : Stage) (path : String) : String := Path.stem path ++ "." ++ stage.extension

def bytesOf (s : String) : List UInt8 := (Text.ofString s).encode

def outputFile (directory : String) (stage : Stage) (r : Rendered) : String × List UInt8 :=
  (Path.join directory (outputName stage r.path), bytesOf r.text)

/-- Delivers what was rendered: prints it, or writes it to the file or into the directory `output`. -/
def deliver (disk : Disk) (stage : Stage) (output : String) : List Rendered → CommandResult
  | rendered =>
    if output.isEmpty then .printed disk (String.join (rendered.map (·.text)))
    else
      match rendered with
      | [r] => .ofDisk disk (disk.write output (bytesOf r.text))
      | rendered =>
        match disk.makeDirectories output with
        | .error f => .failed disk (.plain f.message)
        | .ok disk =>
          let (disk, fault) := disk.writeAll (rendered.map (outputFile output stage))
          ⟨"", disk, fault.map fun f => .plain f.message⟩

def build (store : Store) (disk : Disk) (globals locals : GivenOptions) : CommandResult :=
  let stageName := (locals.text? ["emit"]).getD "wat"
  if locals.rest.isEmpty then .failed disk (.plain "no input files")
  else if !Stage.isListed stageName then
    .failed disk (.plain ("unknown emit stage " ++ Text.quoteString stageName))
  else
    match settings disk globals locals with
    | .error d => .failed disk d
    | .ok s =>
      let stage := Stage.ofName stageName
      match renderAll disk stage (engineOf store s.engine) locals.rest with
      | .error d => .failed disk d
      | .ok rendered => deliver disk stage ((locals.text? ["output", "o"]).getD "") rendered

def reportRun (disk : Disk) (path : String) : Except EngineFault Execution → CommandResult
  | .error f => .failed disk (f.diagnostic.wrap path)
  | .ok x =>
    match x.trap with
    | some t => ⟨Session.logLines x.logs, disk, some (t.diagnostic.wrap path)⟩
    | none => .printed disk (Session.logLines x.logs ++ toString x.value.toInt ++ "\n")

def run (store : Store) (disk : Disk) (globals locals : GivenOptions) : CommandResult :=
  match locals.rest with
  | [path] =>
    match readArguments (Text.ofString ((locals.text? ["args"]).getD "")) with
    | .error f => .failed disk (.plain f.message)
    | .ok args =>
      match settings disk globals locals with
      | .error d => .failed disk d
      | .ok s =>
        match disk.read path with
        | .error f => .failed disk (.plain f.message)
        | .ok content =>
          match (engineOf store s.engine).compile false (Text.decode content) with
          | (_, .error f) => .failed disk (f.diagnostic.wrap path)
          | (e, .ok p) => reportRun disk path (e.run p false args)
  | _ => .failed disk (.plain "run takes exactly one file")

def dumpSettings (_store : Store) (disk : Disk) (globals locals : GivenOptions) : CommandResult :=
  match settings disk globals locals with
  | .error d => .failed disk d
  | .ok s =>
    match locals.rest with
    | [] => .printed disk s.text
    | path :: _ => .ofDisk disk (disk.write path (bytesOf s.text))

structure Command where
  name : String
  options : List OptionSpec
  action : Store → Disk → GivenOptions → GivenOptions → CommandResult

def commands : List Command :=
  [⟨"build", buildOptions, build⟩, ⟨"run", runOptions, run⟩,
    ⟨"dumpconfig", serviceOptions, dumpSettings⟩]

def versionLine : String := "lichenc version " ++ Engine.version ++ "\n"

def perform (store : Store) (disk : Disk) (globals : GivenOptions) (c : Command)
    (words : List String) : CommandResult :=
  match GivenOptions.read c.options (optionsFirst words) with
  | .error f => .failed disk (.plain f.message)
  | .ok locals =>
    if locals.isOn helpOption.names then .printed disk "" else c.action store disk globals locals

def execute (store : Store) (disk : Disk) (words : List String) : CommandResult :=
  match GivenOptions.read globalOptions words with
  | .error f => .failed disk (.plain f.message)
  | .ok globals =>
    if globals.isOn helpOption.names then .printed disk ""
    else if globals.isOn ["version", "v"] then .printed disk versionLine
    else
      match globals.rest with
      | [] => .printed disk ""
      | name :: words =>
        match commands.find? (·.name == name) with
        | some c => perform store disk globals c words
        | none => .failed disk (.plain ("No help topic for '" ++ name ++ "'"))

end CommandLine

end WatScript
