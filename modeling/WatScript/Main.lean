import WatScript.Command.Line

/-!
# The program

Reads what the command line names into a `Disk`, lets `CommandLine.execute` decide, and prints and
writes what it leaves behind. An interactive session reads lines from standard input.
-/

namespace WatScript

namespace Main

def namedPaths (words : List String) : List String :=
  words.flatMap fun w =>
    match (splitOption w.toList).2 with
    | some value => [w, value]
    | none => [w]

def load (disk : Disk) (path : String) : IO Disk := do
  let real := (← IO.currentDir) / path
  match disk.target path with
  | .error _ => return disk
  | .ok place =>
    if ← real.isDir then return { disk with directories := place :: disk.directories }
    else if ← real.pathExists then return disk.put place (← IO.FS.readBinFile real).toList
    else return disk

/-- The part of the real disk that a command line may look at. -/
def loadAll (words : List String) : IO Disk :=
  ((namedPaths words).flatMap Disk.ancestors).foldlM load (Disk.ofFiles [])

def pathOf (p : Place) : String := "/".intercalate p

/-- Writes the files and directories that a command left behind and that were not there before. -/
def store (before after : Disk) : IO Unit := do
  for p in after.directories.reverse do
    unless before.directories.contains p do IO.FS.createDirAll (pathOf p)
  for (p, content) in after.files.reverse do
    unless before.files.lookup p == some content do
      IO.FS.writeBinFile (pathOf p) (ByteArray.mk content.toArray)

/-- Reads lines until they form an input that is not unfinished; none at the end of the input. -/
partial def readInput (input : IO.FS.Stream) (soFar : String) : IO (Option String) := do
  IO.print (if soFar.isEmpty then "> " else ". ")
  (← IO.getStdout).flush
  let line ← input.getLine
  if line.isEmpty then return none
  let line := String.ofList (line.toList.filter (· != '\n'))
  let source := if soFar.isEmpty then line else soFar ++ "\n" ++ line
  if isIncomplete (Text.ofString source) then readInput input source else return some source

partial def converse (input : IO.FS.Stream) (s : Session) : IO Unit := do
  match ← readInput input "" with
  | none => IO.println ""
  | some source =>
    if (Text.trimString source).isEmpty then converse input s
    else
      let step := s.eval (Text.ofString source)
      IO.print step.out
      if step.more then converse input step.session

def interact (disk : Disk) (globals : GivenOptions) : IO UInt32 := do
  match CommandLine.settings disk globals ⟨[], []⟩ with
  | .error d =>
    IO.eprintln ("Fatal: " ++ d.text)
    return 1
  | .ok s =>
    IO.println Session.greeting
    converse (← IO.getStdin) (.start (CommandLine.engineOf .empty s.engine))
    return 0

def perform (disk : Disk) (words : List String) : IO UInt32 := do
  let result := CommandLine.execute .empty disk words
  IO.print result.output
  store disk result.disk
  match result.failure with
  | none => return 0
  | some d =>
    IO.eprintln d.text
    return 1

end Main

end WatScript

open WatScript in
def main (words : List String) : IO UInt32 := do
  let disk ← Main.loadAll words
  match GivenOptions.read CommandLine.globalOptions words with
  | .ok globals =>
    if globals.rest.head? == some "repl" then Main.interact disk globals else Main.perform disk words
  | .error _ => Main.perform disk words
