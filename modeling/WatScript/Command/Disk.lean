import WatScript.Text.Blank

/-!
# Disks

The files and directories that a command line sees. A path is followed part by part from the working
directory, so every part but the last has to be a directory.
-/

namespace WatScript

/-- Where something is on a disk: the names of the directories that lead to it, and its own. -/
abbrev Place := List String

structure Disk where
  files : List (Place × List UInt8)
  directories : List Place
  deriving Inhabited

inductive DiskEntry where
  | missing
  | file (content : List UInt8)
  | directory
  deriving DecidableEq, Repr, Inhabited

inductive DiskCause where
  | missing
  | isDirectory
  | notDirectory
  deriving DecidableEq, Repr, Inhabited

def DiskCause.message : DiskCause → String
  | missing => "no such file or directory"
  | isDirectory => "is a directory"
  | notDirectory => "not a directory"

structure DiskFault where
  action : String
  path : String
  cause : DiskCause
  deriving DecidableEq, Repr, Inhabited

def DiskFault.message (f : DiskFault) : String :=
  f.action ++ " " ++ f.path ++ ": " ++ f.cause.message

namespace Path

def parts (path : String) : List String :=
  (Text.split (· == '/') path.toList).map String.ofList

def isRooted (path : String) : Bool := path.toList.head? == some '/'

/-- The parts of a path with steps to the same directory dropped and steps to the outer one taken as far
as possible. `kept` are the parts so far, last first. -/
def cleanFrom (rooted : Bool) : List String → List String → List String
  | kept, [] => kept.reverse
  | kept, part :: rest =>
    if part == "" || part == "." then cleanFrom rooted kept rest
    else if part == ".." then
      match kept with
      | [] => cleanFrom rooted (if rooted then [] else [".."]) rest
      | ".." :: _ => cleanFrom rooted (".." :: kept) rest
      | _ :: kept => cleanFrom rooted kept rest
    else cleanFrom rooted (part :: kept) rest

def clean (path : String) : String :=
  let rooted := isRooted path
  match rooted, "/".intercalate (cleanFrom rooted [] (parts path)) with
  | true, inner => "/" ++ inner
  | false, "" => "."
  | false, inner => inner

def join (directory name : String) : String := clean (directory ++ "/" ++ name)

def base (path : String) : String :=
  if path.isEmpty then "."
  else
    match Text.trimEnd (· == '/') path.toList with
    | [] => "/"
    | cs => String.ofList (cs.reverse.takeWhile (· != '/')).reverse

/-- The extension of the last part of a path, from its last dot on. -/
def extension (path : String) : String :=
  let last := path.toList.reverse.takeWhile (· != '/')
  match last.span (· != '.') with
  | (_, []) => ""
  | (suffix, dot :: _) => String.ofList (dot :: suffix.reverse)

def stem (path : String) : String :=
  let ending := (extension path).toList
  let name := (base path).toList
  if ending.isSuffixOf name then String.ofList (name.take (name.length - ending.length))
  else String.ofList name

end Path

namespace Disk

def ofFiles (files : List (String × List UInt8)) : Disk :=
  ⟨files.map fun (path, content) => (Path.cleanFrom false [] (Path.parts path), content), []⟩

/-- A place is a directory: it was made, or something is inside it, or it lies outside the working
directory. -/
def isDirectory (d : Disk) (p : Place) : Bool :=
  p.all (fun part => part == ".." || part == "/") || d.directories.contains p ||
    d.files.any fun (q, _) => p.length < q.length && p.isPrefixOf q

def entry (d : Disk) (p : Place) : DiskEntry :=
  match d.files.lookup p with
  | some content => .file content
  | none => if d.isDirectory p then .directory else .missing

def next (p : Place) (part : String) : Place :=
  if part == "" || part == "." then p
  else if part == ".." then
    match p.getLast? with
    | none => [".."]
    | some ".." => p ++ [".."]
    | some "/" => p
    | some _ => p.dropLast
  else p ++ [part]

def follow (d : Disk) : Place → List String → Except DiskCause Place
  | p, [] => .ok p
  | p, part :: rest =>
    match d.entry p with
    | .missing => .error .missing
    | .file _ => .error .notDirectory
    | .directory => d.follow (next p part) rest

def origin (path : String) : Place := if Path.isRooted path then ["/"] else []

def locate (d : Disk) (path : String) : Except DiskCause Place :=
  if path.isEmpty then .error .missing else d.follow (origin path) (Path.parts path)

/-- The place of a file to write. A path that ends in a slash can only name a directory. -/
def target (d : Disk) (path : String) : Except DiskCause Place :=
  let parts := Path.parts path
  if 1 < parts.length && parts.getLast? == some "" then do
    let _ ← d.follow (origin path) (parts.dropLast.dropLast ++ ["."])
    throw .isDirectory
  else d.locate path

def read (d : Disk) (path : String) : Except DiskFault (List UInt8) :=
  match d.locate path with
  | .error cause => .error ⟨"open", path, cause⟩
  | .ok p =>
    match d.entry p with
    | .missing => .error ⟨"open", path, .missing⟩
    | .directory => .error ⟨"read", path, .isDirectory⟩
    | .file content => .ok content

def put (d : Disk) (p : Place) (content : List UInt8) : Disk :=
  { d with files := (p, content) :: d.files.filter fun (q, _) => q != p }

def write (d : Disk) (path : String) (content : List UInt8) : Except DiskFault Disk :=
  match d.target path with
  | .error cause => .error ⟨"open", path, cause⟩
  | .ok p =>
    match d.entry p with
    | .directory => .error ⟨"open", path, .isDirectory⟩
    | _ => .ok (d.put p content)

/-- Writes files in order, up to the first one that is refused. -/
def writeAll (d : Disk) : List (String × List UInt8) → Disk × Option DiskFault
  | [] => (d, none)
  | (path, content) :: rest =>
    match d.write path content with
    | .error f => (d, some f)
    | .ok d => d.writeAll rest

/-- The paths that lead to a path, outermost first, and the path itself. -/
def ancestors (path : String) : List String :=
  let parts := Path.parts path
  ((List.range parts.length).map fun i => "/".intercalate (parts.take (i + 1))).filter (!·.isEmpty)

def makeDirectory (d : Disk) (path : String) : Except DiskFault Disk :=
  match d.locate path with
  | .error cause => .error ⟨"mkdir", path, cause⟩
  | .ok p =>
    match d.entry p with
    | .directory => .ok d
    | .file _ => .error ⟨"mkdir", path, .notDirectory⟩
    | .missing => .ok { d with directories := p :: d.directories }

def makeDirectories (d : Disk) (path : String) : Except DiskFault Disk :=
  (ancestors path).foldlM makeDirectory d

end Disk

end WatScript
