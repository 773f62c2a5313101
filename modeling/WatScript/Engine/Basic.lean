import WatScript.Engine.AdaptiveCache
import WatScript.Engine.Library
import WatScript.Engine.Program
import WatScript.Engine.Store

/-!
# Engines

An engine compiles source texts to programs and runs them. It keeps programs in a cache, their texts in
another one and possibly in a store, and counts how often each of them had what was asked for.
-/

namespace WatScript

structure Stats where
  program : Nat
  text : Nat
  disk : Nat
  misses : Nat
  deriving DecidableEq, Repr, Inhabited

structure Engine where
  config : Config
  programs : AdaptiveCache Digest Program
  texts : TextTable
  store : Option Store
  hosts : HostTable
  stats : Stats

/-- What a run shows. A run that traps has one too, with value zero. -/
structure Execution where
  value : Int32
  steps : Nat
  logs : List Int32
  trap : Option Trap
  deriving Repr, Inhabited

namespace Engine

def version : String := "0.1.0"

def entryName : String := "main"

def entryParams : List String := ["a", "b"]

def importScope : String := "env"

def create (config : Config) (store : Option Store) : Engine :=
  let config := config.effective
  { config, store
    programs := .empty config.cacheSize.toNat
    texts := []
    hosts := [("log", logHost)]
    stats := ⟨0, 0, 0, 0⟩ }

def register (e : Engine) (name : String) (h : HostEntry) : Engine :=
  { e with hosts := e.hosts.register name h }

def withLibrary (e : Engine) : Engine := { e with hosts := Library.register e.hosts }

def keep (e : Engine) (p : Program) : Engine :=
  { e with
    programs := e.programs.add p.key p
    texts := e.texts.put p.key p.wat
    store := e.store.map (·.put p.key p.wat) }

/-- Compiles a source text in normal form, unless its program is in the cache. -/
def compileNormal (e : Engine) (isExpr : Bool) (source : Text) :
    Engine × Except EngineFault Program :=
  match e.programs.get? (Program.keyOf e.config.maxDepth isExpr source) with
  | (programs, some p) =>
    ({ e with programs, stats := { e.stats with program := e.stats.program + 1 } }, .ok p)
  | (programs, none) =>
    let e := { e with programs, stats := { e.stats with misses := e.stats.misses + 1 } }
    match Program.build e.config isExpr source with
    | .error f => (e, .error f)
    | .ok p => (e.keep p, .ok p)

def compile (e : Engine) (isExpr : Bool) (source : Text) : Engine × Except EngineFault Program :=
  e.compileNormal isExpr source.normalize

/-- The cached text under a key; an empty one counts as absent. -/
def cachedText? (e : Engine) (key : Digest) : Option String :=
  (e.texts.get? key).filter (!·.isEmpty)

/-- The instruction text of statements, from wherever it is known. -/
def wat (e : Engine) (source : Text) : Engine × Except EngineFault String :=
  let source := source.normalize
  let key := Program.keyOf e.config.maxDepth false source
  match e.cachedText? key with
  | some text => ({ e with stats := { e.stats with text := e.stats.text + 1 } }, .ok text)
  | none =>
    match e.store.bind (·.get? key) with
    | some text =>
      ({ e with
          texts := e.texts.put key text
          stats := { e.stats with disk := e.stats.disk + 1 } }, .ok text)
    | none =>
      let (e, result) := e.compileNormal false source
      (e, result.map Program.wat)

def importsOf (hosts : HostTable) : List String → Except EngineFault (List (Import × HostEntry))
  | [] => .ok []
  | name :: rest =>
    match hosts.lookup name with
    | none => .error (.unknownHost name)
    | some h => do
      let imports ← importsOf hosts rest
      return (⟨importScope, name, h.params, h.results⟩, h) :: imports

def hasResult (p : Program) (imports : List (Import × HostEntry)) : Bool :=
  match imports.find? fun (i, _) => p.tailCall == some i.name with
  | some (i, _) => 0 < i.results
  | none => p.yields

/-- The module of a program, with the hosts behind its imports. -/
def link (e : Engine) (p : Program) : Except EngineFault (Module × List (String × Host)) := do
  let imports ← importsOf e.hosts p.symbols.calls
  return ({
    func := entryName
    params := entryParams
    result := hasResult p imports
    locals := p.symbols.localsExcept entryParams
    imports := imports.map (·.1)
    pages := if p.symbols.usesMemory then e.config.memoryPages else 0
    body := p.code }, imports.map fun (i, h) => (i.name, h.call))

def module (e : Engine) (p : Program) : Except EngineFault Module := (e.link p).map (·.1)

/-- Runs a program. Missing arguments are zero. Fails only if nothing ran. -/
def run (e : Engine) (p : Program) (canceled : Bool) (args : List Int32) :
    Except EngineFault Execution := do
  if entryParams.length < args.length then throw .tooManyArguments
  let (m, hosts) ← e.link p
  let x ← (Instance.create m hosts e.config.stepLimit 0).mapError .running
  let full := args ++ List.replicate (entryParams.length - args.length) 0
  let (x, r) := x.run canceled full
  return match r.result with
    | .ok value => ⟨value, x.steps, r.logs, none⟩
    | .error t => ⟨0, x.steps, r.logs, some t⟩

def close (e : Engine) : Engine × Option Diagnostic :=
  let e := { e with texts := [], programs := e.programs.clear }
  match e.store with
  | none => (e, none)
  | some s =>
    let (s, failure) := s.close
    ({ e with store := some s }, failure)

end Engine

end WatScript
