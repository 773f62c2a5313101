import WatScript.Engine.Basic
import WatScript.Wat.Read

/-!
# Reports

What a remote caller is told about a compilation or a run: a record of plain values, in which a failure
is a kind and a text.
-/

namespace WatScript

structure CompileReport where
  hash : String
  wat : String
  module : String
  locals : List String
  calls : List String
  success : Bool
  kind : String
  error : String
  deriving DecidableEq, Repr, Inhabited

structure RunReport where
  value : Int32
  steps : Nat
  logs : List Int32
  success : Bool
  kind : String
  error : String
  deriving Repr, Inhabited

/-- The report of a compilation that failed, possibly after it had a text. -/
def CompileReport.failed (hash wat : String) (f : EngineFault) : CompileReport :=
  ⟨hash, wat, "", [], [], false, f.diagnostic.kind.name, f.diagnostic.text⟩

/-- The kind of a trap in a report; cancellation counts as a trap like others. -/
def Trap.reportKind : Trap → Kind
  | .canceled => .runtime
  | t => t.kind

def RunReport.failed (steps : Nat) (logs : List Int32) (kind : Kind) (error : String) : RunReport :=
  ⟨0, steps, logs, false, kind.name, error⟩

namespace Engine

def reportCompile (e : Engine) (source : Text) : Engine × CompileReport :=
  match e.compile false source with
  | (e, .error f) => (e, .failed "" "" f)
  | (e, .ok p) =>
    match e.module p with
    | .error f => (e, .failed p.key.hex p.wat f)
    | .ok m => (e, ⟨p.key.hex, p.wat, m.text, m.locals, p.symbols.calls, true, "", ""⟩)

def reportRun (e : Engine) (source : Text) (canceled : Bool) (args : List Int32) :
    Engine × RunReport :=
  match e.compile false source with
  | (e, .error f) => (e, .failed 0 [] f.diagnostic.kind f.diagnostic.text)
  | (e, .ok p) =>
    match e.run p canceled args with
    | .error f => (e, .failed 0 [] f.diagnostic.kind f.diagnostic.text)
    | .ok x =>
      match x.trap with
      | some t => (e, .failed x.steps x.logs t.reportKind t.message)
      | none => (e, ⟨x.value, x.steps, x.logs, true, "", ""⟩)

def reformat (text : Text) : Except WatFault Text := (readCode text).map formatCode

end Engine

end WatScript
