import WatScript.Text.Glyph

/-!
# Instructions

The subset of WebAssembly text that generated code uses: flat instructions on 32 bit integers with an
optional immediate, which is a label, a name or a constant.
-/

namespace WatScript

inductive BinOp where
  | eq
  | ne
  | lt
  | gt
  | le
  | ge
  | add
  | sub
  | mul
  | div
  | rem
  | and
  | or
  | xor
  deriving DecidableEq, Repr, Inhabited

inductive Op where
  | nop
  | unreachable
  | block
  | loop
  | ifThen
  | elseArm
  | endFrame
  | br
  | brIf
  | ret
  | call
  | drop
  | localGet
  | localSet
  | localTee
  | load
  | store
  | const
  | eqz
  | binary (op : BinOp)
  | unlisted (code : Nat)
  deriving DecidableEq, Repr, Inhabited

namespace Op

def listed : List Op := [
  nop, unreachable, block, loop, ifThen, elseArm, endFrame, br, brIf, ret, call, drop, localGet,
  localSet, localTee, load, store, const, eqz, binary .eq, binary .ne, binary .lt, binary .gt,
  binary .le, binary .ge, binary .add, binary .sub, binary .mul, binary .div, binary .rem,
  binary .and, binary .or, binary .xor]

def ofCode (code : Nat) : Op := (listed[code]?).getD (unlisted code)

def code (op : Op) : Nat :=
  match op with
  | unlisted n => n
  | op => listed.findIdx (· == op)

def name : Op → String
  | nop => "nop"
  | unreachable => "unreachable"
  | block => "block"
  | loop => "loop"
  | ifThen => "if"
  | elseArm => "else"
  | endFrame => "end"
  | br => "br"
  | brIf => "br_if"
  | ret => "return"
  | call => "call"
  | drop => "drop"
  | localGet => "local.get"
  | localSet => "local.set"
  | localTee => "local.tee"
  | load => "i32.load"
  | store => "i32.store"
  | const => "i32.const"
  | eqz => "i32.eqz"
  | binary .eq => "i32.eq"
  | binary .ne => "i32.ne"
  | binary .lt => "i32.lt_s"
  | binary .gt => "i32.gt_s"
  | binary .le => "i32.le_s"
  | binary .ge => "i32.ge_s"
  | binary .add => "i32.add"
  | binary .sub => "i32.sub"
  | binary .mul => "i32.mul"
  | binary .div => "i32.div_s"
  | binary .rem => "i32.rem_s"
  | binary .and => "i32.and"
  | binary .or => "i32.or"
  | binary .xor => "i32.xor"
  | unlisted n => "op(" ++ toString n ++ ")"

def find? (name : String) : Option Op := listed.find? (·.name == name)

/-- The operation takes an immediate; for blocks and loops it is optional. -/
def takesImmediate : Op → Bool
  | br | brIf | call | localGet | localSet | localTee | const | block | loop => true
  | _ => false

def opensFrame : Op → Bool
  | block | loop | ifThen => true
  | _ => false

end Op

structure Instr where
  op : Op
  imm : Text
  deriving DecidableEq, Repr, Inhabited

namespace Instr

def text (i : Instr) : Text :=
  if i.imm.isEmpty then Text.ofString i.op.name else Text.ofString i.op.name ++ .char ' ' :: i.imm

def plain (op : Op) : Instr := ⟨op, []⟩

def ident (name : String) : Text := .char '$' :: Text.ofString name

def const (v : Int32) : Instr := ⟨.const, .ofString (toString v.toInt)⟩

def localGet (name : String) : Instr := ⟨.localGet, ident name⟩

def localSet (name : String) : Instr := ⟨.localSet, ident name⟩

def call (name : String) : Instr := ⟨.call, ident name⟩

/-- The label of the loop frame that a loop opens, the target of `continue`. -/
def loopLabel (depth : Int64) : Text := ident ("L" ++ toString depth.toInt)

/-- The label of the block frame that a loop opens, the target of `break`. -/
def blockLabel (depth : Int64) : Text := ident ("B" ++ toString depth.toInt)

end Instr

end WatScript
