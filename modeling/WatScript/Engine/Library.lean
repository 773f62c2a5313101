import WatScript.Digest
import WatScript.Machine.Host

/-!
# Hosts and the standard library

A host entry is a host with the number of its parameters and results. The standard library has one
result for every function and no effect besides.
-/

namespace WatScript

structure HostEntry where
  params : Int
  results : Int
  call : Host

abbrev HostTable := List (String × HostEntry)

/-- The table with an entry under a name, replacing an earlier one. -/
def HostTable.register (t : HostTable) (name : String) (h : HostEntry) : HostTable :=
  (name, h) :: t.filter (·.1 != name)

namespace Library

def negativeExponent : Diagnostic := ⟨.runtime, "stdlib: negative exponent"⟩

def abs (v : Int32) : Int32 := if v < 0 then -v else v

def minimum (a b : Int32) : Int32 := if b < a then b else a

def maximum (a b : Int32) : Int32 := if a < b then b else a

/-- `result` times the `n`th power of `base`, by repeated squaring. -/
def powFrom (result base : Int32) (n : Nat) : Int32 :=
  if n = 0 then result
  else powFrom (if n % 2 = 1 then result * base else result) (base * base) (n / 2)
termination_by n
decreasing_by omega

def pow (base exponent : Int32) : Except Diagnostic Int32 :=
  if exponent < 0 then .error negativeExponent else .ok (powFrom 1 base exponent.toInt.toNat)

/-- The value, moved into bounds; the lower bound is looked at first. -/
def clamp (v lo hi : Int32) : Int32 := if v < lo then lo else if hi < v then hi else v

def sign (v : Int32) : Int32 := if 0 < v then 1 else if v < 0 then -1 else 0

def bytesOf (v : Int32) : List UInt8 :=
  let w := v.toUInt32
  [w.toUInt8, (w >>> 8).toUInt8, (w >>> 16).toUInt8, (w >>> 24).toUInt8]

def ofBytes (bytes : List UInt8) : Int32 :=
  (bytes.foldr (fun b (w : UInt32) => (w <<< 8) ||| b.toUInt32) 0).toInt32

def hash (v : Int32) : Int32 := ofBytes ((Digest.ofBytes (bytesOf v)).bytes.take 4)

def host1 (f : Int32 → Int32) : Host := .ofFunction fun
  | [a] => .ok [f a]
  | _ => .ok []

def host2 (f : Int32 → Int32 → Except Diagnostic Int32) : Host := .ofFunction fun
  | [a, b] => return [← f a b]
  | _ => .ok []

def host3 (f : Int32 → Int32 → Int32 → Int32) : Host := .ofFunction fun
  | [a, b, c] => .ok [f a b c]
  | _ => .ok []

def functions : HostTable := [
  ("abs", ⟨1, 1, host1 abs⟩),
  ("clamp", ⟨3, 1, host3 clamp⟩),
  ("hash", ⟨1, 1, host1 hash⟩),
  ("max", ⟨2, 1, host2 fun a b => .ok (maximum a b)⟩),
  ("min", ⟨2, 1, host2 fun a b => .ok (minimum a b)⟩),
  ("pow", ⟨2, 1, host2 pow⟩),
  ("sign", ⟨1, 1, host1 sign⟩)]

def names : List String := functions.map (·.1)

def register (t : HostTable) : HostTable :=
  functions.foldl (fun t (name, h) => t.register name h) t

end Library

def logHost : HostEntry := ⟨1, 0, fun history args => ⟨.ok [], args.take 1 ++ history.logs, false⟩⟩

end WatScript
