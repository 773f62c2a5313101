import WatScript.Fault.Running

/-!
# Linear memory

A byte array with unsigned 32 bit addresses and little-endian words. An access succeeds if all its
bytes, counted from the address without wrapping around, lie inside the memory; a refused access
changes nothing.
-/

namespace WatScript

def pageSize : Nat := 65536

def defaultMaxPages : Int := 16

structure Memory where
  bytes : Array UInt8
  deriving DecidableEq, Repr, Inhabited

namespace Memory

def empty : Memory := ⟨#[]⟩

/-- The bytes of so many pages, counted in 64 bits: a count that does not fit wraps around. -/
def byteCount (pages : Int) : Nat := (Int64.ofInt pages * Int64.ofNat pageSize).toInt.toNat

/-- A zeroed memory of `pages` pages, at most `maxPages`; a `maxPages` of zero means the default. -/
def create (pages maxPages : Int) : Except Trap Memory :=
  let bound := if maxPages == 0 then defaultMaxPages else maxPages
  if pages < 0 || bound < pages then .error .outOfMemory
  else .ok ⟨Array.replicate (byteCount pages) 0⟩

def size (m : Memory) : Nat := m.bytes.size

def pages (m : Memory) : Nat := m.size / pageSize

def position (addr : Int32) : Nat := addr.toUInt32.toNat

def byteAt (m : Memory) (i : Nat) : UInt8 := m.bytes.getD i 0

def load (m : Memory) (addr : Int32) : Except Trap Int32 :=
  let i := position addr
  if i + 4 ≤ m.size then
    let w := (m.byteAt i).toUInt32 ||| ((m.byteAt (i + 1)).toUInt32 <<< 8) |||
      ((m.byteAt (i + 2)).toUInt32 <<< 16) ||| ((m.byteAt (i + 3)).toUInt32 <<< 24)
    .ok w.toInt32
  else .error .invalidAddress

/-- The memory with the four bytes of a word from position `i` on. -/
def putWord (m : Memory) (i : Nat) (w : UInt32) : Memory :=
  ⟨(((m.bytes.setIfInBounds i w.toUInt8).setIfInBounds (i + 1) (w >>> 8).toUInt8).setIfInBounds
    (i + 2) (w >>> 16).toUInt8).setIfInBounds (i + 3) (w >>> 24).toUInt8⟩

def store (m : Memory) (addr v : Int32) : Except Trap Memory :=
  let i := position addr
  if i + 4 ≤ m.size then .ok (m.putWord i v.toUInt32) else .error .invalidAddress

def read (m : Memory) (addr : Int32) (n : Int) : Except Trap (List UInt8) :=
  let i := position addr
  if n < 0 || m.size < i + n.toNat then .error .invalidAddress
  else .ok ((m.bytes.extract i (i + n.toNat)).toList)

def reset (m : Memory) : Memory := ⟨Array.replicate m.size 0⟩

end Memory

end WatScript
