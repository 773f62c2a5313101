import WatScript.Text.Quoted

/-!
# Digests

The 256 bit Keccak digest of a byte sequence: a sponge of 25 lanes of 64 bits, 136 bytes of which take
up input, with the padding that starts with a single one bit.
-/

namespace WatScript

structure Digest where
  bytes : List UInt8
  deriving DecidableEq, Repr, Inhabited

namespace Digest

def hexBytes (bytes : List UInt8) : String :=
  String.ofList (bytes.flatMap fun b => Text.hexDigits 2 b.toNat)

def hex (d : Digest) : String := "0x" ++ hexBytes d.bytes

def short (d : Digest) : String :=
  hexBytes (d.bytes.take 3) ++ ".." ++ hexBytes (d.bytes.drop 29)

/-! ## The permutation -/

/-- The state of the sponge: the lane in column `x` and row `y` is at `x + 5 * y`. -/
abbrev Lanes := Array UInt64

def lane (s : Lanes) (x y : Nat) : UInt64 := s.getD (x % 5 + 5 * (y % 5)) 0

def ofLanes (f : Nat → Nat → UInt64) : Lanes :=
  Array.ofFn fun i : Fin 25 => f (i.val % 5) (i.val / 5)

def rotate (w : UInt64) (n : UInt64) : UInt64 := (w <<< n) ||| (w >>> (64 - n))

def rotations : Lanes :=
  #[0, 1, 62, 28, 27, 36, 44, 6, 55, 20, 3, 10, 43, 25, 39, 41, 45, 15, 21, 8, 18, 2, 61, 56, 14]

def roundConstants : List UInt64 :=
  [0x0000000000000001, 0x0000000000008082, 0x800000000000808A, 0x8000000080008000,
   0x000000000000808B, 0x0000000080000001, 0x8000000080008081, 0x8000000000008009,
   0x000000000000008A, 0x0000000000000088, 0x0000000080008009, 0x000000008000000A,
   0x000000008000808B, 0x800000000000008B, 0x8000000000008089, 0x8000000000008003,
   0x8000000000008002, 0x8000000000000080, 0x000000000000800A, 0x800000008000000A,
   0x8000000080008081, 0x8000000000008080, 0x0000000080000001, 0x8000000080008008]

def parity (s : Lanes) (x : Nat) : UInt64 :=
  lane s x 0 ^^^ lane s x 1 ^^^ lane s x 2 ^^^ lane s x 3 ^^^ lane s x 4

/-- Adds to each lane the parities of the two neighbouring columns. -/
def diffuse (s : Lanes) : Lanes :=
  let parities := Array.ofFn fun x : Fin 5 => parity s x.val
  let column := fun x => parities.getD (x % 5) 0
  ofLanes fun x y => lane s x y ^^^ column (x + 4) ^^^ rotate (column (x + 1)) 1

def disperse (s : Lanes) : Lanes :=
  ofLanes fun x y => rotate (lane s (x + 3 * y) x) (lane rotations (x + 3 * y) x)

def mixRows (s : Lanes) : Lanes :=
  ofLanes fun x y => lane s x y ^^^ (~~~lane s (x + 1) y &&& lane s (x + 2) y)

def round (s : Lanes) (c : UInt64) : Lanes :=
  (mixRows (disperse (diffuse s))).modify 0 (· ^^^ c)

def permute (s : Lanes) : Lanes := roundConstants.foldl round s

/-! ## The sponge -/

def rate : Nat := 136

def padding (length : Nat) : List UInt8 :=
  match rate - length % rate with
  | 0 => []
  | 1 => [0x81]
  | n + 2 => 0x01 :: List.replicate n 0 ++ [0x80]

def laneOfBytes (bytes : List UInt8) : UInt64 :=
  bytes.foldr (fun b w => (w <<< 8) ||| b.toUInt64) 0

def parts {α : Type} (length : Nat) : Nat → List α → List (List α)
  | 0, _ => []
  | n + 1, xs => xs.take length :: parts length n (xs.drop length)

def absorb (s : Lanes) (block : List UInt8) : Lanes :=
  let words := ((parts 8 (rate / 8) block).map laneOfBytes).toArray
  permute (ofLanes fun x y => lane s x y ^^^ words.getD (x + 5 * y) 0)

def bytesOfLane (w : UInt64) : List UInt8 :=
  (List.range 8).map fun i => (w >>> (8 * i).toUInt64).toUInt8

def ofBytes (bytes : List UInt8) : Digest :=
  let padded := bytes ++ padding bytes.length
  let s := (parts rate (padded.length / rate) padded).foldl absorb (Array.replicate 25 0)
  ⟨((s.toList.take 4).flatMap bytesOfLane)⟩

end Digest

end WatScript
