/-!
# Text with stray bytes

Source text arrives as bytes. Well-formed UTF-8 sequences are characters; every byte that belongs to
no well-formed sequence stays a glyph of its own. Keeping stray bytes apart from characters lets the
digest of a text see the bytes, while reading it sees the replacement character.

* `Text.decode` reads bytes, `Text.encode` writes them back.
* `Text.toChars` is the text as it is read: one replacement character per stray byte.
-/

namespace WatScript

/-- One unit of text: a character, or a byte outside every well-formed UTF-8 sequence. -/
inductive Glyph where
  | char (c : Char)
  | stray (b : UInt8)
  deriving DecidableEq, Repr, Inhabited

abbrev Text := List Glyph

namespace Glyph

/-- The character U+FFFD, which stands for whatever is not a character. -/
def replacement : Char := '�'

def toChar : Glyph → Char
  | char c => c
  | stray _ => replacement

def char? : Glyph → Option Char
  | char c => some c
  | stray _ => none

def encode : Glyph → List UInt8
  | char c => String.utf8EncodeChar c
  | stray b => [b]

end Glyph

namespace Text

def ofString (s : String) : Text := s.toList.map .char

def toChars (t : Text) : List Char := t.map Glyph.toChar

def toString (t : Text) : String := String.ofList t.toChars

def string? (t : Text) : Option String :=
  (t.mapM Glyph.char?).map String.ofList

def encode (t : Text) : List UInt8 := t.flatMap Glyph.encode

def between (lo hi b : UInt8) : Bool := lo ≤ b && b ≤ hi

def continues (b : UInt8) : Bool := between 0x80 0xBF b

def payload (b : UInt8) : Nat := b.toNat % 64

/-- The least and greatest second byte that a three or four byte sequence may have after `b`.
Overlong forms, surrogates and code points above U+10FFFF are cut off here. -/
def secondByteBounds (b : UInt8) : UInt8 × UInt8 :=
  if b = 0xE0 then (0xA0, 0xBF)
  else if b = 0xED then (0x80, 0x9F)
  else if b = 0xF0 then (0x90, 0xBF)
  else if b = 0xF4 then (0x80, 0x8F)
  else (0x80, 0xBF)

/-- The well-formed sequence at the head of `bytes`: its character and its length. -/
def sequence? : List UInt8 → Option (Char × Nat)
  | [] => none
  | b :: rest =>
    if b < 0x80 then some (Char.ofNat b.toNat, 1)
    else
      let (lo, hi) := secondByteBounds b
      match rest with
      | b₁ :: rest₁ =>
        if between 0xC2 0xDF b then
          if continues b₁ then some (Char.ofNat ((b.toNat % 32) * 64 + payload b₁), 2) else none
        else if between 0xE0 0xEF b then
          match rest₁ with
          | b₂ :: _ =>
            if between lo hi b₁ && continues b₂ then
              some (Char.ofNat ((b.toNat % 16) * 4096 + payload b₁ * 64 + payload b₂), 3)
            else none
          | [] => none
        else if between 0xF0 0xF4 b then
          match rest₁ with
          | b₂ :: b₃ :: _ =>
            if between lo hi b₁ && continues b₂ && continues b₃ then
              some (Char.ofNat
                ((b.toNat % 8) * 262144 + payload b₁ * 4096 + payload b₂ * 64 + payload b₃), 4)
            else none
          | _ => none
        else none
      | [] => none

/-- Reads bytes from left to right, with `skip` bytes already read by the last character. -/
def decodeFrom : Nat → List UInt8 → Text
  | _, [] => []
  | skip + 1, _ :: rest => decodeFrom skip rest
  | 0, b :: rest =>
    match sequence? (b :: rest) with
    | some (c, n) => .char c :: decodeFrom (n - 1) rest
    | none => .stray b :: decodeFrom 0 rest

def decode (bytes : List UInt8) : Text := decodeFrom 0 bytes

end Text

end WatScript
