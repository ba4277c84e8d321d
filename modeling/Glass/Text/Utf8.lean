/-!
Reading bytes as UTF-8, strictly: overlong forms, surrogates and code points past the last one are
refused. A refusal names the bytes that were read for the character and tells what came instead.
-/

namespace Glass

inductive EncodingFault where
  | badStart | badContinuation | truncated
  deriving DecidableEq, Repr

def EncodingFault.reason : EncodingFault → String
  | .badStart => "invalid start byte"
  | .badContinuation => "invalid continuation byte"
  | .truncated => "unexpected end of data"

structure EncodingError where
  fault : EncodingFault
  /-- Where the bytes of the character start. -/
  start : Nat
  /-- The bytes read for the character. -/
  bytes : List UInt8
  deriving DecidableEq, Repr

def EncodingError.message (e : EncodingError) : String :=
  let place :=
    match e.bytes with
    | [b] =>
        let digits := String.ofList [(b.toNat / 16).digitChar, (b.toNat % 16).digitChar]
        s!"byte 0x{digits} in position {e.start}"
    | bytes => s!"bytes in position {e.start}-{e.start + bytes.length - 1}"
  s!"'utf-8' codec can't decode {place}: {e.fault.reason}"

/-- A character of several bytes of which some are still to come. -/
structure PartialCharacter where
  /-- The bytes read, the last one first. -/
  bytes : List UInt8
  missing : Nat
  /-- The bounds of the next byte. -/
  low : Nat
  high : Nat
  /-- The bits of the code point read so far. -/
  bits : Nat

/-- What the first byte of a character of several bytes calls for. -/
def PartialCharacter.start? (b : UInt8) : Option PartialCharacter :=
  let n := b.toNat
  if 0xc2 ≤ n && n ≤ 0xdf then some ⟨[b], 1, 0x80, 0xbf, n % 0x20⟩
  else if n = 0xe0 then some ⟨[b], 2, 0xa0, 0xbf, n % 0x10⟩
  else if n = 0xed then some ⟨[b], 2, 0x80, 0x9f, n % 0x10⟩
  else if 0xe1 ≤ n && n ≤ 0xef then some ⟨[b], 2, 0x80, 0xbf, n % 0x10⟩
  else if n = 0xf0 then some ⟨[b], 3, 0x90, 0xbf, n % 0x08⟩
  else if 0xf1 ≤ n && n ≤ 0xf3 then some ⟨[b], 3, 0x80, 0xbf, n % 0x08⟩
  else if n = 0xf4 then some ⟨[b], 3, 0x80, 0x8f, n % 0x08⟩
  else none

/-- Read on at the offset `position`, inside a character or between two. -/
def decodeUtf8From (position : Nat) :
    (unfinished : Option PartialCharacter) → (bytes : List UInt8) →
      Except EncodingError (List Char)
  | none, [] => .ok []
  | some p, [] => .error ⟨.truncated, position - p.bytes.length, p.bytes.reverse⟩
  | none, b :: rest =>
      if b.toNat < 0x80 then
        (decodeUtf8From (position + 1) none rest).map (Char.ofNat b.toNat :: ·)
      else
        match PartialCharacter.start? b with
        | none => .error ⟨.badStart, position, [b]⟩
        | some p => decodeUtf8From (position + 1) (some p) rest
  | some p, b :: rest =>
      if p.low ≤ b.toNat && b.toNat ≤ p.high then
        let bits := p.bits * 0x40 + b.toNat % 0x40
        if p.missing ≤ 1 then
          (decodeUtf8From (position + 1) none rest).map (Char.ofNat bits :: ·)
        else
          decodeUtf8From (position + 1) (some ⟨b :: p.bytes, p.missing - 1, 0x80, 0xbf, bits⟩) rest
      else .error ⟨.badContinuation, position - p.bytes.length, p.bytes.reverse⟩

def decodeUtf8 (bytes : List UInt8) : Except EncodingError (List Char) :=
  decodeUtf8From 0 none bytes

/-- Every line end, written as CR, CR LF or LF, as a line feed. -/
def unifyLineEnds : List Char → List Char
  | [] => []
  | '\r' :: '\n' :: rest => '\n' :: unifyLineEnds rest
  | '\r' :: rest => '\n' :: unifyLineEnds rest
  | c :: rest => c :: unifyLineEnds rest

end Glass
