/-!
# Lenient UTF-8

Bytes of a foreign text. Every longest beginning of a character that is not one becomes a replacement
character.
-/

namespace Backfill.Text

/-- A character that was begun: its bits so far, the bytes that are missing, and the bounds of the next. -/
structure Begun where
  bits : Nat
  missing : Nat
  least : Nat := 0x80
  most : Nat := 0xBF

def replacement : Char := '\uFFFD'

/-- What a byte at the start of a character stands for. -/
def leadByte (b : Nat) : Char ⊕ Begun :=
  if b < 0x80 then .inl (Char.ofNat b)
  else if b < 0xC2 then .inl replacement
  else if b < 0xE0 then .inr { bits := b - 0xC0, missing := 1 }
  else if b = 0xE0 then .inr { bits := 0, missing := 2, least := 0xA0 }
  else if b = 0xED then .inr { bits := 0xD, missing := 2, most := 0x9F }
  else if b < 0xF0 then .inr { bits := b - 0xE0, missing := 2 }
  else if b = 0xF0 then .inr { bits := 0, missing := 3, least := 0x90 }
  else if b = 0xF4 then .inr { bits := 4, missing := 3, most := 0x8F }
  else if b < 0xF4 then .inr { bits := b - 0xF0, missing := 3 }
  else .inl replacement

/-- The state after a byte that begins a character, and what is known then. -/
def startChar (b : Nat) : Option Begun × List Char :=
  match leadByte b with
  | .inl c => (none, [c])
  | .inr begun => (some begun, [])

/-- The state after a byte, and the characters that are known then. -/
def nextByte (begun : Option Begun) (b : Nat) : Option Begun × List Char :=
  match begun with
  | none => startChar b
  | some p =>
    if b < p.least ∨ p.most < b then
      let (state, cs) := startChar b
      (state, replacement :: cs)
    else
      let bits := p.bits * 64 + (b - 0x80)
      if p.missing = 1 then (none, [Char.ofNat bits]) else (some { bits, missing := p.missing - 1 }, [])

def lenientFrom (begun : Option Begun) : List UInt8 → List Char
  | [] => if begun.isSome then [replacement] else []
  | b :: rest =>
    let (state, cs) := nextByte begun b.toNat
    cs ++ lenientFrom state rest

/-- The text of some bytes, without a byte order mark. -/
def lenient (bytes : List UInt8) : String :=
  match bytes with
  | 0xEF :: 0xBB :: 0xBF :: rest => String.ofList (lenientFrom none rest)
  | _ => String.ofList (lenientFrom none bytes)

end Backfill.Text
