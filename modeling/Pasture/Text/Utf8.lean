import Pasture.Text.Quoted

/-! # Faults of UTF-8

Where bytes stop being UTF-8 and why. A fault covers the bytes from the start of the broken
character up to the first that cannot belong to it, or a single byte that starts no character.
-/
namespace Pasture.Text.Utf8

inductive Reason where
  | start | continuation | truncated
  deriving DecidableEq, Repr

def Reason.text : Reason → String
  | start => "invalid start byte"
  | continuation => "invalid continuation byte"
  | truncated => "unexpected end of data"

structure Fault where
  position : Nat
  bytes : List UInt8
  reason : Reason
  deriving DecidableEq, Repr

/-- The ranges of the bytes that may follow a first byte, or `none` if it starts no character. -/
def follow? (b : UInt8) : Option (List (UInt8 × UInt8)) :=
  let tail : UInt8 × UInt8 := (0x80, 0xBF)
  if b < 0x80 then some []
  else if b < 0xC2 then none
  else if b < 0xE0 then some [tail]
  else if b = 0xE0 then some [(0xA0, 0xBF), tail]
  else if b = 0xED then some [(0x80, 0x9F), tail]
  else if b < 0xF0 then some [tail, tail]
  else if b = 0xF0 then some [(0x90, 0xBF), tail, tail]
  else if b < 0xF4 then some [tail, tail, tail]
  else if b = 0xF4 then some [(0x80, 0x8F), tail, tail]
  else none

/-- The first fault, if any. `read` holds the bytes of the character that is open, the last first,
and `wanted` the ranges of those that have to follow. -/
def faultFrom (position : Nat) (read : List UInt8) :
    List (UInt8 × UInt8) → List UInt8 → Option Fault
  | [], [] => none
  | _ :: _, [] => some ⟨position, read.reverse, .truncated⟩
  | (low, high) :: wanted, b :: bs =>
    if low ≤ b && b ≤ high then faultFrom position (b :: read) wanted bs
    else some ⟨position, read.reverse, .continuation⟩
  | [], b :: bs =>
    let here := position + read.length
    match follow? b with
    | some wanted => faultFrom here [b] wanted bs
    | none => some ⟨here, [b], .start⟩

def fault? (bytes : ByteArray) : Option Fault := faultFrom 0 [] [] bytes.toList

def Fault.message (f : Fault) : String :=
  let place := match f.bytes with
    | [b] => "byte 0x" ++ String.ofList (Quoted.hex 2 b.toNat) ++ " in position " ++
      toString f.position
    | bytes => "bytes in position " ++ toString f.position ++ "-" ++
      toString (f.position + bytes.length - 1)
  "'utf-8' codec can't decode " ++ place ++ ": " ++ f.reason.text

end Pasture.Text.Utf8
