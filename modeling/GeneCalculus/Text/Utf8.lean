import GeneCalculus.Text.Front

/-!
Reading UTF-8. Malformed bytes are refused with the place and the length of the first fault.
-/

namespace GeneCalculus.Text.Utf8

/-- Where well-formed text ends: an ill-formed sequence of `width` bytes starts at `start`, or the
input ends inside the sequence that starts there. -/
inductive Fault
  | illFormed (width start : Nat)
  | cutShort (start : Nat)
  deriving DecidableEq

def Fault.message : Fault → String
  | .illFormed width start => s!"invalid utf-8 sequence of {width} bytes from index {start}"
  | .cutShort start => s!"incomplete utf-8 byte sequence from index {start}"

/-- Number of continuation bytes after a first byte, its payload, and the range of the second byte;
nothing for a byte that starts no sequence. -/
def lead? (b : UInt8) : Option (Nat × Nat × UInt8 × UInt8) :=
  if b < 0x80 then some (0, b.toNat, 0x80, 0xbf)
  else if b < 0xc2 then none
  else if b < 0xe0 then some (1, b.toNat - 0xc0, 0x80, 0xbf)
  else if b = 0xe0 then some (2, 0, 0xa0, 0xbf)
  else if b = 0xed then some (2, 0xd, 0x80, 0x9f)
  else if b < 0xf0 then some (2, b.toNat - 0xe0, 0x80, 0xbf)
  else if b = 0xf0 then some (3, 0, 0x90, 0xbf)
  else if b < 0xf4 then some (3, b.toNat - 0xf0, 0x80, 0xbf)
  else if b = 0xf4 then some (3, 4, 0x80, 0x8f)
  else none

/-- Takes `n` continuation bytes onto the payload `acc`. On failure it says how many were taken and
whether the input had ended. -/
def continuation (n taken acc : Nat) (low high : UInt8) (bs : List UInt8) :
    Except (Nat × Bool) (Front Nat bs) :=
  match n, bs with
  | 0, bs => .ok (.whole acc bs)
  | _ + 1, [] => .error (taken, true)
  | n + 1, b :: rest =>
    if low ≤ b ∧ b ≤ high then
      match continuation n (taken + 1) (acc * 64 + (b.toNat - 0x80)) 0x80 0xbf rest with
      | .ok (code, ⟨rest', h⟩) => .ok (code, ⟨rest', by simp only [List.length_cons]; omega⟩)
      | .error e => .error e
    else .error (taken, false)

/-- The characters of well-formed bytes, the first of which stands at `start`. -/
def decodeFrom (start : Nat) : List UInt8 → Except Fault (List Char)
  | [] => .ok []
  | b :: rest =>
    match lead? b with
    | none => .error (.illFormed 1 start)
    | some (n, payload, low, high) =>
      match continuation n 0 payload low high rest with
      | .error (_, true) => .error (.cutShort start)
      | .error (taken, false) => .error (.illFormed (taken + 1) start)
      | .ok (code, ⟨rest', _⟩) => do
        return Char.ofNat code :: (← decodeFrom (start + n + 1) rest')
  termination_by bs => bs.length

/-- The text that `bs` encodes. -/
def decode (bs : List UInt8) : Except Fault String := (decodeFrom 0 bs).map String.ofList

/-- The bytes of a text. -/
def encode (s : String) : List UInt8 := s.toList.flatMap String.utf8EncodeChar

end GeneCalculus.Text.Utf8
