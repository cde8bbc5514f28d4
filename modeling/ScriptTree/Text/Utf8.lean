import ScriptTree.Text.CodePoint

/-!
# UTF-8

Files hold bytes and the library works on text. `Utf8.decode` reads bytes as characters and, where
they are not well formed, says which bytes are at fault and why: the fault names the shortest run of
bytes that no continuation could repair. `Utf8.encode?` writes text as bytes; a lone surrogate half
has no bytes.
-/

namespace ScriptTree

/-- Contents of a file. -/
abbrev Bytes := List UInt8

namespace Utf8

/-- What is wrong with a run of bytes. -/
inductive Reason where
  | invalidStart
  | invalidContinuation
  | unexpectedEnd
  deriving DecidableEq, Repr

/-- A run of bytes that cannot be read: where it starts, its first byte, its length and the reason. -/
structure Fault where
  position : Nat
  byte : UInt8
  length : Nat
  reason : Reason
  deriving DecidableEq, Repr

def encodeChar (c : Char) : Bytes := String.utf8EncodeChar c

def encodeChars (cs : List Char) : Bytes := cs.flatMap encodeChar

def size (cs : List Char) : Nat := cs.foldl (fun n c => n + c.utf8Size) 0

/-- The bytes of a text, or the position of its first lone surrogate half. -/
def encode? (t : Text) : Except Nat Bytes :=
  match t.chars? with
  | some cs => .ok (encodeChars cs)
  | none => .error (t.takeWhile (·.char?.isSome)).length

/-- Whether a byte continues a character. -/
def isContinuation (b : UInt8) : Bool := 0x80 ≤ b && b < 0xC0

/-- The six bits that a continuation byte carries. -/
def payload (b : UInt8) : Nat := b.toNat % 64

/-- Whether `b` may follow the lead byte `lead`: after some leads only part of the continuation
bytes give a number that needs that many bytes and is no surrogate. -/
def mayFollow (lead b : UInt8) : Bool :=
  isContinuation b
    && (lead != 0xE0 || 0xA0 ≤ b)
    && (lead != 0xED || b < 0xA0)
    && (lead != 0xF0 || 0x90 ≤ b)
    && (lead != 0xF4 || b < 0x90)

/-- The characters that bytes spell, the first byte standing at position `pos`. -/
def decodeFrom (pos : Nat) : Bytes → Except Fault (List Char)
  | [] => .ok []
  | a :: rest =>
    if a < 0x80 then
      (decodeFrom (pos + 1) rest).map (Char.ofNat a.toNat :: ·)
    else if a < 0xC2 || 0xF4 < a then
      .error ⟨pos, a, 1, .invalidStart⟩
    else
      match rest with
      | [] => .error ⟨pos, a, 1, .unexpectedEnd⟩
      | b :: rest =>
        if !mayFollow a b then .error ⟨pos, a, 1, .invalidContinuation⟩
        else if a < 0xE0 then
          (decodeFrom (pos + 2) rest).map (Char.ofNat (a.toNat % 32 * 64 + payload b) :: ·)
        else
          match rest with
          | [] => .error ⟨pos, a, 2, .unexpectedEnd⟩
          | c :: rest =>
            if !isContinuation c then .error ⟨pos, a, 2, .invalidContinuation⟩
            else if a < 0xF0 then
              (decodeFrom (pos + 3) rest).map
                (Char.ofNat (a.toNat % 16 * 4096 + payload b * 64 + payload c) :: ·)
            else
              match rest with
              | [] => .error ⟨pos, a, 3, .unexpectedEnd⟩
              | d :: rest =>
                if !isContinuation d then .error ⟨pos, a, 3, .invalidContinuation⟩
                else
                  (decodeFrom (pos + 4) rest).map
                    (Char.ofNat
                      (a.toNat % 8 * 262144 + payload b * 4096 + payload c * 64 + payload d) :: ·)

def decode (bs : Bytes) : Except Fault (List Char) := decodeFrom 0 bs

/-- Two small hexadecimal digits of a byte. -/
def hexByte (b : UInt8) : Text :=
  let digits := Nat.toDigits 16 b.toNat
  Text.ofChars (List.replicate (2 - digits.length) '0' ++ digits)

def Reason.message : Reason → Text
  | .invalidStart => "invalid start byte"
  | .invalidContinuation => "invalid continuation byte"
  | .unexpectedEnd => "unexpected end of data"

/-- The wording of a fault: one byte is shown, several are counted. -/
def Fault.message (f : Fault) : Text :=
  let which : Text :=
    if f.length = 1 then
      ("byte 0x" : Text) ++ hexByte f.byte ++ (" in position " : Text) ++ Text.ofNat f.position
    else
      ("bytes in position " : Text) ++ Text.ofNat f.position ++ ("-" : Text)
        ++ Text.ofNat (f.position + f.length - 1)
  ("'utf-8' codec can't decode " : Text) ++ which ++ (": " : Text) ++ f.reason.message

end Utf8

end ScriptTree
