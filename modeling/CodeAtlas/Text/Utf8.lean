/-!
# Reading bytes as text

UTF-8 is decoded without failing: every longest run of bytes that cannot be continued to a
character is read as one replacement character `U+FFFD`.
-/

namespace CodeAtlas.Text

def replacement : Char := Char.ofNat 0xfffd

/-- For the first byte of a longer sequence: the number of bytes that follow, and the least and
greatest value of the next one. -/
def sequenceShape (b : UInt8) : Option (Nat × UInt8 × UInt8) :=
  if 0xc2 ≤ b && b ≤ 0xdf then some (1, 0x80, 0xbf)
  else if b == 0xe0 then some (2, 0xa0, 0xbf)
  else if b == 0xed then some (2, 0x80, 0x9f)
  else if 0xe1 ≤ b && b ≤ 0xef then some (2, 0x80, 0xbf)
  else if b == 0xf0 then some (3, 0x90, 0xbf)
  else if 0xf1 ≤ b && b ≤ 0xf3 then some (3, 0x80, 0xbf)
  else if b == 0xf4 then some (3, 0x80, 0x8f)
  else none

def isContinuation (b : UInt8) : Bool := 0x80 ≤ b && b ≤ 0xbf

/-- The low six bits of a continuation byte. -/
def payload (b : UInt8) : Nat := b.toNat % 64

/-- Decode bytes; what cannot be decoded becomes `U+FFFD`. -/
def decodeLossy : List UInt8 → List Char
  | [] => []
  | b :: rest =>
    if b < 0x80 then Char.ofNat b.toNat :: decodeLossy rest
    else
      match sequenceShape b with
      | none => replacement :: decodeLossy rest
      | some (more, least, greatest) =>
        match rest with
        | [] => [replacement]
        | b₁ :: rest₁ =>
          if !(least ≤ b₁ && b₁ ≤ greatest) then replacement :: decodeLossy (b₁ :: rest₁)
          else if more == 1 then
            Char.ofNat (b.toNat % 32 * 64 + payload b₁) :: decodeLossy rest₁
          else
            match rest₁ with
            | [] => [replacement]
            | b₂ :: rest₂ =>
              if !isContinuation b₂ then replacement :: decodeLossy (b₂ :: rest₂)
              else if more == 2 then
                Char.ofNat (b.toNat % 16 * 4096 + payload b₁ * 64 + payload b₂)
                  :: decodeLossy rest₂
              else
                match rest₂ with
                | [] => [replacement]
                | b₃ :: rest₃ =>
                  if !isContinuation b₃ then replacement :: decodeLossy (b₃ :: rest₃)
                  else
                    Char.ofNat (b.toNat % 8 * 262144 + payload b₁ * 4096 + payload b₂ * 64
                      + payload b₃) :: decodeLossy rest₃
termination_by bs => bs.length

def ofBytes (bs : List UInt8) : String := String.ofList (decodeLossy bs)

def toBytes (s : String) : List UInt8 := s.toUTF8.toList

end CodeAtlas.Text
