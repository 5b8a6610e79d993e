import CodeAtlas.Text.Utf8

/-!
# SHA-256

The digest that names symbols and recognises file contents. A message is padded to whole blocks of
64 bytes and the blocks are absorbed one after the other (`absorb`). A word is a number below
`2 ^ 32`.
-/

namespace CodeAtlas.Digest

def roundConstants : List Nat := [
  0x428a2f98, 0x71374491, 0xb5c0fbcf, 0xe9b5dba5, 0x3956c25b, 0x59f111f1, 0x923f82a4, 0xab1c5ed5,
  0xd807aa98, 0x12835b01, 0x243185be, 0x550c7dc3, 0x72be5d74, 0x80deb1fe, 0x9bdc06a7, 0xc19bf174,
  0xe49b69c1, 0xefbe4786, 0x0fc19dc6, 0x240ca1cc, 0x2de92c6f, 0x4a7484aa, 0x5cb0a9dc, 0x76f988da,
  0x983e5152, 0xa831c66d, 0xb00327c8, 0xbf597fc7, 0xc6e00bf3, 0xd5a79147, 0x06ca6351, 0x14292967,
  0x27b70a85, 0x2e1b2138, 0x4d2c6dfc, 0x53380d13, 0x650a7354, 0x766a0abb, 0x81c2c92e, 0x92722c85,
  0xa2bfe8a1, 0xa81a664b, 0xc24b8b70, 0xc76c51a3, 0xd192e819, 0xd6990624, 0xf40e3585, 0x106aa070,
  0x19a4c116, 0x1e376c08, 0x2748774c, 0x34b0bcb5, 0x391c0cb3, 0x4ed8aa4a, 0x5b9cca4f, 0x682e6ff3,
  0x748f82ee, 0x78a5636f, 0x84c87814, 0x8cc70208, 0x90befffa, 0xa4506ceb, 0xbef9a3f7, 0xc67178f2]

/-- The eight working words. -/
structure Words where
  a : Nat
  b : Nat
  c : Nat
  d : Nat
  e : Nat
  f : Nat
  g : Nat
  h : Nat

/-- The words before the first block. -/
def Words.start : Words :=
  ⟨0x6a09e667, 0xbb67ae85, 0x3c6ef372, 0xa54ff53a, 0x510e527f, 0x9b05688c, 0x1f83d9ab, 0x5be0cd19⟩

/-- A number without what does not fit into a word. -/
def word (n : Nat) : Nat := n % 0x100000000

/-- Rotate right by `n` bits, for `0 < n < 32`. -/
def rotateRight (x n : Nat) : Nat := (x >>> n) ||| word (x <<< (32 - n))

/-- The words of a list of bytes whose length is a multiple of four, most significant bytes first. -/
def wordsOfBytes : List UInt8 → List Nat
  | b₀ :: b₁ :: b₂ :: b₃ :: rest =>
    ((b₀.toNat <<< 24) ||| (b₁.toNat <<< 16) ||| (b₂.toNat <<< 8) ||| b₃.toNat) ::
      wordsOfBytes rest
  | _ => []

/-- The word of the schedule that follows sixteen others. -/
def nextWord : List Nat → Nat
  | [w₀, w₁, _, _, _, _, _, _, _, w₉, _, _, _, _, w₁₄, _] =>
    let s₀ := rotateRight w₁ 7 ^^^ rotateRight w₁ 18 ^^^ (w₁ >>> 3)
    let s₁ := rotateRight w₁₄ 17 ^^^ rotateRight w₁₄ 19 ^^^ (w₁₄ >>> 10)
    word (w₀ + s₀ + w₉ + s₁)
  | _ => 0

/-- One round with schedule word `w` and constant `k`. -/
def round (s : Words) (k w : Nat) : Words :=
  let s₁ := rotateRight s.e 6 ^^^ rotateRight s.e 11 ^^^ rotateRight s.e 25
  let choice := (s.e &&& s.f) ^^^ ((0xffffffff - s.e) &&& s.g)
  let t₁ := s.h + s₁ + choice + k + w
  let s₀ := rotateRight s.a 2 ^^^ rotateRight s.a 13 ^^^ rotateRight s.a 22
  let majority := (s.a &&& s.b) ^^^ (s.a &&& s.c) ^^^ (s.b &&& s.c)
  ⟨word (t₁ + (s₀ + majority)), s.a, s.b, s.c, word (s.d + t₁), s.e, s.f, s.g⟩

/-- A round for each constant; sixteen words of the schedule are at hand. -/
def rounds : List Nat → List Nat → Words → Words
  | [], _, s => s
  | k :: ks, ws, s => rounds ks (ws.tail ++ [nextWord ws]) (round s k (ws.headD 0))

/-- Absorb one block of 64 bytes. -/
def absorb (s : Words) (block : List UInt8) : Words :=
  let r := rounds roundConstants (wordsOfBytes block) s
  ⟨word (s.a + r.a), word (s.b + r.b), word (s.c + r.c), word (s.d + r.d),
    word (s.e + r.e), word (s.f + r.f), word (s.g + r.g), word (s.h + r.h)⟩

/-- The eight bytes of a 64-bit number, most significant first. -/
def bigEndian64 (n : Nat) : List UInt8 :=
  (List.range 8).map fun i => UInt8.ofNat (n >>> (8 * (7 - i)))

/-- A one bit, zeros up to eight bytes before the end of a block, and the length in bits. -/
def pad (message : List UInt8) : List UInt8 :=
  let zeros := (119 - message.length % 64) % 64
  message ++ 0x80 :: List.replicate zeros 0 ++ bigEndian64 (8 * message.length)

/-- Absorb the first `n` blocks of a message. -/
def absorbBlocks : Nat → Words → List UInt8 → Words
  | 0, s, _ => s
  | n + 1, s, bytes => absorbBlocks n (absorb s (bytes.take 64)) (bytes.drop 64)

/-- The 32 bytes of the digest of a message. -/
def sha256 (message : List UInt8) : List UInt8 :=
  let padded := pad message
  let s := absorbBlocks (padded.length / 64) Words.start padded
  [s.a, s.b, s.c, s.d, s.e, s.f, s.g, s.h].flatMap fun w =>
    [UInt8.ofNat (w >>> 24), UInt8.ofNat (w >>> 16), UInt8.ofNat (w >>> 8), UInt8.ofNat w]

/-- Hexadecimal digit of a number below sixteen. -/
def hexChar (n : Nat) : Char := (Nat.toDigits 16 n).headD '0'

/-- Bytes as lower-case hexadecimal digits. -/
def hex (bytes : List UInt8) : String :=
  String.ofList (bytes.flatMap fun b => [hexChar (b.toNat / 16), hexChar (b.toNat % 16)])

/-- The digest of a text, in hexadecimal. -/
def ofString (s : String) : String := hex (sha256 (Text.toBytes s))

/-- The first `n` bytes of the digest of a text, in hexadecimal. -/
def shortOfString (n : Nat) (s : String) : String := hex ((sha256 (Text.toBytes s)).take n)

end CodeAtlas.Digest
