/-!
# SHA-1

The digest of a byte string: 512-bit blocks, each mixed into five words over eighty rounds.
-/

namespace Backfill.Digest

/-- The five words of the running digest. -/
structure Sha1State where
  a : UInt32
  b : UInt32
  c : UInt32
  d : UInt32
  e : UInt32

namespace Sha1State

def initial : Sha1State := ⟨0x67452301, 0xEFCDAB89, 0x98BADCFE, 0x10325476, 0xC3D2E1F0⟩

def add (x y : Sha1State) : Sha1State := ⟨x.a + y.a, x.b + y.b, x.c + y.c, x.d + y.d, x.e + y.e⟩

def words (x : Sha1State) : List UInt32 := [x.a, x.b, x.c, x.d, x.e]

end Sha1State

def rotateLeft (x : UInt32) (n : UInt32) : UInt32 := (x <<< n) ||| (x >>> (32 - n))

/-- Four bytes as a word, the first byte highest. -/
def wordOf (bytes : List UInt8) : UInt32 := bytes.foldl (fun w b => (w <<< 8) ||| b.toUInt32) 0

def bytesOf (w : UInt32) : List UInt8 := ([24, 16, 8, 0] : List UInt32).map fun shift => (w >>> shift).toUInt8

/-- So many pieces of `size` bytes. -/
def pieces (size : Nat) : Nat → List UInt8 → List (List UInt8)
  | 0, _ => []
  | n + 1, bytes => bytes.take size :: pieces size n (bytes.drop size)

/-- A one bit, zeros, and the length in bits fill the last block. -/
def pad (bytes : List UInt8) : List UInt8 :=
  let zeros := (119 - bytes.length % 64) % 64
  let bits := bytes.length * 8
  bytes ++ 0x80 :: List.replicate zeros 0 ++
    bytesOf (bits / Nat.pow 2 32).toUInt32 ++ bytesOf bits.toUInt32

/-- Extends the newest-first list of a block's words by `n` words. -/
def schedule : Nat → List UInt32 → List UInt32
  | 0, ws => ws
  | n + 1, ws =>
    schedule n (rotateLeft (ws.getD 2 0 ^^^ ws.getD 7 0 ^^^ ws.getD 13 0 ^^^ ws.getD 15 0) 1 :: ws)

/-- One round: its number and its word. -/
def round (x : Sha1State) (t : Nat) (w : UInt32) : Sha1State :=
  let (f, k) : UInt32 × UInt32 :=
    if t < 20 then ((x.b &&& x.c) ||| (~~~x.b &&& x.d), 0x5A827999)
    else if t < 40 then (x.b ^^^ x.c ^^^ x.d, 0x6ED9EBA1)
    else if t < 60 then ((x.b &&& x.c) ||| (x.b &&& x.d) ||| (x.c &&& x.d), 0x8F1BBCDC)
    else (x.b ^^^ x.c ^^^ x.d, 0xCA62C1D6)
  ⟨rotateLeft x.a 5 + f + x.e + k + w, x.a, rotateLeft x.b 30, x.c, x.d⟩

def mixBlock (x : Sha1State) (block : List UInt8) : Sha1State :=
  let words := (schedule 64 ((pieces 4 16 block).map wordOf).reverse).reverse
  x.add (words.zipIdx.foldl (fun x (w, t) => round x t w) x)

/-- The digest of a byte string, twenty bytes. -/
def sha1 (bytes : List UInt8) : List UInt8 :=
  let padded := pad bytes
  let final := (pieces 64 (padded.length / 64) padded).foldl mixBlock Sha1State.initial
  final.words.flatMap bytesOf

theorem length_pad (bytes : List UInt8) : (pad bytes).length % 64 = 0 := by
  simp only [pad, bytesOf, List.length_append, List.length_cons, List.length_replicate, List.length_map,
    List.length_nil]
  omega

theorem length_sha1 (bytes : List UInt8) : (sha1 bytes).length = 20 := by
  simp [sha1, Sha1State.words, bytesOf]

end Backfill.Digest
