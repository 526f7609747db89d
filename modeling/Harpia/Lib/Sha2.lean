import Harpia.Lib.MerkleDamgard

/-- The eight words of a hash value, or the working variables of its rounds. -/
structure Registers (α : Type) where
  a : α
  b : α
  c : α
  d : α
  e : α
  f : α
  g : α
  h : α
deriving DecidableEq, Repr

namespace Registers

variable {α β γ : Type}

def toList (r : Registers α) : List α := [r.a, r.b, r.c, r.d, r.e, r.f, r.g, r.h]

def map (fn : α → β) (r : Registers α) : Registers β :=
  ⟨fn r.a, fn r.b, fn r.c, fn r.d, fn r.e, fn r.f, fn r.g, fn r.h⟩

def zipWith (fn : α → β → γ) (r : Registers α) (s : Registers β) : Registers γ :=
  ⟨fn r.a s.a, fn r.b s.b, fn r.c s.c, fn r.d s.d, fn r.e s.e, fn r.f s.f, fn r.g s.g, fn r.h s.h⟩

end Registers

/-- SHA-256 as FIPS 180-4 defines it, on words of 32 bits. -/
abbrev Sha2.Word := BitVec 32

namespace Sha2

/-- The first bits of the fractional parts of the cube roots of the first primes. -/
def K : List Word :=
  [0x428a2f98, 0x71374491, 0xb5c0fbcf, 0xe9b5dba5, 0x3956c25b, 0x59f111f1, 0x923f82a4, 0xab1c5ed5,
    0xd807aa98, 0x12835b01, 0x243185be, 0x550c7dc3, 0x72be5d74, 0x80deb1fe, 0x9bdc06a7, 0xc19bf174,
    0xe49b69c1, 0xefbe4786, 0x0fc19dc6, 0x240ca1cc, 0x2de92c6f, 0x4a7484aa, 0x5cb0a9dc, 0x76f988da,
    0x983e5152, 0xa831c66d, 0xb00327c8, 0xbf597fc7, 0xc6e00bf3, 0xd5a79147, 0x06ca6351, 0x14292967,
    0x27b70a85, 0x2e1b2138, 0x4d2c6dfc, 0x53380d13, 0x650a7354, 0x766a0abb, 0x81c2c92e, 0x92722c85,
    0xa2bfe8a1, 0xa81a664b, 0xc24b8b70, 0xc76c51a3, 0xd192e819, 0xd6990624, 0xf40e3585, 0x106aa070,
    0x19a4c116, 0x1e376c08, 0x2748774c, 0x34b0bcb5, 0x391c0cb3, 0x4ed8aa4a, 0x5b9cca4f, 0x682e6ff3,
    0x748f82ee, 0x78a5636f, 0x84c87814, 0x8cc70208, 0x90befffa, 0xa4506ceb, 0xbef9a3f7, 0xc67178f2]

/-- The first bits of the fractional parts of the square roots of the first eight primes. -/
def H0 : Registers Word :=
  ⟨0x6a09e667, 0xbb67ae85, 0x3c6ef372, 0xa54ff53a, 0x510e527f, 0x9b05688c, 0x1f83d9ab, 0x5be0cd19⟩

def primes : List Nat :=
  [2, 3, 5, 7, 11, 13, 17, 19, 23, 29, 31, 37, 41, 43, 47, 53, 59, 61, 67, 71, 73, 79, 83, 89, 97,
    101, 103, 107, 109, 113, 127, 131, 137, 139, 149, 151, 157, 163, 167, 173, 179, 181, 191, 193,
    197, 199, 211, 223, 227, 229, 233, 239, 241, 251, 257, 263, 269, 271, 277, 281, 283, 293, 307,
    311]

/-- `w` holds the first 32 bits of the fractional part of the `k`-th root of `p`. -/
def isRoot (k p : Nat) (w : Word) : Bool :=
  (List.range p).any fun whole =>
    (whole * 2 ^ 32 + w.toNat) ^ k ≤ p * 2 ^ (32 * k) && p * 2 ^ (32 * k) < (whole * 2 ^ 32 + w.toNat + 1) ^ k

example : (List.zipWith (isRoot 3) primes K).all id ∧
    (List.zipWith (isRoot 2) primes H0.toList).all id := by decide +kernel

def Ch (x y z : Word) : Word := (x &&& y) ^^^ (~~~x &&& z)

def Maj (x y z : Word) : Word := (x &&& y) ^^^ (x &&& z) ^^^ (y &&& z)

def bigSigma0 (x : Word) : Word := x.rotateRight 2 ^^^ x.rotateRight 13 ^^^ x.rotateRight 22

def bigSigma1 (x : Word) : Word := x.rotateRight 6 ^^^ x.rotateRight 11 ^^^ x.rotateRight 25

def sigma0 (x : Word) : Word := x.rotateRight 7 ^^^ x.rotateRight 18 ^^^ x >>> 3

def sigma1 (x : Word) : Word := x.rotateRight 17 ^^^ x.rotateRight 19 ^^^ x >>> 10

/-- The `t`-th word of a block. -/
def word (block : Bytes) (t : Nat) : Word := BitVec.ofNat 32 (Bytes.getBE ((block.drop (4 * t)).take 4))

/-- The message schedule. -/
def W (block : Bytes) (t : Nat) : Word :=
  if t < 16 then word block t
  else sigma1 (W block (t - 2)) + W block (t - 7) + sigma0 (W block (t - 15)) + W block (t - 16)

def round (block : Bytes) (r : Registers Word) (t : Nat) : Registers Word :=
  let t1 := r.h + bigSigma1 r.e + Ch r.e r.f r.g + K.getD t 0 + W block t
  let t2 := bigSigma0 r.a + Maj r.a r.b r.c
  ⟨t1 + t2, r.a, r.b, r.c, r.d + t1, r.e, r.f, r.g⟩

def compress (h : Registers Word) (block : Bytes) : Registers Word :=
  ((List.range 64).foldl (round block) h).zipWith (· + ·) h

/-- How many zeros stand between the end mark and the length: the fewest that fill the block. -/
def zeros (length : Nat) : Nat := (119 - length % 64) % 64

theorem zeros_least (length : Nat) : (length + 1 + zeros length) % 64 = 56 ∧
    ∀ k, (length + 1 + k) % 64 = 56 → zeros length ≤ k := by
  unfold zeros
  refine ⟨by omega, fun k hk => by omega⟩

/-- The padded message, with its length in bits at the end. -/
def pad (m : Bytes) : Bytes :=
  m ++ [0x80] ++ List.replicate (zeros m.length) 0 ++ Bytes.putBE 8 (8 * m.length)

def sha256 (m : Bytes) : Bytes :=
  (MerkleDamgard.absorb 64 compress H0 (pad m)).1.toList.flatMap fun w => Bytes.putBE 4 w.toNat

@[simp] theorem length_sha256 (m : Bytes) : (sha256 m).length = 32 := by
  simp [sha256, Registers.toList]

/-- HMAC as RFC 2104 defines it, over a hash of blocks of `size` bytes. -/
def hmac (hash : Bytes → Bytes) (size : Nat) (key text : Bytes) : Bytes :=
  let short := if size < key.length then hash key else key
  let k := short ++ List.replicate (size - short.length) 0
  hash (k.map (· ^^^ 0x5c) ++ hash (k.map (· ^^^ 0x36) ++ text))

end Sha2
