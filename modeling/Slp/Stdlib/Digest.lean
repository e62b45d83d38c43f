import Slp.Binary.Blocks
import Slp.Binary.Word
import Slp.Object.Basic
import Slp.Text.CString

/-!
# Digests

`MD5` and `SHA-256` over a buffer of 64 bytes.  A context takes a message in parts: what fills up the
buffer is given to the compression function, and so are the whole blocks behind it, and the rest is
left in the buffer.  The two differ in how they count what they have taken, in the byte order, and in
the compression function.

The lengths are of type `uint32_t`.  An access outside the buffer or the input is none.
-/

namespace Slp

namespace Digest

/-- What is given to an update: its length is a `uint32_t`. -/
abbrev Input := {xs : Bytes // xs.length < 2 ^ 32}

/-- The buffer of a context. -/
abbrev Buffer := {xs : Bytes // xs.length = 64}

/-- `memcpy` to the index of a buffer. -/
def Buffer.write (b : Buffer) (idx : ℕ) (bytes : Bytes) : Option Buffer :=
  if h : idx + bytes.length ≤ 64 then
    some ⟨b.1.take idx ++ bytes ++ b.1.drop (idx + bytes.length), by
      simp only [List.length_append, List.length_take, List.length_drop, b.2]
      omega⟩
  else none

/-- The `n` bytes of the input from `i` on. -/
def slice (input : Bytes) (i n : ℕ) : Option Bytes :=
  if i + n ≤ input.length then some ((input.drop i).take n) else none

/-- How a context counts what it has taken. -/
structure Counter (C : Type) where
  zero : C
  /-- The number of bytes in the buffer. -/
  index : C → ℕ
  add : C → UInt32 → C
  /-- The number of bits, in eight bytes. -/
  bits : C → Bytes
  length_bits : ∀ c, (bits c).length = 8

/-- `MD5_CTX` and `SHA256_CTX`. -/
structure Context (S C : Type) where
  state : S
  count : C
  buffer : Buffer

/-- `MD5_PADDING`. -/
def padding : Bytes := 0x80 :: List.replicate 63 0

section Updates

variable {S C : Type} (k : Counter C) (transform : S → Bytes → S)

/-- The loop over the whole blocks; `i + 63` is a `uint32_t`. -/
def transformLoop (input : Bytes) (i : ℕ) (state : S) : Option (ℕ × S) :=
  if (i + 63) % 2 ^ 32 < input.length then
    if i + 64 ≤ input.length then
      transformLoop input (i + 64) (transform state ((input.drop i).take 64))
    else none
  else some (i, state)
termination_by input.length - i

/-- What an update does to the state and the buffer. -/
def absorb (idx : ℕ) (input : Bytes) (state : S) (buffer : Buffer) : Option (S × Buffer) :=
  let partLen := 64 - idx
  if partLen ≤ input.length then do
    let buffer ← buffer.write idx (← slice input 0 partLen)
    let (i, state) ← transformLoop transform input partLen (transform state buffer.1)
    let buffer ← buffer.write 0 (← slice input i (input.length - i))
    return (state, buffer)
  else do
    let buffer ← buffer.write idx input
    return (state, buffer)

/-- `MD5_Update` and `SHA256_Update`. -/
def update (ctx : Context S C) (input : Input) : Option (Context S C) := do
  let (state, buffer) ← absorb transform (k.index ctx.count) input ctx.state ctx.buffer
  return ⟨state, k.add ctx.count (.ofNat input.1.length), buffer⟩

theorem length_padding_take (n : ℕ) : (padding.take n).length < 2 ^ 32 := by
  rw [List.length_take]
  exact Nat.lt_of_le_of_lt (Nat.min_le_right _ _) (by decide)

/-- `MD5_Final` and `SHA256_Final`; `encode` writes the state. -/
def final (encode : S → Bytes) (ctx : Context S C) : Option Bytes := do
  let bits := k.bits ctx.count
  let idx := k.index ctx.count
  let padLen := if idx < 56 then 56 - idx else 120 - idx
  let ctx ← update k transform ctx ⟨padding.take padLen, length_padding_take padLen⟩
  let ctx ← update k transform ctx ⟨bits, by rw [k.length_bits]; decide⟩
  return encode ctx.state

/-- The digest of a message that comes in parts.  The buffer holds anything at first. -/
def digestOf (encode : S → Bytes) (init : S) (buffer : Buffer) (parts : List Input) :
    Option Bytes := do
  let ctx ← parts.foldlM (update k transform) ⟨init, k.zero, buffer⟩
  final k transform encode ctx

end Updates

/-! ### MD5 -/

/-- `context->count[0]` and `context->count[1]`. -/
def md5Counter : Counter (UInt32 × UInt32) where
  zero := (0, 0)
  index count := ((count.1 >>> 3) &&& 0x3F).toNat
  add count len :=
    let low := count.1 + (len <<< 3)
    let high := if low < len <<< 3 then count.2 + 1 else count.2
    (low, high + (len >>> 29))
  bits count := writeWord 4 count.1.toNat false ++ writeWord 4 count.2.toNat false
  length_bits count := by rw [List.length_append, length_writeWord, length_writeWord]

/-- `state` of `MD5_CTX`, and the four variables of a round. -/
structure MD5State where
  a : UInt32
  b : UInt32
  c : UInt32
  d : UInt32
  deriving DecidableEq, Repr

/-- `ROTATE_LEFT`. -/
def rotateLeft (x n : UInt32) : UInt32 := (x <<< n) ||| (x >>> (32 - n))

def md5F (x y z : UInt32) : UInt32 := (x &&& y) ||| (~~~x &&& z)

def md5G (x y z : UInt32) : UInt32 := (x &&& z) ||| (y &&& ~~~z)

def md5H (x y z : UInt32) : UInt32 := x ^^^ y ^^^ z

def md5I (x y z : UInt32) : UInt32 := y ^^^ (x ||| ~~~z)

/-- The word, the shift and the constant of each step `FF`. -/
def md5Round1 : List (ℕ × UInt32 × UInt32) :=
  [(0, 7, 0xd76aa478), (1, 12, 0xe8c7b756), (2, 17, 0x242070db), (3, 22, 0xc1bdceee),
   (4, 7, 0xf57c0faf), (5, 12, 0x4787c62a), (6, 17, 0xa8304613), (7, 22, 0xfd469501),
   (8, 7, 0x698098d8), (9, 12, 0x8b44f7af), (10, 17, 0xffff5bb1), (11, 22, 0x895cd7be),
   (12, 7, 0x6b901122), (13, 12, 0xfd987193), (14, 17, 0xa679438e), (15, 22, 0x49b40821)]

/-- The steps `GG`. -/
def md5Round2 : List (ℕ × UInt32 × UInt32) :=
  [(1, 5, 0xf61e2562), (6, 9, 0xc040b340), (11, 14, 0x265e5a51), (0, 20, 0xe9b6c7aa),
   (5, 5, 0xd62f105d), (10, 9, 0x2441453), (15, 14, 0xd8a1e681), (4, 20, 0xe7d3fbc8),
   (9, 5, 0x21e1cde6), (14, 9, 0xc33707d6), (3, 14, 0xf4d50d87), (8, 20, 0x455a14ed),
   (13, 5, 0xa9e3e905), (2, 9, 0xfcefa3f8), (7, 14, 0x676f02d9), (12, 20, 0x8d2a4c8a)]

/-- The steps `HH`. -/
def md5Round3 : List (ℕ × UInt32 × UInt32) :=
  [(5, 4, 0xfffa3942), (8, 11, 0x8771f681), (11, 16, 0x6d9d6122), (14, 23, 0xfde5380c),
   (1, 4, 0xa4beea44), (4, 11, 0x4bdecfa9), (7, 16, 0xf6bb4b60), (10, 23, 0xbebfbc70),
   (13, 4, 0x289b7ec6), (0, 11, 0xeaa127fa), (3, 16, 0xd4ef3085), (6, 23, 0x4881d05),
   (9, 4, 0xd9d4d039), (12, 11, 0xe6db99e5), (15, 16, 0x1fa27cf8), (2, 23, 0xc4ac5665)]

/-- The steps `II`. -/
def md5Round4 : List (ℕ × UInt32 × UInt32) :=
  [(0, 6, 0xf4292244), (7, 10, 0x432aff97), (14, 15, 0xab9423a7), (5, 21, 0xfc93a039),
   (12, 6, 0x655b59c3), (3, 10, 0x8f0ccc92), (10, 15, 0xffeff47d), (1, 21, 0x85845dd1),
   (8, 6, 0x6fa87e4f), (15, 10, 0xfe2ce6e0), (6, 15, 0xa3014314), (13, 21, 0x4e0811a1),
   (4, 6, 0xf7537e82), (11, 10, 0xbd3af235), (2, 15, 0x2ad7d2bb), (9, 21, 0xeb86d391)]

/-- `MD5_Decode` of a word. -/
def md5Word (block : Bytes) (i : ℕ) : UInt32 := .ofNat (readWord ((block.drop (4 * i)).take 4) false)

/-- A step, with the variables named as the next step has them. -/
def md5Step (f : UInt32 → UInt32 → UInt32 → UInt32) (block : Bytes) (v : MD5State)
    (step : ℕ × UInt32 × UInt32) : MD5State :=
  let (i, s, ac) := step
  ⟨v.d, rotateLeft (v.a + (f v.b v.c v.d + md5Word block i + ac)) s + v.b, v.b, v.c⟩

/-- `MD5_Transform`. -/
def md5Transform (state : MD5State) (block : Bytes) : MD5State :=
  let v := md5Round1.foldl (md5Step md5F block) state
  let v := md5Round2.foldl (md5Step md5G block) v
  let v := md5Round3.foldl (md5Step md5H block) v
  let v := md5Round4.foldl (md5Step md5I block) v
  ⟨state.a + v.a, state.b + v.b, state.c + v.c, state.d + v.d⟩

/-- The state after `MD5_Init`. -/
def md5Init : MD5State := ⟨0x67452301, 0xefcdab89, 0x98badcfe, 0x10325476⟩

/-- `MD5_Encode` of the state. -/
def md5Encode (s : MD5State) : Bytes :=
  [s.a, s.b, s.c, s.d].flatMap fun w => writeWord 4 w.toNat false

/-! ### SHA-256 -/

/-- `context->count`. -/
def sha256Counter : Counter UInt64 where
  zero := 0
  index count := (count &&& 63).toUInt32.toNat
  add count len := count + len.toUInt64
  bits count := writeWord 8 (count <<< 3).toNat true
  length_bits _ := length_writeWord _ _ _

/-- `ROTR`. -/
def rotateRight (x n : UInt32) : UInt32 := (x >>> n) ||| (x <<< (32 - n))

def ch (x y z : UInt32) : UInt32 := (x &&& y) ^^^ (~~~x &&& z)

def maj (x y z : UInt32) : UInt32 := (x &&& y) ^^^ (x &&& z) ^^^ (y &&& z)

def bigSigma0 (x : UInt32) : UInt32 := rotateRight x 2 ^^^ rotateRight x 13 ^^^ rotateRight x 22

def bigSigma1 (x : UInt32) : UInt32 := rotateRight x 6 ^^^ rotateRight x 11 ^^^ rotateRight x 25

def sigma0 (x : UInt32) : UInt32 := rotateRight x 7 ^^^ rotateRight x 18 ^^^ (x >>> 3)

def sigma1 (x : UInt32) : UInt32 := rotateRight x 17 ^^^ rotateRight x 19 ^^^ (x >>> 10)

/-- `SHA_K`. -/
def shaK : List UInt32 :=
  [0x428a2f98, 0x71374491, 0xb5c0fbcf, 0xe9b5dba5, 0x3956c25b, 0x59f111f1, 0x923f82a4,
   0xab1c5ed5, 0xd807aa98, 0x12835b01, 0x243185be, 0x550c7dc3, 0x72be5d74, 0x80deb1fe,
   0x9bdc06a7, 0xc19bf174, 0xe49b69c1, 0xefbe4786, 0x0fc19dc6, 0x240ca1cc, 0x2de92c6f,
   0x4a7484aa, 0x5cb0a9dc, 0x76f988da, 0x983e5152, 0xa831c66d, 0xb00327c8, 0xbf597fc7,
   0xc6e00bf3, 0xd5a79147, 0x06ca6351, 0x14292967, 0x27b70a85, 0x2e1b2138, 0x4d2c6dfc,
   0x53380d13, 0x650a7354, 0x766a0abb, 0x81c2c92e, 0x92722c85, 0xa2bfe8a1, 0xa81a664b,
   0xc24b8b70, 0xc76c51a3, 0xd192e819, 0xd6990624, 0xf40e3585, 0x106aa070, 0x19a4c116,
   0x1e376c08, 0x2748774c, 0x34b0bcb5, 0x391c0cb3, 0x4ed8aa4a, 0x5b9cca4f, 0x682e6ff3,
   0x748f82ee, 0x78a5636f, 0x84c87814, 0x8cc70208, 0x90befffa, 0xa4506ceb, 0xbef9a3f7,
   0xc67178f2]

/-- `state` of `SHA256_CTX`, and the eight variables of the rounds. -/
structure SHA256State where
  a : UInt32
  b : UInt32
  c : UInt32
  d : UInt32
  e : UInt32
  f : UInt32
  g : UInt32
  h : UInt32
  deriving DecidableEq, Repr

/-- The sixteen words of a block, the first one first. -/
def sha256Words (block : Bytes) : List UInt32 :=
  (List.range 16).map fun i => .ofNat (readWord ((block.drop (4 * i)).take 4) true)

/-- The words from the seventeenth on are made of the last sixteen; the last one comes first. -/
def extendWords : ℕ → List UInt32 → List UInt32
  | 0, w => w
  | n + 1, w =>
    extendWords n
      ((sigma1 (w.getD 1 0) + w.getD 6 0 + sigma0 (w.getD 14 0) + w.getD 15 0) :: w)

/-- A round, with its constant and its word. -/
def sha256Step (v : SHA256State) (kw : UInt32 × UInt32) : SHA256State :=
  let t1 := v.h + bigSigma1 v.e + ch v.e v.f v.g + kw.1 + kw.2
  let t2 := bigSigma0 v.a + maj v.a v.b v.c
  ⟨t1 + t2, v.a, v.b, v.c, v.d + t1, v.e, v.f, v.g⟩

/-- `SHA256_Transform`. -/
def sha256Transform (state : SHA256State) (block : Bytes) : SHA256State :=
  let w := (extendWords 48 (sha256Words block).reverse).reverse
  let v := (shaK.zip w).foldl sha256Step state
  ⟨state.a + v.a, state.b + v.b, state.c + v.c, state.d + v.d, state.e + v.e, state.f + v.f,
    state.g + v.g, state.h + v.h⟩

/-- The state after `SHA256_Init`. -/
def sha256Init : SHA256State :=
  ⟨0x6a09e667, 0xbb67ae85, 0x3c6ef372, 0xa54ff53a, 0x510e527f, 0x9b05688c, 0x1f83d9ab, 0x5be0cd19⟩

/-- The bytes of the state in `SHA256_Final`. -/
def sha256Encode (s : SHA256State) : Bytes :=
  [s.a, s.b, s.c, s.d, s.e, s.f, s.g, s.h].flatMap fun w => writeWord 4 w.toNat true

/-! ### The function `digest` -/

/-- `builtin_digest` of a text, with the name of the algorithm if there is one: the digest in
hexadecimal digits.  The buffers hold anything at first. -/
def digest (buffer : Buffer) (text : Input) (algo : Option Bytes) : Option Bytes :=
  let algo := algo.getD (ascii "MD5")
  let hash :=
    if strcmp algo (ascii "SHA-256") = .eq ∨ strcmp algo (ascii "SHA256") = .eq then
      digestOf sha256Counter sha256Transform sha256Encode sha256Init buffer [text]
    else digestOf md5Counter md5Transform md5Encode md5Init buffer [text]
  hash.map (·.flatMap hexByte)

end Digest

end Slp
