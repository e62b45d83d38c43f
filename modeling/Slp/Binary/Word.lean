import Slp.Binary.Cursor
import Slp.Object.Basic

/-!
# Words in either byte order

A number in a fixed number of bytes, the most significant one first or last, and the hexadecimal
digits of a byte.

* `writeWord`, `readWord` : writing and reading a word;
* `readWord_writeWord` : a number that fits is read back.
-/

namespace Slp

/-- A number in `n` bytes, the most significant one first if `big`. -/
def writeWord (n x : ℕ) (big : Bool) : List UInt8 :=
  if big then bigEndian n x else (bigEndian n x).reverse

/-- The number in these bytes. -/
def readWord (xs : List UInt8) (big : Bool) : ℕ := ofBigEndian (if big then xs else xs.reverse)

theorem length_bigEndian (n x : ℕ) : (bigEndian n x).length = n := by
  induction n generalizing x with
  | zero => rfl
  | succ n ih => rw [bigEndian, List.length_append, ih, List.length_singleton]

@[simp] theorem length_writeWord (n x : ℕ) (big : Bool) : (writeWord n x big).length = n := by
  unfold writeWord
  split_ifs
  · exact length_bigEndian n x
  · rw [List.length_reverse, length_bigEndian]

/-- The digits of a number in two parts. -/
theorem bigEndian_add (m n x : ℕ) :
    bigEndian (m + n) x = bigEndian m (x / 256 ^ n) ++ bigEndian n x := by
  induction n generalizing x with
  | zero => rw [Nat.add_zero, Nat.pow_zero, Nat.div_one, bigEndian, List.append_nil]
  | succ n ih =>
    rw [← Nat.add_assoc, bigEndian, bigEndian, ih, Nat.div_div_eq_div_mul, Nat.pow_succ,
      Nat.mul_comm, List.append_assoc]

/-- The last digits are those of the remainder. -/
theorem bigEndian_mod (n x : ℕ) : bigEndian n (x % 256 ^ n) = bigEndian n x := by
  have h := bigEndian_ofBigEndian (bigEndian n x)
  rwa [length_bigEndian, ofBigEndian_bigEndian] at h

/-- The bytes of a number in two parts, the last digits first. -/
theorem writeWord_add (m n x : ℕ) :
    writeWord (m + n) x false = writeWord n (x % 256 ^ n) false ++ writeWord m (x / 256 ^ n) false := by
  simp only [writeWord, Bool.false_eq_true, if_false, bigEndian_add, List.reverse_append,
    bigEndian_mod]

theorem readWord_writeWord (n x : ℕ) (big : Bool) :
    readWord (writeWord n x big) big = x % 256 ^ n := by
  cases big with
  | true => exact ofBigEndian_bigEndian n x
  | false =>
    rw [readWord, writeWord, if_neg Bool.false_ne_true, if_neg Bool.false_ne_true,
      List.reverse_reverse]
    exact ofBigEndian_bigEndian n x

/-- Every word has a number of its own. -/
theorem ofNat_readWord {w n : ℕ} (hw : 2 ^ w = 256 ^ n) (x : BitVec w) (big : Bool) :
    BitVec.ofNat w (readWord (writeWord n x.toNat big) big) = x := by
  rw [readWord_writeWord, ← hw, Nat.mod_eq_of_lt x.isLt, BitVec.ofNat_toNat, BitVec.setWidth_eq]

/-! ### Hexadecimal digits -/

/-- The digits that `%x` prints. -/
def hexDigits : Bytes := ascii "0123456789abcdef"

/-- `%x` of half a byte. -/
def hexDigit (n : ℕ) : UInt8 := hexDigits.getD n 0

/-- `%02x` of a byte. -/
def hexByte (c : UInt8) : Bytes := [hexDigit (c.toNat / 16), hexDigit (c.toNat % 16)]

end Slp
