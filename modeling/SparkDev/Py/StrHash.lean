import Mathlib.Algebra.Group.Int.Defs
import Mathlib.Data.Int.Basic

/-!
# The hash of a string in CPython

`hash(s)` is SipHash-1-3 of the characters as CPython stores them, keyed with a secret
that every process draws at its start. It is a signed 64-bit integer, and -1, which the
interpreter keeps for errors, becomes -2.

* `strHash_range`: what values it has.
-/

namespace SparkDev.Py

/-- The secret of a process. -/
structure HashSecret where
  k0 : BitVec 64
  k1 : BitVec 64
  deriving DecidableEq, Repr

/-- The state of the function. -/
structure SipState where
  v0 : BitVec 64
  v1 : BitVec 64
  v2 : BitVec 64
  v3 : BitVec 64

/-- `HALF_ROUND`. -/
def halfRound (a b c d : BitVec 64) (s t : ℕ) : BitVec 64 × BitVec 64 × BitVec 64 × BitVec 64 :=
  let a := a + b
  let c := c + d
  let b := b.rotateLeft s ^^^ a
  let d := d.rotateLeft t ^^^ c
  (a.rotateLeft 32, b, c, d)

/-- `SINGLE_ROUND`. -/
def singleRound (v : SipState) : SipState :=
  let (v0, v1, v2, v3) := halfRound v.v0 v.v1 v.v2 v.v3 13 16
  let (v2, v1, v0, v3) := halfRound v2 v1 v0 v3 17 21
  ⟨v0, v1, v2, v3⟩

/-- One word of the message. -/
def absorb (v : SipState) (m : BitVec 64) : SipState :=
  let w := singleRound { v with v3 := v.v3 ^^^ m }
  { w with v0 := w.v0 ^^^ m }

/-- Bytes as a little-endian word. -/
def word (bytes : List ℕ) : BitVec 64 := BitVec.ofNat 64 (bytes.foldr (fun b n => b + 256 * n) 0)

/-- So many whole words of the message, then what is left of it under its length. -/
def absorbAll : ℕ → SipState → List ℕ → BitVec 64 → SipState
  | 0, v, bytes, length => absorb v (length ||| word bytes)
  | n + 1, v, bytes, length => absorbAll n (absorb v (word (bytes.take 8))) (bytes.drop 8) length

/-- `siphash13`. -/
def siphash13 (k : HashSecret) (bytes : List ℕ) : BitVec 64 :=
  let v : SipState := ⟨k.k0 ^^^ 0x736f6d6570736575#64, k.k1 ^^^ 0x646f72616e646f6d#64,
    k.k0 ^^^ 0x6c7967656e657261#64, k.k1 ^^^ 0x7465646279746573#64⟩
  let v := absorbAll (bytes.length / 8) v bytes (BitVec.ofNat 64 bytes.length <<< 56)
  let v := singleRound (singleRound (singleRound { v with v2 := v.v2 ^^^ 0xff#64 }))
  (v.v0 ^^^ v.v1) ^^^ (v.v2 ^^^ v.v3)

/-- The bytes a character takes in a string with this character. -/
def charWidth (c : Char) : ℕ := if c.toNat < 256 then 1 else if c.toNat < 65536 then 2 else 4

/-- The characters as they are stored: all as wide as the widest. -/
def storage (s : String) : List ℕ :=
  let width := (s.toList.map charWidth).foldl max 1
  s.toList.flatMap fun c => (List.range width).map fun i => c.toNat >>> (8 * i) % 256

/-- `hash(s)`. -/
def strHash (k : HashSecret) (s : String) : ℤ :=
  if s = "" then 0
  else
    let x := (siphash13 k (storage s)).toInt
    if x = -1 then -2 else x

/-- **The values of `hash`**: signed 64-bit integers other than -1. -/
theorem strHash_range (k : HashSecret) (s : String) :
    -2 ^ 63 ≤ strHash k s ∧ strHash k s < 2 ^ 63 ∧ strHash k s ≠ -1 := by
  have hlow := BitVec.le_toInt (siphash13 k (storage s))
  have hhigh := BitVec.toInt_lt (x := siphash13 k (storage s))
  unfold strHash
  split
  · decide
  · dsimp only
    split
    · decide
    · rename_i hne
      exact ⟨hlow, hhigh, hne⟩

-- the process with a zero secret, which PYTHONHASHSEED=0 gives
example : strHash ⟨0, 0⟩ "2024-06-01" = 471600038774005539 := by decide +kernel

end SparkDev.Py
