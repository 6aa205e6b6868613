import Porcupine.Model.Types
import Mathlib.Algebra.BigOperators.Group.List.Basic
/-!
# The bitset

`src/bitset.rs`. Bit layout: bits 0–63 in the first word, bits 64–127 in
the second, and so on.
-/

namespace Porcupine

/-- Compact bitset of 64-bit words. -/
structure Bitset where
  data : List (BitVec 64)
  deriving DecidableEq, Repr

/-- `count_ones`. -/
def countOnes (v : BitVec 64) : ℕ := (List.range 64).countP fun i => v.getLsbD i

namespace Bitset

/-- A bitset large enough to hold `n` bits, all initially zero. -/
def new (n : ℕ) : Bitset := ⟨List.replicate ((n + 63) / 64) 0#64⟩

def index (pos : ℕ) : ℕ × ℕ := (pos / 64, pos % 64)

/-- Set bit at `pos`. -/
def set (b : Bitset) (pos : ℕ) : Result Bitset := do
  let (major, minor) := index pos
  let word ← readAt b.data major
  return ⟨b.data.set major (word ||| 1#64 <<< minor)⟩

/-- Clear bit at `pos`. -/
def clear (b : Bitset) (pos : ℕ) : Result Bitset := do
  let (major, minor) := index pos
  let word ← readAt b.data major
  return ⟨b.data.set major (word &&& ~~~(1#64 <<< minor))⟩

/-- Count the number of set bits. -/
def popcnt (b : Bitset) : ℕ := (b.data.map countOnes).sum

/-- Hash of the bitset: `popcnt XOR chunk[0] XOR chunk[1] XOR ...`. -/
def hash (b : Bitset) : BitVec 64 :=
  b.data.foldl (fun h v => h ^^^ v) (BitVec.ofNat 64 b.popcnt)

/-- The hash that the bitset would have if bit `pos` were also set,
computed without setting it. -/
def hashWithBit (b : Bitset) (pos : ℕ) : Result (BitVec 64) := do
  let (major, minor) := index pos
  let oldWord ← readAt b.data major
  let newWord := oldWord ||| 1#64 <<< minor
  return b.hash ^^^ oldWord ^^^ newWord ^^^ 1#64

/-- Equality as if bit `pos` were set in the first bitset. -/
def eqWithBit (b : Bitset) (pos : ℕ) (other : Bitset) : Bool :=
  if b.data.length ≠ other.data.length then false
  else
    let (major, minor) := index pos
    (b.data.zip other.data).zipIdx.all fun ((a, o), i) =>
      (if i = major then a ||| 1#64 <<< minor else a) == o

end Bitset

end Porcupine
