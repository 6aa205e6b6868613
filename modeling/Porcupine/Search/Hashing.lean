import Porcupine.Search.Bitset
import Mathlib.Data.Nat.Bitwise
/-!
# Hashes of bitsets

`hash` adds the number of set bits to the words without carrying, and
`hash_with_bit` turns the lowest bit of that number over where it ought to
add one. The two agree when the number is even
(`Bitset.hashWithBit_eq_hash_iff`). The keys of `hash_with_bit` are
nevertheless keys of sets: they do not depend on which bit came last
(`Bitset.hashWithBit_congr`).
-/

namespace Porcupine

namespace Bitset

variable {b b' c c' : Bitset} {pos pos' : ℕ}

/-- Turning the lowest bit over adds one to the even numbers, and to no
others. -/
theorem ofNat_succ_eq_xor_one_iff {k : ℕ} :
    BitVec.ofNat 64 (k + 1) = BitVec.ofNat 64 k ^^^ 1#64 ↔ Even k := by
  have hlt : k % 2 ^ 64 < 2 ^ 64 := Nat.mod_lt _ (Nat.two_pow_pos 64)
  have hparity : Even (k % 2 ^ 64) ↔ Even k := by
    rw [Nat.even_iff, Nat.even_iff]
    omega
  rw [← BitVec.toNat_inj, BitVec.toNat_xor, BitVec.toNat_ofNat, BitVec.toNat_ofNat,
    show (1#64).toNat = 1 from rfl, ← hparity]
  generalize hm : k % 2 ^ 64 = m at hlt
  have hsucc : (k + 1) % 2 ^ 64 = if m + 1 = 2 ^ 64 then 0 else m + 1 := by
    split <;> omega
  rcases Nat.even_or_odd m with heven | hodd
  · rw [Nat.xor_one_of_even heven, hsucc, if_neg]
    · exact iff_of_true rfl heven
    · rw [Nat.even_iff] at heven
      omega
  · rw [Nat.xor_one_of_odd hodd, hsucc]
    refine iff_of_false (fun he => ?_) (Nat.not_even_iff_odd.2 hodd)
    rw [Nat.odd_iff] at hodd
    split at he <;> omega

theorem hash_eq (b : Bitset) : b.hash = BitVec.ofNat 64 b.popcnt ^^^ b.parity := foldl_xor _ _

/-- **The incremental hash agrees with the plain one exactly when an even
number of bits is set.** -/
theorem hashWithBit_eq_hash_iff (b c : Bitset) (pos : ℕ) (hrange : pos < 64 * b.data.length)
    (hclear : b.has pos = false) (hset : b.set pos = .ok c) :
    b.hashWithBit pos = .ok c.hash ↔ Even b.popcnt := by
  have h : pos / 64 < b.data.length := by omega
  rw [hashWithBit_eq_key h hclear hset, Except.ok.injEq, hash_eq, key, popcnt_set h hclear hset,
    Nat.add_sub_cancel, BitVec.xor_assoc, BitVec.xor_comm c.parity, ← BitVec.xor_assoc,
    ← ofNat_succ_eq_xor_one_iff]
  exact ⟨fun he => ((BitVec.xor_left_inj _).1 he).symm, fun he => by rw [he]⟩

/-- The second of two bits is added to an odd number of bits. -/
theorem hashWithBit_ne_hash_twoBits :
    ¬ ∀ (b c : Bitset) (pos : ℕ), pos < 64 * b.data.length → b.has pos = false →
      b.set pos = .ok c → b.hashWithBit pos = .ok c.hash := by
  intro h
  have hbits := h ⟨[1#64]⟩ ⟨[3#64]⟩ 1 (by decide) (by decide) (by decide)
  revert hbits
  decide

/-- With two bits set, in two words, the third gives the hash. -/
theorem hashWithBit_eq_hash_thirdBit :
    (Bitset.mk [1#64, 1#64]).hashWithBit 127 =
      .ok (Bitset.mk [1#64, 0x8000000000000001#64]).hash :=
  (hashWithBit_eq_hash_iff ⟨[1#64, 1#64]⟩ ⟨[1#64, 0x8000000000000001#64]⟩ 127 (by decide)
    (by decide) (by decide)).2 (by decide)

/-! ## Keys are of sets -/

/-- Lists of words that differ in zeros at their ends. -/
theorem padded_induction {P : List (BitVec 64) → List (BitVec 64) → Prop} (nil : P [] [])
    (left : ∀ l, P l [] → P (0#64 :: l) []) (right : ∀ l, P [] l → P [] (0#64 :: l))
    (cons : ∀ v l l', P l l' → P (v :: l) (v :: l')) (l l' : List (BitVec 64))
    (h : ∀ k : ℕ, l[k]?.getD 0#64 = l'[k]?.getD 0#64) : P l l' := by
  induction l generalizing l' with
  | nil =>
    induction l' with
    | nil => exact nil
    | cons v l' ih =>
      obtain rfl : 0#64 = v := by simpa using h 0
      exact right l' (ih fun k => by simpa using h (k + 1))
  | cons v l ih =>
    cases l' with
    | nil =>
      obtain rfl : v = 0#64 := by simpa using h 0
      exact left l (ih [] fun k => by simpa using h (k + 1))
    | cons v' l' =>
      obtain rfl : v = v' := by simpa using h 0
      exact cons v l l' (ih l' fun k => by simpa using h (k + 1))

/-- **The key is that of a set**, however many words hold it. -/
theorem key_eq_of_has (h : ∀ i, c.has i = c'.has i) : c.key = c'.key := by
  have hword : ∀ k : ℕ, c.data[k]?.getD 0#64 = c'.data[k]?.getD 0#64 := by
    intro k
    refine BitVec.eq_of_getLsbD_eq fun j hj => ?_
    have hdiv : (64 * k + j) / 64 = k := by omega
    have hmod : (64 * k + j) % 64 = j := by omega
    have hbit : ∀ o : Option (BitVec 64), (o.getD 0#64).getLsbD j = o.any fun v => v.getLsbD j := by
      intro o
      cases o <;> simp
    have hhas := h (64 * k + j)
    rw [has, has, hdiv, hmod] at hhas
    rw [hbit, hbit, hhas]
  have hcount : c.popcnt = c'.popcnt :=
    padded_induction (P := fun l l' => (l.map countOnes).sum = (l'.map countOnes).sum) rfl
      (fun l hl => by simpa [countOnes] using hl) (fun l hl => by simpa [countOnes] using hl)
      (fun v l l' hl => by simp [hl]) _ _ hword
  have hparity : c.parity = c'.parity :=
    padded_induction (P := fun l l' =>
      l.foldl (fun h v => h ^^^ v) 0#64 = l'.foldl (fun h v => h ^^^ v) 0#64) rfl
      (fun l hl => by simpa using hl) (fun l hl => by simpa using hl)
      (fun v l l' hl => by rw [List.foldl_cons, List.foldl_cons, foldl_xor, hl, ← foldl_xor]) _ _ hword
  rw [key, key, hcount, hparity]

/-- **The key depends on the resulting set only**: not on the set it comes
from, nor on the bit that makes the difference. -/
theorem hashWithBit_congr (hrange : pos < 64 * b.data.length) (hrange' : pos' < 64 * b'.data.length)
    (hclear : b.has pos = false) (hclear' : b'.has pos' = false)
    (hset : ∀ i, (b.has i || decide (i = pos)) = (b'.has i || decide (i = pos'))) :
    b.hashWithBit pos = b'.hashWithBit pos' := by
  have h : pos / 64 < b.data.length := by omega
  have h' : pos' / 64 < b'.data.length := by omega
  obtain ⟨c, hc, -, hhas⟩ := has_set h
  obtain ⟨c', hc', -, hhas'⟩ := has_set h'
  rw [hashWithBit_eq_key h hclear hc, hashWithBit_eq_key h' hclear' hc']
  refine congrArg _ (key_eq_of_has fun i => ?_)
  rw [hhas, hhas', Bool.or_comm, hset, Bool.or_comm]

end Bitset

end Porcupine
