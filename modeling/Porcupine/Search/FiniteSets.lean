import Porcupine.Search.Bitset
import Porcupine.Common.Loop
/-!
# The bitset refines finite sets

A bitset that has gone through any updates is the set that has gone through
the same insertions and removals (`Bitset.updates_refine`): one update does
to the words what it does to the set (`Bitset.Update.apply_ok`), and the
words say nothing but their set.
-/

namespace Porcupine

namespace Bitset

variable {b : Bitset} {pos n : ℕ}

/-- One call that changes a bitset. -/
inductive Update
  | set (pos : ℕ)
  | clear (pos : ℕ)
  deriving DecidableEq, Repr

namespace Update

/-- The position it names. -/
def position : Update → ℕ
  | set pos => pos
  | clear pos => pos

/-- What it does to the words. -/
def apply (b : Bitset) : Update → Result Bitset
  | set pos => b.set pos
  | clear pos => b.clear pos

/-- What it does to the set. -/
def applySet (S : Finset ℕ) : Update → Finset ℕ
  | set pos => insert pos S
  | clear pos => S.erase pos

/-- **One update** is one insertion or removal. -/
theorem apply_ok {u : Update} (h : u.position < 64 * b.data.length) :
    ∃ b', u.apply b = .ok b' ∧ b'.data.length = b.data.length ∧ b'.elems = u.applySet b.elems := by
  cases u with
  | set pos => exact elems_set h
  | clear pos => exact elems_clear h

end Update

/-- A bitset for `n` bits after the updates. -/
def updated (n : ℕ) (us : List Update) : Result Bitset := us.foldlM Update.apply (new n)

/-- The set after them. -/
def setAfter (us : List Update) : Finset ℕ := us.foldl Update.applySet ∅

theorem lt_bits (hlen : b.data.length = (n + 63) / 64) (h : pos < n) :
    pos < 64 * b.data.length := by
  omega

/-- **Updates within the bitset go through**, and make of the words what
they make of the set. -/
theorem updated_ok {us : List Update} (h : ∀ u ∈ us, u.position < n) :
    ∃ b, updated n us = .ok b ∧ b.data.length = (n + 63) / 64 ∧ b.elems = setAfter us := by
  refine Loop.foldlM_ok (I := fun pre (b : Bitset) =>
    b.data.length = (n + 63) / 64 ∧ b.elems = setAfter pre) ⟨length_new, elems_new⟩ ?_
  rintro pre u post b rfl ⟨hlen, helems⟩
  obtain ⟨b', hb', hlen', helems'⟩ := Update.apply_ok (lt_bits hlen (h u (by simp)))
  refine ⟨b', hb', hlen'.trans hlen, ?_⟩
  rw [helems', helems, setAfter, setAfter, List.foldl_append, List.foldl_cons, List.foldl_nil]

/-- **The bitset refines finite sets.** After any updates within `n` bits
the words stand for the set after the same insertions and removals: its
members are the bits that are set, `popcnt` is its cardinality, `==` is
equality of the sets, clearing undoes setting a bit that was clear, and
`eq_with_bit` compares the one set, with the bit inserted, to the other. -/
theorem updates_refine (n : ℕ) (us : List Update) (hus : ∀ u ∈ us, u.position < n) :
    ∃ a, updated n us = .ok a ∧ (∀ i, a.has i = true ↔ i ∈ setAfter us) ∧
      a.popcnt = (setAfter us).card ∧
      (∀ pos < n, pos ∉ setAfter us → (a.set pos >>= fun c => c.clear pos) = .ok a) ∧
      ∀ us' : List Update, (∀ u ∈ us', u.position < n) → ∃ b, updated n us' = .ok b ∧
        ((a == b) = true ↔ setAfter us = setAfter us') ∧
        ∀ pos < n, (a.eqWithBit pos b = true ↔ insert pos (setAfter us) = setAfter us') := by
  obtain ⟨a, ha, hlen, helems⟩ := updated_ok hus
  refine ⟨a, ha, fun i => ?_, ?_, fun pos hpos hclear => ?_, fun us' hus' => ?_⟩
  · rw [← helems, mem_elems]
  · rw [← helems, popcnt_eq_card]
  · exact clear_set (lt_bits hlen hpos) (helems ▸ hclear)
  · obtain ⟨b, hb, hlen', helems'⟩ := updated_ok hus'
    have hwords : a.data.length = b.data.length := hlen.trans hlen'.symm
    refine ⟨b, hb, ?_, fun pos hpos => ?_⟩
    · rw [beq_iff_eq, ← elems_inj hwords, helems, helems']
    · rw [eqWithBit_iff_insert hwords (lt_bits hlen hpos), helems, helems']

/-- Either side of the boundary between two words. -/
theorem updates_refine_twoWords :
    ∃ a, updated 65 [.set 63, .set 64, .clear 63] = .ok a ∧ a.popcnt = 1 ∧
      ∃ b, updated 65 [.set 64, .set 0] = .ok b ∧ (a.eqWithBit 0 b = true) := by
  obtain ⟨a, ha, -, hcount, -, hpairs⟩ :=
    updates_refine 65 [.set 63, .set 64, .clear 63] (by decide)
  obtain ⟨b, hb, -, hprobe⟩ := hpairs [.set 64, .set 0] (by decide)
  refine ⟨a, ha, hcount.trans (by decide), b, hb, (hprobe 0 (by decide)).2 (by decide)⟩

end Bitset

end Porcupine
