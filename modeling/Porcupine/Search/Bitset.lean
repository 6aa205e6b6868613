import Porcupine.Model.Bitset
import Mathlib.Data.Finset.Card
/-!
# The bitset is a set

`Bitset.has` reads one bit. `set` and `clear` change the one they name
(`has_set`, `has_clear`), two bitsets of one length with the same bits are
equal, and probing with a bit is comparing with the bit set
(`eqWithBit_iff`). `Bitset.elems` is the set of the positions whose bits are
set: `set` inserts into it, `clear` erases from it, and `popcnt` counts it
(`popcnt_eq_card`).
-/

namespace Porcupine

namespace Bitset

variable {b b' c : Bitset} {pos i n : ℕ}

/-- Whether bit `i` is set. -/
def has (b : Bitset) (i : ℕ) : Bool := (b.data[i / 64]?).any fun word => word.getLsbD (i % 64)

theorem has_of_getElem? {word : BitVec 64} (h : b.data[i / 64]? = some word) :
    b.has i = word.getLsbD (i % 64) := by
  simp [has, h]

@[simp] theorem length_new : (new n).data.length = (n + 63) / 64 := by
  simp [new]

@[simp] theorem has_new : (new n).has i = false := by
  unfold has new
  rw [List.getElem?_replicate]
  split <;> simp

theorem getLsbD_bit {i j : ℕ} (hj : j < 64) : (1#64 <<< i).getLsbD j = decide (j = i) := by
  rw [BitVec.getLsbD_shiftLeft, BitVec.getLsbD_one]
  by_cases h : j = i
  · subst h
    simp [hj]
  · simp [hj, h]
    omega

/-- What a change to one word does to the bits. -/
theorem has_word {v : BitVec 64} (h : pos / 64 < b.data.length) :
    (Bitset.mk (b.data.set (pos / 64) v)).has i =
      if i / 64 = pos / 64 then v.getLsbD (i % 64) else b.has i := by
  unfold has
  by_cases hi : i / 64 = pos / 64
  · simp [hi, h]
  · simp [hi, List.getElem?_set_ne (Ne.symm hi)]

/-- **`set` sets the bit it names.** -/
theorem has_set (h : pos / 64 < b.data.length) :
    ∃ b', b.set pos = .ok b' ∧ b'.data.length = b.data.length ∧
      ∀ i, b'.has i = (decide (i = pos) || b.has i) := by
  have hword := List.getElem?_eq_getElem h
  refine ⟨_, by simp only [set, index, readAt_eq_ok.2 hword, Result.ok_bind, Result.pure_eq]; rfl,
    by simp, fun i => ?_⟩
  rw [has_word h]
  split
  · next hi =>
    rw [BitVec.getLsbD_or, getLsbD_bit (Nat.mod_lt _ (by omega)),
      ← has_of_getElem? (i := i) (by rw [hi]; exact hword), Bool.or_comm]
    congr 1
    exact decide_eq_decide.2 (by omega)
  · next hi =>
    have : i ≠ pos := fun he => hi (by rw [he])
    simp [this]

/-- **`clear` clears it.** -/
theorem has_clear (h : pos / 64 < b.data.length) :
    ∃ b', b.clear pos = .ok b' ∧ b'.data.length = b.data.length ∧
      ∀ i, b'.has i = (decide (i ≠ pos) && b.has i) := by
  have hword := List.getElem?_eq_getElem h
  refine ⟨_, by simp only [clear, index, readAt_eq_ok.2 hword, Result.ok_bind, Result.pure_eq]; rfl,
    by simp, fun i => ?_⟩
  rw [has_word h]
  split
  · next hi =>
    have hmod : i % 64 < 64 := Nat.mod_lt _ (by omega)
    rw [BitVec.getLsbD_and, BitVec.getLsbD_not, getLsbD_bit hmod,
      ← has_of_getElem? (i := i) (by rw [hi]; exact hword), Bool.and_comm]
    congr 1
    rw [decide_eq_true hmod, Bool.true_and, ← decide_not]
    exact decide_eq_decide.2 (by omega)
  · next hi =>
    have : i ≠ pos := fun he => hi (by rw [he])
    simp [this]

/-- The bits are the whole bitset. -/
theorem ext_has (hlen : b.data.length = b'.data.length) (h : ∀ i, b.has i = b'.has i) : b = b' := by
  obtain ⟨data⟩ := b
  obtain ⟨data'⟩ := b'
  congr 1
  refine List.ext_getElem hlen fun k hk hk' => BitVec.eq_of_getLsbD_eq fun j hj => ?_
  have hdiv : (64 * k + j) / 64 = k := by omega
  have hmod : (64 * k + j) % 64 = j := by omega
  simpa [has, hdiv, hmod, hk, hk'] using h (64 * k + j)

/-- **Probing with a bit is comparing with the bit set.** -/
theorem eqWithBit_iff (h : pos / 64 < b.data.length) :
    b.eqWithBit pos b' = true ↔ b.set pos = .ok b' := by
  obtain ⟨data'⟩ := b'
  have hword := List.getElem?_eq_getElem h
  simp only [set, index, readAt_eq_ok.2 hword, Result.ok_bind, Result.pure_eq, Except.ok.injEq,
    Bitset.mk.injEq]
  unfold eqWithBit
  by_cases hlen : b.data.length = data'.length
  · simp only [hlen, ne_eq, not_true_eq_false, if_false, index, List.all_eq_true]
    constructor
    · intro hall
      -- word by word, the one of `pos` apart
      refine List.ext_getElem (by simpa using hlen) fun k hk hk' => ?_
      have hkb : k < b.data.length := by simpa using hk
      have hmem : ((b.data[k], data'[k]), k) ∈ (b.data.zip data').zipIdx := by
        rw [List.mem_zipIdx_iff_getElem?]
        exact List.getElem?_zip_eq_some.2
          ⟨List.getElem?_eq_getElem hkb, List.getElem?_eq_getElem hk'⟩
      have heq := hall _ hmem
      simp only [beq_iff_eq] at heq
      rw [← heq, List.getElem_set]
      by_cases hm : k = pos / 64
      · subst hm
        simp
      · simp [hm, Ne.symm hm]
    · rintro rfl ⟨⟨x, y⟩, k⟩ hmem
      rw [List.mem_zipIdx_iff_getElem?] at hmem
      obtain ⟨hx, hy⟩ := List.getElem?_zip_eq_some.1 hmem
      simp only at hx hy ⊢
      rw [List.getElem?_set] at hy
      by_cases hm : k = pos / 64
      · subst hm
        rw [if_pos rfl, if_pos h] at hy
        rw [hword] at hx
        cases hx
        cases hy
        simp
      · rw [if_neg (Ne.symm hm), hx] at hy
        cases hy
        simp [hm]
  · refine iff_of_false (by simp [hlen]) fun he => hlen ?_
    simpa using congrArg List.length he

/-! ## Sets -/

/-- **The set the words stand for.** -/
def elems (b : Bitset) : Finset ℕ :=
  (Finset.range (64 * b.data.length)).filter fun i => b.has i = true

/-- A bit that is set has a word. -/
theorem lt_of_has (h : b.has i = true) : i < 64 * b.data.length := by
  by_contra hle
  have hnone : b.data[i / 64]? = none := by
    rw [List.getElem?_eq_none_iff]
    omega
  simp [has, hnone] at h

theorem mem_elems : i ∈ b.elems ↔ b.has i = true := by
  rw [elems, Finset.mem_filter, Finset.mem_range]
  exact and_iff_right_of_imp lt_of_has

@[simp] theorem elems_new : (new n).elems = ∅ := by
  ext i
  simp [mem_elems]

/-- **`set` inserts.** -/
theorem elems_set (h : pos < 64 * b.data.length) :
    ∃ b', b.set pos = .ok b' ∧ b'.data.length = b.data.length ∧ b'.elems = insert pos b.elems := by
  have hword : pos / 64 < b.data.length := by omega
  obtain ⟨b', hb', hlen, hhas⟩ := has_set hword
  refine ⟨b', hb', hlen, ?_⟩
  ext i
  rw [mem_elems, hhas, Finset.mem_insert, mem_elems, Bool.or_eq_true, decide_eq_true_eq]

/-- **`clear` erases.** -/
theorem elems_clear (h : pos < 64 * b.data.length) :
    ∃ b', b.clear pos = .ok b' ∧ b'.data.length = b.data.length ∧ b'.elems = b.elems.erase pos := by
  have hword : pos / 64 < b.data.length := by omega
  obtain ⟨b', hb', hlen, hhas⟩ := has_clear hword
  refine ⟨b', hb', hlen, ?_⟩
  ext i
  rw [mem_elems, hhas, Finset.mem_erase, mem_elems, Bool.and_eq_true, decide_eq_true_eq]

/-- **Bitsets with as many words are equal when their sets are.** -/
theorem elems_inj (hlen : b.data.length = b'.data.length) : b.elems = b'.elems ↔ b = b' := by
  constructor
  · intro he
    refine ext_has hlen fun i => ?_
    rw [Bool.eq_iff_iff, ← mem_elems, ← mem_elems, he]
  · rintro rfl
    rfl

/-- **Clearing a bit just set undoes it**, where the bit was clear. -/
theorem clear_set (h : pos < 64 * b.data.length) (hclear : pos ∉ b.elems) :
    (b.set pos >>= fun c => c.clear pos) = .ok b := by
  obtain ⟨c, hc, hlen, helems⟩ := elems_set h
  have hc' : pos < 64 * c.data.length := by omega
  obtain ⟨d, hd, hlen', helems'⟩ := elems_clear hc'
  have heq : d = b := by
    rw [← elems_inj (hlen'.trans hlen), helems', helems, Finset.erase_insert hclear]
  rw [hc, Result.ok_bind, hd, heq]

/-- **A probe hits where inserting the bit gives the other set.** -/
theorem eqWithBit_iff_insert (hlen : b.data.length = b'.data.length)
    (h : pos < 64 * b.data.length) :
    b.eqWithBit pos b' = true ↔ insert pos b.elems = b'.elems := by
  obtain ⟨c, hc, hlen', helems⟩ := elems_set h
  rw [eqWithBit_iff (by omega), hc, Except.ok.injEq, ← helems, elems_inj (hlen'.trans hlen)]

/-! ## Counting -/

/-- The first word holds the first bits, and the other words the rest. -/
theorem has_cons {v : BitVec 64} {data : List (BitVec 64)} :
    (∀ i < 64, (Bitset.mk (v :: data)).has i = v.getLsbD i) ∧
      ∀ i, (Bitset.mk (v :: data)).has (64 + i) = (Bitset.mk data).has i := by
  refine ⟨fun i hi => ?_, fun i => ?_⟩
  · simp [has, Nat.div_eq_of_lt hi, Nat.mod_eq_of_lt hi]
  · have hdiv : (64 + i) / 64 = i / 64 + 1 := by omega
    have hmod : (64 + i) % 64 = i % 64 := by omega
    simp [has, hdiv, hmod]

theorem popcnt_eq_countP (data : List (BitVec 64)) :
    (Bitset.mk data).popcnt = (List.range (64 * data.length)).countP (Bitset.mk data).has := by
  induction data with
  | nil => rfl
  | cons v data ih =>
    have hsplit : List.range (64 * (v :: data).length) =
        List.range 64 ++ (List.range (64 * data.length)).map (64 + ·) := by
      rw [List.length_cons, Nat.mul_succ, Nat.add_comm, List.range_add]
    have hfirst : (List.range 64).countP (Bitset.mk (v :: data)).has = countOnes v :=
      List.countP_congr fun i hi => by rw [has_cons.1 i (List.mem_range.1 hi)]
    have hrest : (List.range (64 * data.length)).countP ((Bitset.mk (v :: data)).has ∘ (64 + ·)) =
        (Bitset.mk data).popcnt := by
      rw [ih]
      exact List.countP_congr fun i _ => by rw [Function.comp_apply, has_cons.2]
    rw [hsplit, List.countP_append, List.countP_map, hfirst, hrest]
    rfl

/-- **`popcnt` counts the set.** -/
theorem popcnt_eq_card (b : Bitset) : b.popcnt = b.elems.card := by
  have hset : ((List.range (64 * b.data.length)).filter fun i => b.has i).toFinset = b.elems := by
    ext i
    simp [elems]
  rw [← hset, List.toFinset_card_of_nodup (List.nodup_range.filter _),
    ← List.countP_eq_length_filter]
  exact popcnt_eq_countP b.data

/-- **What setting a clear bit does to the words**: one set bit more. -/
theorem popcnt_set (h : pos / 64 < b.data.length) (hclear : b.has pos = false)
    (hset : b.set pos = .ok c) : c.popcnt = b.popcnt + 1 := by
  have hrange : pos < 64 * b.data.length := by omega
  obtain ⟨c', hc', -, helems⟩ := elems_set hrange
  cases hset.symm.trans hc'
  have hnot : pos ∉ b.elems := by
    rw [mem_elems, hclear]
    exact Bool.false_ne_true
  rw [popcnt_eq_card, popcnt_eq_card, helems, Finset.card_insert_of_notMem hnot]

/-! ## Keys -/

/-- The words, added up without carrying. -/
def parity (b : Bitset) : BitVec 64 := b.data.foldl (fun h v => h ^^^ v) 0#64

/-- The key under which a search finds the set. -/
def key (b : Bitset) : BitVec 64 := BitVec.ofNat 64 (b.popcnt - 1) ^^^ b.parity ^^^ 1#64

theorem foldl_xor (l : List (BitVec 64)) (h : BitVec 64) :
    l.foldl (fun h v => h ^^^ v) h = h ^^^ l.foldl (fun h v => h ^^^ v) 0#64 := by
  induction l generalizing h with
  | nil => simp
  | cons v l ih =>
    rw [List.foldl_cons, ih, List.foldl_cons, ih (0#64 ^^^ v), BitVec.zero_xor, BitVec.xor_assoc]

theorem foldl_xor_set {l : List (BitVec 64)} {k : ℕ} {old new : BitVec 64} (h : l[k]? = some old) :
    (l.set k new).foldl (fun h v => h ^^^ v) 0#64 =
      l.foldl (fun h v => h ^^^ v) 0#64 ^^^ old ^^^ new := by
  induction l generalizing k with
  | nil => cases h
  | cons v l ih =>
    cases k with
    | zero =>
      cases h
      rw [List.set_cons_zero, List.foldl_cons, List.foldl_cons, foldl_xor, foldl_xor l (0#64 ^^^ old)]
      grind
    | succ k =>
      rw [List.set_cons_succ, List.foldl_cons, List.foldl_cons, foldl_xor, foldl_xor l (0#64 ^^^ v), ih h]
      grind

/-- **The probe's key is that of the set with the bit**, wherever the bit
was clear. -/
theorem hashWithBit_eq_key (h : pos / 64 < b.data.length) (hclear : b.has pos = false)
    (hset : b.set pos = .ok c) : b.hashWithBit pos = .ok c.key := by
  have hcount := popcnt_set h hclear hset
  have hword := List.getElem?_eq_getElem h
  simp only [set, index, readAt_eq_ok.2 hword, Result.ok_bind, Result.pure_eq, Except.ok.injEq]
    at hset
  subst hset
  simp only [hashWithBit, index, readAt_eq_ok.2 hword, Result.ok_bind, Result.pure_eq, hash, key,
    hcount, parity, foldl_xor_set hword, Nat.add_sub_cancel, Except.ok.injEq]
  rw [foldl_xor]
  simp only [BitVec.xor_assoc]

/-! ## Bitsets of operations -/

/-- The bitset, sized for `n` operations, has exactly the bits of `ids`. -/
structure Holds (n : ℕ) (b : Bitset) (ids : List ℕ) : Prop where
  length : b.data.length = (n + 63) / 64
  has : ∀ i, b.has i = decide (i ∈ ids)

namespace Holds

variable {id : ℕ} {ids ids' : List ℕ}

theorem new : Holds n (new n) [] :=
  ⟨length_new, fun i => by simp⟩

theorem word_lt (h : Holds n b ids) (hid : id < n) : id / 64 < b.data.length := by
  rw [h.length]
  omega

theorem set (h : Holds n b ids) (hid : id < n) :
    ∃ b', b.set id = .ok b' ∧ Holds n b' (id :: ids) := by
  obtain ⟨b', hb, hlen, hhas⟩ := has_set (h.word_lt hid)
  exact ⟨b', hb, hlen.trans h.length, fun i => by rw [hhas, h.has]; simp⟩

theorem clear (h : Holds n b (id :: ids)) (hid : id < n) (hmem : id ∉ ids) :
    ∃ b', b.clear id = .ok b' ∧ Holds n b' ids := by
  obtain ⟨b', hb, hlen, hhas⟩ := has_clear (h.word_lt hid)
  refine ⟨b', hb, hlen.trans h.length, fun i => ?_⟩
  rw [hhas, h.has, ← Bool.decide_and]
  refine decide_eq_decide.2 ⟨?_, fun hi => ⟨?_, List.mem_cons_of_mem _ hi⟩⟩
  · rintro ⟨hne, hi⟩
    exact (List.mem_cons.1 hi).resolve_left hne
  · rintro rfl
    exact hmem hi

/-- Bitsets that hold the same operations are equal. -/
theorem ext (h : Holds n b ids) (h' : Holds n b' ids') (hids : ∀ i, i ∈ ids' ↔ i ∈ ids) :
    b = b' :=
  ext_has (h.length.trans h'.length.symm) fun i => by
    rw [h.has, h'.has]
    exact decide_eq_decide.2 (hids i).symm

/-- A probe hits on a bitset that holds the operation as well, and no
other. -/
theorem eqWithBit (h : Holds n b ids) (h' : Holds n b' ids') (hid : id < n) :
    b.eqWithBit id b' = true ↔ ∀ i, i ∈ ids' ↔ i ∈ id :: ids := by
  obtain ⟨c, hc, hcids⟩ := h.set hid
  rw [eqWithBit_iff (h.word_lt hid), hc]
  constructor
  · intro he i
    cases he
    rw [← decide_eq_decide, ← h'.has, ← hcids.has]
  · intro hids
    rw [hcids.ext h' hids]

theorem hashWithBit (h : Holds n b ids) (hid : id < n) (hmem : id ∉ ids) :
    ∃ c, b.set id = .ok c ∧ Holds n c (id :: ids) ∧ b.hashWithBit id = .ok c.key := by
  obtain ⟨c, hc, hcids⟩ := h.set hid
  exact ⟨c, hc, hcids, hashWithBit_eq_key (h.word_lt hid) (by simp [h.has, hmem]) hc⟩

end Holds

end Bitset

end Porcupine
