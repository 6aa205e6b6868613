import Porcupine.Check.S2
import Porcupine.Check.Soundness
/-!
# What the histories of a stream show

What an `Ok` says of a stream without mention of its log: the tails that
were returned grow with time and their batches do not overlap
(`s2_ok_tails`), and an append that is guarded by a token does not succeed
after another token was set, unless its own was set again
(`s2_ok_fenced`).
-/

namespace Porcupine

open Linearization

/-- An `Ok` for a specification that does not partition its events is
backed by a branch. -/
theorem NondeterministicModel.linearizable_of_ok {State Input Output : Type} [BEq State]
    [LawfulBEq State] {m : NondeterministicModel State Input Output} {debug : Bool}
    {srt : UnstableSort (List (Entry Input Output))} {timeout : Option ℕ}
    {events : List (Event Input Output)} {ops : List (Operation Input Output)}
    {c : Check (List State) Input Output} (hpart : m.partitionEvents events = none)
    (hne : m.init ≠ []) (hsize : events.length < 2 ^ 32 - 1)
    (hgate : debug = false → assertWellFormedEvents true events = .ok ())
    (hops : OperationsOf events ops)
    (h : (checker debug srt (PowerSetModel m)).Reachable
      (checkEvents debug (PowerSetModel m) events timeout) c)
    (hr : (checker debug srt (PowerSetModel m)).result c = some .ok) :
    (∀ op ∈ ops, op.WellFormed) ∧ m.HistoryLinearizable ops := by
  have hpart' : (PowerSetModel m).partitionEvents events = none := hpart
  have hwhole : ∀ {P : List (List ℕ) → Prop} parts,
      (PowerSetModel m).partitionEvents events = some parts → P parts :=
    fun parts hsome => by rw [hpart'] at hsome; cases hsome
  have hpassed : assertWellFormedEvents true events = .ok () := by
    cases debug with
    | false => exact hgate rfl
    | true =>
      obtain ⟨partitions, hps⟩ := exists_partitions_of_result h hr
      exact (eventsGate_of_eventPartitions hps).history
  obtain ⟨hp, hfirst⟩ := assertWellFormedEvents_iff.1 hpassed
  have hexp : EventsExplained (PowerSetModel m) events :=
    eventsExplained_of_ok ⟨fun _ => hsize, hwhole⟩ (fun _ => ⟨hpassed, hwhole⟩) h hr
  refine ⟨hops.wellFormed hfirst, ?_⟩
  rw [← historyLinearizable_powerSetModel (Or.inr hne), ← hops.linearizable_iff hp.nodup_kind]
  exact hexp.whole hpart'

/-- The tail that an operation returned. -/
def S2Output.tail? : S2Output → Option UInt32
  | .appendSuccess tail => some tail
  | .readSuccess tail _ => some tail
  | .checkTailSuccess tail => some tail
  | _ => none

/-- How many records it was to append. -/
def S2Input.records : S2Input → ℕ
  | .append numRecords .. => numRecords.toNat
  | _ => 0

namespace S2

variable {log : List Batch} {b : Batch} {op : Operation S2Input S2Output} {place : Place}
variable {ops : List (Operation S2Input S2Output)}
variable {placed : List (Operation S2Input S2Output × Place)}

/-- A tail and the hash of the record before it, which reads return and
appends bring about. -/
def stamp (op : Operation S2Input S2Output) : Option (UInt32 × UInt64) :=
  match op.input, op.output with
  | .append _ xxh3 .., .appendSuccess tail => some (tail, xxh3)
  | .read, .readSuccess tail xxh3 => some (tail, xxh3)
  | _, _ => none

/-- It succeeded on the condition that the tail was this. -/
def Claims (op : Operation S2Input S2Output) (msn : UInt32) : Prop :=
  ∃ numRecords xxh3 setFencingToken fencingToken tail,
    op.input = .append numRecords xxh3 setFencingToken fencingToken (some msn) ∧
      op.output = .appendSuccess tail

/-- **Tails agree**: what is called later returns a later tail, by what it
appends; no tail that is returned lies within a batch; of the appends
conditional on one tail one succeeds; and where no batch is empty a tail
has one hash. -/
structure TailsAgree (ops : List (Operation S2Input S2Output)) : Prop where
  ordered : ∀ a ∈ ops, ∀ b ∈ ops, a.Before b → ∀ p q, a.output.tail? = some p →
    b.output.tail? = some q → p.toNat + b.input.records ≤ q.toNat
  apart : ops.Pairwise fun a b => ∀ p q, a.output.tail? = some p → b.output.tail? = some q →
    p.toNat + b.input.records ≤ q.toNat ∨ q.toNat + a.input.records ≤ p.toNat
  exclusive : ops.Pairwise fun a b => ∀ msn, Claims a msn → Claims b msn →
    a.input.records = 0 ∨ b.input.records = 0
  sameHash : (∀ op ∈ ops, ∀ n x set token seq, op.input = .append n x set token seq → 0 < n) →
    ∀ a ∈ ops, ∀ b ∈ ops, ∀ tail x y, stamp a = some (tail, x) → stamp b = some (tail, y) → x = y

/-- It may have made the token the stream's, -/
def Installs (op : Operation S2Input S2Output) (token : String) : Prop :=
  ∃ numRecords xxh3 fencingToken matchSeqNum,
    op.input = .append numRecords xxh3 (some token) fencingToken matchSeqNum ∧
      (op.output = .appendIndefiniteFailure ∨ ∃ tail, op.output = .appendSuccess tail)

/-- it has, -/
def Installed (op : Operation S2Input S2Output) (token : String) : Prop :=
  ∃ numRecords xxh3 fencingToken matchSeqNum tail,
    op.input = .append numRecords xxh3 (some token) fencingToken matchSeqNum ∧
      op.output = .appendSuccess tail

/-- and it succeeded under the guard of the token. -/
def Guarded (op : Operation S2Input S2Output) (token : String) : Prop :=
  ∃ numRecords xxh3 setFencingToken matchSeqNum tail,
    op.input = .append numRecords xxh3 setFencingToken (some token) matchSeqNum ∧
      op.output = .appendSuccess tail

/-- **Tokens fence**: an append that a token guards does not succeed unless
another has set the token, and after an append that set a different one it
does not unless another has set it since. -/
structure Fenced (ops : List (Operation S2Input S2Output)) : Prop where
  installed : ∀ w ∈ ops, ∀ token, Guarded w token →
    ∃ op ∈ ops, op ≠ w ∧ Installs op token ∧ ¬ w.Before op
  reinstalled : ∀ b ∈ ops, ∀ w ∈ ops, ∀ token new, Installed b new → Guarded w token →
    token ≠ new → b.Before w →
    ∃ op ∈ ops, op ≠ w ∧ Installs op token ∧ ¬ op.Before b ∧ ¬ w.Before op

/-! ## Prefixes of the log -/

theorem records_take_le {m n : ℕ} (h : m ≤ n) : records (log.take m) ≤ records (log.take n) := by
  obtain ⟨rest, hrest⟩ := List.take_prefix_take_left (l := log) h
  rw [← hrest, records_append]
  exact Nat.le_add_right _ _

/-- A longer prefix holds more records where no batch is empty. -/
theorem records_take_lt {m n : ℕ} (hpos : ∀ b ∈ log, 0 < b.numRecords) (h : m < n)
    (hn : n ≤ log.length) : records (log.take m) < records (log.take n) := by
  have hm : m < log.length := by omega
  have hle : records (log.take (m + 1)) ≤ records (log.take n) := records_take_le h
  rw [List.take_add_one, List.getElem?_eq_getElem hm, records_append] at hle
  have hb : 0 < (log[m]).numRecords.toNat := hpos _ (List.getElem_mem hm)
  simp only [Option.toList_some, records_singleton] at hle
  omega

theorem take_le_records {n : ℕ} : records (log.take n) ≤ records log := by
  obtain ⟨rest, hrest⟩ := List.take_prefix n log
  calc records (log.take n) ≤ records (log.take n) + records rest := Nat.le_add_right _ _
    _ = records log := by rw [← records_append, hrest]

/-- **The token of a prefix was set by a batch of it**, and by none
since. -/
theorem exists_of_tokenOf_take {m : ℕ} {token : String} (h : tokenOf (log.take m) = some token) :
    ∃ j b, j < m ∧ log[j]? = some b ∧ b.setFencingToken = some token ∧
      ∀ i b', j < i → i < m → log[i]? = some b' → b'.setFencingToken = none := by
  induction m with
  | zero => cases h
  | succ m ih =>
    rw [List.take_add_one] at h
    cases hget : log[m]? with
    | none =>
      rw [hget, Option.toList_none, List.append_nil] at h
      obtain ⟨j, b, hj, hb, hset, hlast⟩ := ih h
      refine ⟨j, b, by omega, hb, hset, fun i b' hi him hb' => ?_⟩
      rcases Nat.lt_succ_iff_lt_or_eq.1 him with hlt | rfl
      · exact hlast i b' hi hlt hb'
      · rw [hget] at hb'
        cases hb'
    | some b =>
      rw [hget, Option.toList_some, tokenOf_append] at h
      cases hset : b.setFencingToken with
      | some t =>
        rw [hset] at h
        cases h
        exact ⟨m, b, by omega, hget, hset, fun i b' hi him => by omega⟩
      | none =>
        rw [hset] at h
        obtain ⟨j, b', hj, hb', hset', hlast⟩ := ih h
        refine ⟨j, b', by omega, hb', hset', fun i b'' hi him hb'' => ?_⟩
        rcases Nat.lt_succ_iff_lt_or_eq.1 him with hlt | rfl
        · exact hlast i b'' hi hlt hb''
        · rw [hget] at hb''
          cases hb''
          exact hset

/-! ## Operations in their places -/

/-- **An append that succeeded added its batch**, where its guards held. -/
theorem exists_added {numRecords : UInt32} {xxh3 : UInt64} {setFencingToken fencingToken : Option String}
    {matchSeqNum : Option UInt32} {tail : UInt32} (hfit : place.Fits Keeps Adds log op)
    (hin : op.input = .append numRecords xxh3 setFencingToken fencingToken matchSeqNum)
    (hout : op.output = .appendSuccess tail) :
    ∃ k, place = .added k ∧ log[k]? = some ⟨numRecords, xxh3, setFencingToken⟩ ∧
      (∀ bt, fencingToken = some bt → tokenOf (log.take k) = some bt) ∧
      (∀ msn, matchSeqNum = some msn → msn = tailOf (log.take k)) ∧
      tail = tailOf (log.take (k + 1)) := by
  cases place with
  | saw n =>
    obtain ⟨-, hkeep⟩ := hfit
    simp only [Keeps, hin, hout] at hkeep
  | added k =>
    obtain ⟨b, hb, hadd⟩ := hfit
    simp only [Adds, hin, hout] at hadd
    obtain ⟨rfl, htoken, hseq, htail⟩ := hadd
    refine ⟨k, rfl, hb, htoken, hseq, ?_⟩
    rw [List.take_add_one, hb]
    exact htail

/-- A batch is that of an append that succeeded or whose fate is
unknown. -/
theorem append_of_adds (h : Adds log op b) : ∃ fencingToken matchSeqNum,
    op.input = .append b.numRecords b.xxh3 b.setFencingToken fencingToken matchSeqNum ∧
      (op.output = .appendIndefiniteFailure ∨ ∃ tail, op.output = .appendSuccess tail) := by
  obtain ⟨client, input, call, output, ret⟩ := op
  cases input <;> cases output <;> simp_all [Adds]

/-- An operation that kept the log returned its tail and hash, -/
theorem returned_of_keeps (h : Keeps log op) :
    (∀ tail, op.output.tail? = some tail → tail = tailOf log ∧ op.input.records = 0) ∧
      ∀ tail x, stamp op = some (tail, x) → tail = tailOf log ∧ x = hashOf log := by
  obtain ⟨client, input, call, output, ret⟩ := op
  cases input <;> cases output <;>
    simp_all [Keeps, S2Output.tail?, S2Input.records, stamp]

/-- and one that added a batch those it then had. -/
theorem returned_of_adds (h : Adds log op b) :
    op.input.records = b.numRecords.toNat ∧
      (∀ tail, op.output.tail? = some tail → tail = tailOf (log ++ [b])) ∧
      ∀ tail x, stamp op = some (tail, x) → tail = tailOf (log ++ [b]) ∧ x = hashOf (log ++ [b]) := by
  obtain ⟨client, input, call, output, ret⟩ := op
  cases input <;> cases output <;>
    simp_all [Adds, S2Output.tail?, S2Input.records, stamp]

/-- **What was returned is read off the log after the operation**, which
holds what the operation appended. -/
theorem returned_of_fits (hfit : place.Fits Keeps Adds log op) :
    (∀ tail, op.output.tail? = some tail → tail = tailOf (log.take place.after) ∧
      records (log.take place.after) = records (log.take place.before) + op.input.records) ∧
      ∀ tail x, stamp op = some (tail, x) →
        tail = tailOf (log.take place.after) ∧ x = hashOf (log.take place.after) := by
  cases place with
  | saw n =>
    obtain ⟨htail, hstamp⟩ := returned_of_keeps hfit.2
    refine ⟨fun tail hout => ⟨(htail tail hout).1, ?_⟩, hstamp⟩
    rw [(htail tail hout).2]
    rfl
  | added k =>
    obtain ⟨b, hb, hadd⟩ := hfit
    obtain ⟨hrec, htail, hstamp⟩ := returned_of_adds hadd
    have hafter : log.take (k + 1) = log.take k ++ [b] := by
      rw [List.take_add_one, hb, Option.toList_some]
    simp only [Place.after_added, Place.before_added, hafter, records_append, records_singleton]
    exact ⟨fun tail hout => ⟨htail tail hout, by rw [hrec]⟩, hstamp⟩

/-- Tails count the records where these are not too many. -/
theorem toNat_tailOf {n : ℕ} (h : records log < 2 ^ 32) :
    (tailOf (log.take n)).toNat = records (log.take n) := by
  have hle : records (log.take n) ≤ records log := take_le_records
  rw [tailOf, UInt32.toNat_ofNat']
  exact Nat.mod_eq_of_lt (by omega)

/-! ## Tails -/

/-- A linearizable history has a log, no longer than what its operations
append. -/
theorem exists_ledger (hwf : ∀ op ∈ ops, op.WellFormed) (h : S2StreamModel.HistoryLinearizable ops) :
    ∃ (log : List Batch) (placed : List (Operation S2Input S2Output × Place)),
      placed.map Prod.fst = ops ∧ Ledger Keeps Adds Operation.Before log placed ∧
        records log ≤ (ops.map fun op => op.input.records).sum := by
  obtain ⟨order, hperm, hr, hpath⟩ := h
  obtain ⟨log, hgrows⟩ := exists_path_iff_grows.1 hpath
  have hirr : ∀ op ∈ order, ¬ op.Before op := fun op hop hbefore =>
    absurd (hwf op (hperm.mem_iff.1 hop)) (Nat.not_le.2 hbefore)
  obtain ⟨placed, hops, hledger⟩ := hgrows.exists_ledger hr hirr hperm
  have hsum := hgrows.sum_le (fun b => b.numRecords.toNat) (fun op => op.input.records)
    fun log op b hadd => (returned_of_adds hadd).1.ge
  rw [(hperm.map _).sum_eq] at hsum
  exact ⟨log, placed, hops, hledger, by simpa [records] using hsum⟩

section Tails

variable {p q : Operation S2Input S2Output × Place} {tail tail' msn : UInt32}

/-- A tail that was returned counts the records. -/
theorem toNat_tail (h : Ledger Keeps Adds Operation.Before log placed)
    (hlog : records log < 2 ^ 32) (hp : p ∈ placed) (ht : p.1.output.tail? = some tail) :
    tail.toNat = records (log.take p.2.after) ∧
      tail.toNat = records (log.take p.2.before) + p.1.input.records := by
  obtain ⟨htail, hrec⟩ := (returned_of_fits (h.fits p hp)).1 tail ht
  have hnat : tail.toNat = records (log.take p.2.after) := by rw [htail, toNat_tailOf hlog]
  exact ⟨hnat, hnat.trans hrec⟩

/-- Placed later, it counts more. -/
theorem tail_add_le (h : Ledger Keeps Adds Operation.Before log placed)
    (hlog : records log < 2 ^ 32) (hp : p ∈ placed) (hq : q ∈ placed)
    (hle : p.2.after ≤ q.2.before) (ht : p.1.output.tail? = some tail)
    (ht' : q.1.output.tail? = some tail') :
    tail.toNat + q.1.input.records ≤ tail'.toNat := by
  have hp' := (toNat_tail h hlog hp ht).1
  have hq' := (toNat_tail h hlog hq ht').2
  have hmono : records (log.take p.2.after) ≤ records (log.take q.2.before) := records_take_le hle
  omega

/-- An append conditional on a tail returned that tail and its records. -/
theorem tail_of_claims (h : Ledger Keeps Adds Operation.Before log placed)
    (hlog : records log < 2 ^ 32) (hp : p ∈ placed) (hclaims : Claims p.1 msn) :
    ∃ tail, p.1.output.tail? = some tail ∧ tail.toNat = msn.toNat + p.1.input.records := by
  obtain ⟨numRecords, xxh3, setFencingToken, fencingToken, tail, hin, hout⟩ := hclaims
  have ht : p.1.output.tail? = some tail := by
    rw [hout]
    rfl
  obtain ⟨k, hk, -, -, hseq, -⟩ := exists_added (h.fits p hp) hin hout
  refine ⟨tail, ht, ?_⟩
  rw [(toNat_tail h hlog hp ht).2, hseq msn rfl, toNat_tailOf hlog, hk, Place.before_added]

/-- **The tails that a log explains agree**, while they count its
records. -/
theorem tailsAgree_of_ledger (h : Ledger Keeps Adds Operation.Before log placed)
    (hlog : records log < 2 ^ 32) : TailsAgree (placed.map Prod.fst) where
  ordered := by
    simp only [List.forall_mem_map]
    intro p hp q hq hbefore tail tail' ht ht'
    exact tail_add_le h hlog hp hq (h.order p hp q hq hbefore) ht ht'
  apart := by
    refine List.pairwise_map.2 (h.comparable.imp_of_mem fun {p q} hp hq hle tail tail' ht ht' => ?_)
    rcases hle with hle | hle
    · exact Or.inl (tail_add_le h hlog hp hq hle ht ht')
    · exact Or.inr (tail_add_le h hlog hq hp hle ht' ht)
  exclusive := by
    refine List.pairwise_map.2 (h.comparable.imp_of_mem fun {p q} hp hq hle msn hcp hcq => ?_)
    obtain ⟨tail, ht, hnat⟩ := tail_of_claims h hlog hp hcp
    obtain ⟨tail', ht', hnat'⟩ := tail_of_claims h hlog hq hcq
    rcases hle with hle | hle
    · have hadd := tail_add_le h hlog hp hq hle ht ht'
      omega
    · have hadd := tail_add_le h hlog hq hp hle ht' ht
      omega
  sameHash := by
    intro hpos
    simp only [List.forall_mem_map] at hpos ⊢
    have hbatch : ∀ b ∈ log, 0 < b.numRecords := by
      intro b hb
      obtain ⟨k, hk, rfl⟩ := List.getElem_of_mem hb
      obtain ⟨p, hp, hplace⟩ := h.source k hk
      have hfit := h.fits p hp
      rw [hplace] at hfit
      obtain ⟨b, hget, hadd⟩ := hfit
      obtain rfl : log[k] = b := (List.getElem?_eq_some_iff.1 hget).2
      obtain ⟨token, seq, hin, -⟩ := append_of_adds hadd
      exact hpos p hp _ _ _ _ _ hin
    intro p hp q hq tail x y hsx hsy
    obtain ⟨htail, rfl⟩ := (returned_of_fits (h.fits p hp)).2 tail x hsx
    obtain ⟨htail', rfl⟩ := (returned_of_fits (h.fits q hq)).2 tail y hsy
    -- as no batch is empty, the tail tells how many there are
    have hrec : records (log.take p.2.after) = records (log.take q.2.after) := by
      rw [← toNat_tailOf hlog, ← toNat_tailOf hlog, ← htail, ← htail']
    have hlen : ∀ p ∈ placed, p.2.after ≤ log.length := fun p hp => (h.fits p hp).after_le
    rcases Nat.lt_trichotomy p.2.after q.2.after with hlt | heq | hlt
    · exact absurd hrec (records_take_lt hbatch hlt (hlen q hq)).ne
    · rw [heq]
    · exact absurd hrec.symm (records_take_lt hbatch hlt (hlen p hp)).ne

end Tails

/-! ## Tokens -/

/-- **The batch that a guarded append relies on** was added by another
operation, and the batches since set no token. -/
theorem exists_installs (h : Ledger Keeps Adds Operation.Before log placed)
    (hnd : (placed.map Prod.fst).Nodup) {w : Operation S2Input S2Output × Place} {token : String}
    (hw : w ∈ placed) (hguard : Guarded w.1 token) :
    ∃ k j, w.2 = .added k ∧ j < k ∧ (∃ op ∈ placed, op.2 = .added j ∧ op.1 ≠ w.1 ∧
      Installs op.1 token) ∧
      (∀ b, log[j]? = some b → b.setFencingToken = some token) ∧
      ∀ i b, j < i → i < k → log[i]? = some b → b.setFencingToken = none := by
  obtain ⟨numRecords, xxh3, setFencingToken, matchSeqNum, tail, hin, hout⟩ := hguard
  obtain ⟨k, hk, -, htoken, -, -⟩ := exists_added (h.fits w hw) hin hout
  obtain ⟨j, b, hj, hb, hset, hlast⟩ := exists_of_tokenOf_take (htoken token rfl)
  obtain ⟨op, hop, hplace⟩ := h.source j (List.getElem?_eq_some_iff.1 hb).1
  have hfit := h.fits op hop
  rw [hplace] at hfit
  obtain ⟨b', hb', hadd⟩ := hfit
  obtain rfl : b = b' := Option.some.inj (hb.symm.trans hb')
  obtain ⟨fencingToken, seq, hinop, houtop⟩ := append_of_adds hadd
  rw [hset] at hinop
  refine ⟨k, j, hk, hj, ⟨op, hop, hplace, fun he => ?_, _, _, _, _, hinop, houtop⟩, fun c hc => ?_,
    hlast⟩
  · -- one operation has one place
    have heq := List.inj_on_of_nodup_map hnd hop hw he
    rw [heq, hk] at hplace
    cases hplace
    omega
  · rw [hb] at hc
    cases hc
    exact hset

/-- **A log fences its operations.** -/
theorem fenced_of_ledger (h : Ledger Keeps Adds Operation.Before log placed)
    (hnd : (placed.map Prod.fst).Nodup) : Fenced (placed.map Prod.fst) := by
  have hlater : ∀ w ∈ placed, ∀ op ∈ placed, ∀ k j, w.2 = .added k → op.2 = .added j → j < k →
      ¬ w.1.Before op.1 := by
    intro w hw op hop k j hk hj hlt hbefore
    have hle := h.order w hw op hop hbefore
    rw [hk, hj, Place.after_added, Place.before_added] at hle
    omega
  refine ⟨?_, ?_⟩ <;> simp only [List.forall_mem_map]
  · intro w hw token hguard
    obtain ⟨k, j, hk, hj, ⟨op, hop, hplace, hne, hinst⟩, -, -⟩ := exists_installs h hnd hw hguard
    exact ⟨op.1, List.mem_map_of_mem hop, hne, hinst, hlater w hw op hop k j hk hplace hj⟩
  · intro b hb w hw token new hinstalled hguard hne hbw
    obtain ⟨k, j, hk, hj, ⟨op, hop, hplace, hneop, hinst⟩, hset, hlast⟩ :=
      exists_installs h hnd hw hguard
    obtain ⟨numRecords, xxh3, fencingToken, matchSeqNum, tail, hin, hout⟩ := hinstalled
    obtain ⟨i, hi, hbatch, -, -, -⟩ := exists_added (h.fits b hb) hin hout
    have hik : i < k := by
      have hle := h.order b hb w hw hbw
      rwa [hi, hk, Place.after_added, Place.before_added] at hle
    -- the batch of `b` comes before the one that set the token again
    have hij : i < j := by
      rcases Nat.lt_trichotomy i j with hlt | rfl | hgt
      · exact hlt
      · have hsame := hset _ hbatch
        exact absurd (Option.some.inj hsame).symm hne
      · cases hlast i _ hgt hik hbatch
    exact ⟨op.1, List.mem_map_of_mem hop, hneop, hinst, hlater op hop b hb j i hplace hi hij,
      hlater w hw op hop k j hk hplace hj⟩

section Checked

variable {events : List (Event S2Input S2Output)} {c : Check (List S2StreamState) S2Input S2Output}

/-- **What an `Ok` says of tails**, under any timeout and schedule, of a
stream of fewer than `2 ^ 32` records. -/
theorem s2_ok_tails (debug : Bool) (srt : UnstableSort (List (Entry S2Input S2Output)))
    (timeout : Option ℕ) (hsize : events.length < 2 ^ 32 - 1)
    (hgate : debug = false → assertWellFormedEvents true events = .ok ())
    (hops : OperationsOf events ops)
    (hrecords : (ops.map fun op => op.input.records).sum < 2 ^ 32)
    (h : (checker debug srt (PowerSetModel S2StreamModel)).Reachable
      (checkEvents debug (PowerSetModel S2StreamModel) events timeout) c)
    (hr : (checker debug srt (PowerSetModel S2StreamModel)).result c = some .ok) :
    TailsAgree ops := by
  obtain ⟨hwf, hlin⟩ :=
    NondeterministicModel.linearizable_of_ok rfl (by decide) hsize hgate hops h hr
  obtain ⟨log, placed, rfl, hledger, hlog⟩ := exists_ledger hwf hlin
  exact tailsAgree_of_ledger hledger (by omega)

/-- **What an `Ok` says of fencing**, under any timeout and schedule. -/
theorem s2_ok_fenced (debug : Bool) (srt : UnstableSort (List (Entry S2Input S2Output)))
    (timeout : Option ℕ) (hsize : events.length < 2 ^ 32 - 1)
    (hgate : debug = false → assertWellFormedEvents true events = .ok ())
    (hops : OperationsOf events ops)
    (h : (checker debug srt (PowerSetModel S2StreamModel)).Reachable
      (checkEvents debug (PowerSetModel S2StreamModel) events timeout) c)
    (hr : (checker debug srt (PowerSetModel S2StreamModel)).result c = some .ok) :
    Fenced ops := by
  obtain ⟨hwf, hlin⟩ :=
    NondeterministicModel.linearizable_of_ok rfl (by decide) hsize hgate hops h hr
  obtain ⟨log, placed, rfl, hledger, -⟩ := exists_ledger hwf hlin
  exact fenced_of_ledger hledger hops.nodup

/-- A token passed to another client and back, by an append whose fate is
unknown, while the first client is appending under it. -/
def tokenPassed : List (Operation S2Input S2Output) :=
  [⟨0, .append 1 11 (some "a") none none, 0, .appendSuccess 1, 1⟩,
    ⟨1, .append 1 12 (some "b") (some "a") (some 1), 2, .appendSuccess 2, 3⟩,
    ⟨0, .append 1 13 none (some "a") none, 4, .appendSuccess 4, 6⟩,
    ⟨1, .append 1 14 (some "a") (some "b") (some 2), 5, .appendIndefiniteFailure, 7⟩]

/-- The same history as events. -/
def tokenPassedEvents : List (Event S2Input S2Output) :=
  [⟨0, .call, some (.append 1 11 (some "a") none none), none, 0⟩,
    ⟨0, .ret, none, some (.appendSuccess 1), 0⟩,
    ⟨1, .call, some (.append 1 12 (some "b") (some "a") (some 1)), none, 1⟩,
    ⟨1, .ret, none, some (.appendSuccess 2), 1⟩,
    ⟨0, .call, some (.append 1 13 none (some "a") none), none, 2⟩,
    ⟨1, .call, some (.append 1 14 (some "a") (some "b") (some 2)), none, 3⟩,
    ⟨0, .ret, none, some (.appendSuccess 4), 2⟩,
    ⟨1, .ret, none, some .appendIndefiniteFailure, 3⟩]

theorem operationsOf_tokenPassed : OperationsOf tokenPassedEvents tokenPassed := by
  refine ⟨[0, 1, 2, 3], by decide, fun id => ?_, ?_⟩
  · simp only [tokenPassedEvents, List.mem_cons, List.not_mem_nil, or_false, exists_eq_or_imp,
      exists_eq_left]
    omega
  · refine .cons ?_ (.cons ?_ (.cons ?_ (.cons ?_ .nil))) <;>
      exact ⟨⟨_, rfl, rfl, rfl, rfl⟩, ⟨_, rfl, rfl, rfl, rfl⟩⟩

/-- A debug build returns `Ok`. -/
theorem exists_ok_tokenPassed : ∃ c,
    (checker true (.insertion _) (PowerSetModel S2StreamModel)).Reachable
      (checkEvents true (PowerSetModel S2StreamModel) tokenPassedEvents none) c ∧
      (checker true (.insertion _) (PowerSetModel S2StreamModel)).result c = some .ok := by
  have hrun : ((checker true (.insertion _) (PowerSetModel S2StreamModel)).runs (fun _ _ => true)
      (.replicate 10 .main) (checkEvents true (PowerSetModel S2StreamModel) tokenPassedEvents
        none)).bind Check.result = some .ok := by decide +kernel
  obtain ⟨c, hc, hret⟩ := Option.bind_eq_some_iff.1 hrun
  exact ⟨c, .of_runs (fun _ _ _ => trivial) hc, hret⟩

theorem s2_ok_tails_tokenPassed : TailsAgree tokenPassed := by
  obtain ⟨c, hc, hret⟩ := exists_ok_tokenPassed
  exact s2_ok_tails true (.insertion _) none (by decide) nofun operationsOf_tokenPassed (by decide)
    hc hret

theorem s2_ok_fenced_tokenPassed : Fenced tokenPassed := by
  obtain ⟨c, hc, hret⟩ := exists_ok_tokenPassed
  exact s2_ok_fenced true (.insertion _) none (by decide) nofun operationsOf_tokenPassed hc hret

end Checked

end S2

end Porcupine
