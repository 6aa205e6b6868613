import Porcupine.Common.Branching
import Mathlib.Algebra.Ring.Nat
import Mathlib.Data.List.Pairwise
import Mathlib.Data.Prod.Lex
/-!
# Append-only objects

An object may keep a log and, for an operation, either leave the log as it
is or add one batch to it. A linearization of such an object is told by the
log alone: every operation has a place, which is how much of the log it saw
or which batch it added, and the places are in the order of the operations
(`linearizable_iff_ledger`). No ordering of the operations is left in it.
-/

namespace Linearization

variable {α β σ : Type*}

/-- Where an operation stands: it saw the first `n` batches, or it added
the one at position `k`. -/
inductive Place
  | saw (n : ℕ)
  | added (k : ℕ)
  deriving DecidableEq

namespace Place

/-- How long the log was before the operation, -/
def before : Place → ℕ
  | saw n => n
  | added k => k

/-- and after it. -/
def after : Place → ℕ
  | saw n => n
  | added k => k + 1

@[simp] theorem before_saw (n : ℕ) : (saw n).before = n := rfl

@[simp] theorem after_saw (n : ℕ) : (saw n).after = n := rfl

@[simp] theorem before_added (k : ℕ) : (added k).before = k := rfl

@[simp] theorem after_added (k : ℕ) : (added k).after = k + 1 := rfl

theorem before_le_after (p : Place) : p.before ≤ p.after := by
  cases p <;> simp

/-- The log is such that the operation has this place in it. -/
def Fits (keeps : List β → α → Prop) (adds : List β → α → β → Prop) (log : List β) (a : α) :
    Place → Prop
  | saw n => n ≤ log.length ∧ keeps (log.take n) a
  | added k => ∃ b, log[k]? = some b ∧ adds (log.take k) a b

end Place

theorem Place.Fits.after_le {keeps : List β → α → Prop} {adds : List β → α → β → Prop}
    {log : List β} {a : α} {p : Place} (h : p.Fits keeps adds log a) : p.after ≤ log.length := by
  cases p with
  | saw n => exact h.1
  | added k =>
    obtain ⟨b, hb, -⟩ := h
    exact (List.getElem?_eq_some_iff.1 hb).1

/-- **A branch of an append-only object**: each operation keeps the log or
adds a batch to it. -/
inductive Grows (keeps : List β → α → Prop) (adds : List β → α → β → Prop) :
    List β → List α → List β → Prop
  | nil (log : List β) : Grows keeps adds log [] log
  | keep {log log' : List β} {a : α} {as : List α} : keeps log a → Grows keeps adds log as log' →
      Grows keeps adds log (a :: as) log'
  | add {log log' : List β} {a : α} {b : β} {as : List α} : adds log a b →
      Grows keeps adds (log ++ [b]) as log' → Grows keeps adds log (a :: as) log'

/-- **One log in which every operation has a place.** An operation that
precedes another has left the log no longer than the other found it, no
batch is added twice, and each was added by an operation. -/
structure Ledger (keeps : List β → α → Prop) (adds : List β → α → β → Prop) (prec : α → α → Prop)
    (log : List β) (placed : List (α × Place)) : Prop where
  fits : ∀ p ∈ placed, p.2.Fits keeps adds log p.1
  order : ∀ p ∈ placed, ∀ q ∈ placed, prec p.1 q.1 → p.2.after ≤ q.2.before
  once : placed.Pairwise fun p q => ∀ k, p.2 = .added k → q.2 ≠ .added k
  source : ∀ k < log.length, ∃ p ∈ placed, p.2 = .added k

variable {keeps : List β → α → Prop} {adds : List β → α → β → Prop} {prec : α → α → Prop}
variable {log log' : List β} {ops order as : List α} {placed placed' : List (α × Place)}

/-- A branch of an object whose states are read off a log. -/
theorem path_iff_grows {step : σ → α → List σ} (view : List β → σ)
    (hstep : ∀ log a t, t ∈ step (view log) a ↔
      t = view log ∧ keeps log a ∨ ∃ b, adds log a b ∧ t = view (log ++ [b])) {t : σ} :
    Path step (view log) as t ↔ ∃ log', Grows keeps adds log as log' ∧ t = view log' := by
  induction as generalizing log with
  | nil =>
    constructor
    · intro h
      cases h
      exact ⟨log, .nil log, rfl⟩
    · rintro ⟨log', h, rfl⟩
      cases h
      exact .nil _
  | cons a as ih =>
    rw [path_cons]
    constructor
    · rintro ⟨u, hu, hpath⟩
      rcases (hstep log a u).1 hu with ⟨rfl, hkeep⟩ | ⟨b, hadd, rfl⟩
      · obtain ⟨log', hgrows, ht⟩ := ih.1 hpath
        exact ⟨log', .keep hkeep hgrows, ht⟩
      · obtain ⟨log', hgrows, ht⟩ := ih.1 hpath
        exact ⟨log', .add hadd hgrows, ht⟩
    · rintro ⟨log', h, ht⟩
      cases h with
      | keep hkeep hgrows =>
        exact ⟨view log, (hstep log a _).2 (Or.inl ⟨rfl, hkeep⟩), ih.2 ⟨log', hgrows, ht⟩⟩
      | @add _ _ _ b _ hadd hgrows =>
        exact ⟨view (log ++ [b]), (hstep log a _).2 (Or.inr ⟨b, hadd, rfl⟩),
          ih.2 ⟨log', hgrows, ht⟩⟩

/-- **A log grows by no more than the operations bring.** -/
theorem Grows.sum_le (h : Grows keeps adds log as log') (size : β → ℕ) (brings : α → ℕ)
    (hsize : ∀ log a b, adds log a b → size b ≤ brings a) :
    (log'.map size).sum ≤ (log.map size).sum + (as.map brings).sum := by
  induction h with
  | nil => simp
  | keep _ _ ih =>
    simp only [List.map_cons, List.sum_cons]
    omega
  | add hadd _ ih =>
    have hb := hsize _ _ _ hadd
    simp only [List.map_append, List.map_cons, List.map_nil, List.sum_append, List.sum_cons,
      List.sum_nil] at ih ⊢
    omega

/-! ## From a branch to its log -/

theorem Grows.prefixed (h : Grows keeps adds log as log') : log <+: log' := by
  induction h with
  | nil => exact List.prefix_rfl
  | keep _ _ ih => exact ih
  | add _ _ ih => exact (List.prefix_append _ _).trans ih

/-- Along a branch the places follow on each other, and account for what
the log has grown by. -/
theorem Grows.exists_places (h : Grows keeps adds log as log') :
    ∃ placed : List (α × Place), placed.map Prod.fst = as ∧
      (∀ p ∈ placed, p.2.Fits keeps adds log' p.1 ∧ log.length ≤ p.2.before) ∧
      placed.Pairwise (fun p q => p.2.after ≤ q.2.before) ∧
      ∀ k, log.length ≤ k → k < log'.length → ∃ p ∈ placed, p.2 = .added k := by
  induction h with
  | nil log => exact ⟨[], rfl, nofun, .nil, fun k hle hlt => absurd hlt (by omega)⟩
  | @keep log log' a as hkeep hgrows ih =>
    obtain ⟨placed, rfl, hfits, hpair, hsource⟩ := ih
    obtain ⟨rest, rfl⟩ := hgrows.prefixed
    refine ⟨(a, .saw log.length) :: placed, rfl, ?_,
      List.pairwise_cons.2 ⟨fun q hq => (hfits q hq).2, hpair⟩, fun k hle hlt => ?_⟩
    · rw [List.forall_mem_cons]
      refine ⟨⟨⟨?_, ?_⟩, le_rfl⟩, hfits⟩
      · simp
      · rwa [List.take_left']
        rfl
    · obtain ⟨p, hp, hk⟩ := hsource k hle hlt
      exact ⟨p, List.mem_cons_of_mem _ hp, hk⟩
  | @add log log' a b as hadd hgrows ih =>
    obtain ⟨placed, rfl, hfits, hpair, hsource⟩ := ih
    obtain ⟨rest, rfl⟩ := hgrows.prefixed
    simp only [List.length_append, List.length_singleton] at hfits hsource
    refine ⟨(a, .added log.length) :: placed, rfl, ?_,
      List.pairwise_cons.2 ⟨fun q hq => (hfits q hq).2, hpair⟩, fun k hle hlt => ?_⟩
    · rw [List.forall_mem_cons]
      refine ⟨⟨⟨b, ?_, ?_⟩, le_rfl⟩, fun q hq => ⟨(hfits q hq).1, ?_⟩⟩
      · simp
      · rwa [List.append_assoc, List.take_left']
        rfl
      · have hle := (hfits q hq).2
        omega
    · rcases hle.eq_or_lt with rfl | hgt
      · exact ⟨_, List.mem_cons_self, rfl⟩
      · simp only [List.length_append, List.length_singleton] at hlt
        obtain ⟨p, hp, hk⟩ := hsource k hgt hlt
        exact ⟨p, List.mem_cons_of_mem _ hp, hk⟩

/-- A ledger does not list the operations in any order. -/
theorem Ledger.perm (h : Ledger keeps adds prec log placed) (hp : placed.Perm placed') :
    Ledger keeps adds prec log placed' where
  fits p hmem := h.fits p (hp.mem_iff.2 hmem)
  order p hmem q hmem' := h.order p (hp.mem_iff.2 hmem) q (hp.mem_iff.2 hmem')
  once := (hp.pairwise_iff fun hpq k hq hk => hpq k hk hq).1 h.once
  source k hk := by
    obtain ⟨p, hmem, hadded⟩ := h.source k hk
    exact ⟨p, hp.mem_iff.1 hmem, hadded⟩

/-- Of two entries one comes first. -/
theorem pairwise_or_of_ne {R : α → α → Prop} {a b : α} (h : as.Pairwise R) (ha : a ∈ as)
    (hb : b ∈ as) (hne : a ≠ b) : R a b ∨ R b a := by
  have hsymm : Std.Symm fun a b => R a b ∨ R b a := ⟨fun _ _ => Or.symm⟩
  have hboth : as.Pairwise fun a b => R a b ∨ R b a := h.imp Or.inl
  exact hboth.forall ha hb hne

/-- **Of two operations one has left the log no longer than the other
found it.** -/
theorem Ledger.comparable (h : Ledger keeps adds prec log placed) :
    placed.Pairwise fun p q => p.2.after ≤ q.2.before ∨ q.2.after ≤ p.2.before := by
  refine h.once.imp fun {p q} honce => ?_
  obtain ⟨a, place⟩ := p
  obtain ⟨b, place'⟩ := q
  cases place with
  | saw n => cases place' <;> simp only [Place.before_saw, Place.after_saw, Place.before_added,
      Place.after_added] <;> omega
  | added k =>
    cases place' with
    | saw n =>
      simp only [Place.before_saw, Place.after_saw, Place.before_added, Place.after_added]
      omega
    | added k' =>
      have hne : k' ≠ k := fun he => honce k rfl (congrArg Place.added he)
      simp only [Place.before_added, Place.after_added]
      omega

/-- **The places of a branch** that respects the precedence. -/
theorem Grows.exists_ledger (h : Grows keeps adds [] order log) (hr : Respects prec order)
    (hirr : ∀ a ∈ order, ¬ prec a a) (hperm : order.Perm ops) :
    ∃ placed : List (α × Place), placed.map Prod.fst = ops ∧ Ledger keeps adds prec log placed := by
  obtain ⟨placed, rfl, hfits, hpair, hsource⟩ := h.exists_places
  have hledger : Ledger keeps adds prec log placed := by
    refine ⟨fun p hp => (hfits p hp).1, fun p hp q hq hprec => ?_,
      hpair.imp fun {p q} hpq k hk hk' => ?_, fun k hk => hsource k (Nat.zero_le k) hk⟩
    · have hne : p ≠ q := by
        rintro rfl
        exact hirr p.1 (List.mem_map_of_mem hp) hprec
      -- the one that is preceded was not placed first
      rcases pairwise_or_of_ne (hpair.and (List.pairwise_map.1 hr)) hp hq hne with hpq | hqp
      · exact hpq.1
      · exact absurd hprec hqp.2
    · rw [hk, hk', Place.after_added, Place.before_added] at hpq
      omega
  have hcomp : Relation.Comp (fun x y => x = List.map Prod.fst y) List.Perm ops placed := by
    rw [List.eq_map_comp_perm]
    exact hperm.symm
  obtain ⟨placed', rfl, hp⟩ := hcomp
  exact ⟨placed', rfl, hledger.perm hp.symm⟩

/-! ## From a log to a branch -/

/-- What the entries are sorted by: their places, and among those who saw
the same log a rank. -/
def Place.sortKey (rank : α → ℕ) (p : α × Place) : ℕ ×ₗ ℕ :=
  toLex (p.2.before + p.2.after, rank p.1)

theorem Place.sortKey_le_iff {rank : α → ℕ} {p q : α × Place} :
    Place.sortKey rank p ≤ Place.sortKey rank q ↔
      p.2.before + p.2.after < q.2.before + q.2.after ∨
        p.2.before + p.2.after = q.2.before + q.2.after ∧ rank p.1 ≤ rank q.1 :=
  Prod.Lex.toLex_le_toLex

/-- The sorted operations respect the precedence, if it raises the rank. -/
theorem Ledger.respects {rank : α → ℕ} (h : Ledger keeps adds prec log placed)
    (hrank : ∀ a ∈ placed.map Prod.fst, ∀ b ∈ placed.map Prod.fst, prec a b → rank a < rank b)
    (hsort : placed.Pairwise fun p q => Place.sortKey rank p ≤ Place.sortKey rank q) :
    Respects prec (placed.map Prod.fst) := by
  refine List.pairwise_map.2 (hsort.imp_of_mem fun {p q} hp hq hle hprec => ?_)
  have horder := h.order q hq p hp hprec
  have hlt := hrank q.1 (List.mem_map_of_mem hq) p.1 (List.mem_map_of_mem hp) hprec
  have hp' := p.2.before_le_after
  have hq' := q.2.before_le_after
  rcases Place.sortKey_le_iff.1 hle with hkey | ⟨-, hkey⟩ <;> omega

/-- **Sorted entries are a branch.** What is left of them starts at the
batch the log has come to. -/
theorem Ledger.grows_of_sorted {rank : α → ℕ} {m : ℕ}
    (hfits : ∀ p ∈ placed, p.2.Fits keeps adds log p.1 ∧ m ≤ p.2.before)
    (honce : placed.Pairwise fun p q => ∀ k, p.2 = .added k → q.2 ≠ .added k)
    (hsource : ∀ k, m ≤ k → k < log.length → ∃ p ∈ placed, p.2 = .added k)
    (hsort : placed.Pairwise fun p q => Place.sortKey rank p ≤ Place.sortKey rank q) :
    ∃ log', Grows keeps adds (log.take m) (placed.map Prod.fst) log' := by
  induction placed generalizing m with
  | nil => exact ⟨_, .nil _⟩
  | cons p placed ih =>
    obtain ⟨a, place⟩ := p
    obtain ⟨hfit, hm⟩ := hfits _ List.mem_cons_self
    have hrest : ∀ q ∈ placed, q.2.Fits keeps adds log q.1 ∧ m ≤ q.2.before :=
      fun q hq => hfits q (List.mem_cons_of_mem _ hq)
    obtain ⟨hfirst, honce'⟩ := List.pairwise_cons.1 honce
    obtain ⟨hmin, hsort'⟩ := List.pairwise_cons.1 hsort
    -- the one that added the next batch is the head, or comes later
    have hnext : ∀ k, m ≤ k → k < log.length →
        place = .added k ∨ ∃ q ∈ placed, q.2 = .added k := by
      intro k hle hlt
      obtain ⟨q, hq, hk⟩ := hsource k hle hlt
      rcases List.mem_cons.1 hq with rfl | hq
      · exact Or.inl hk
      · exact Or.inr ⟨q, hq, hk⟩
    cases place with
    | saw n =>
      obtain ⟨hn, hkeep⟩ := hfit
      obtain rfl : m = n := by
        by_contra hne
        have hlt : m < n := lt_of_le_of_ne hm hne
        rcases hnext m le_rfl (by omega) with hk | ⟨q, hq, hk⟩
        · cases hk
        · have hle := Place.sortKey_le_iff.1 (hmin q hq)
          simp only [hk, Place.before_saw, Place.after_saw, Place.before_added,
            Place.after_added] at hle
          omega
      obtain ⟨log', hgrows⟩ := ih hrest honce' (fun k hle hlt => by
        rcases hnext k hle hlt with hk | hq
        · cases hk
        · exact hq) hsort'
      exact ⟨log', .keep hkeep hgrows⟩
    | added k =>
      obtain ⟨b, hb, hadd⟩ := hfit
      have hk : k < log.length := (List.getElem?_eq_some_iff.1 hb).1
      obtain rfl : m = k := by
        by_contra hne
        have hlt : m < k := lt_of_le_of_ne hm hne
        rcases hnext m le_rfl (by omega) with hk' | ⟨q, hq, hk'⟩
        · exact hne (Place.added.inj hk').symm
        · have hle := Place.sortKey_le_iff.1 (hmin q hq)
          simp only [hk', Place.before_added, Place.after_added] at hle
          omega
      have hlater : ∀ q ∈ placed, q.2.Fits keeps adds log q.1 ∧ m + 1 ≤ q.2.before := by
        intro q hq
        obtain ⟨hfit, hle⟩ := hrest q hq
        refine ⟨hfit, ?_⟩
        have hkey := Place.sortKey_le_iff.1 (hmin q hq)
        have hne := hfirst q hq m rfl
        cases hplace : q.2 with
        | saw n =>
          simp only [hplace, Place.before_saw, Place.after_saw, Place.before_added,
            Place.after_added] at hkey ⊢
          omega
        | added k =>
          rw [hplace] at hle hne
          exact lt_of_le_of_ne hle fun he => hne (congrArg Place.added he.symm)
      obtain ⟨log', hgrows⟩ := ih hlater honce' (fun k hle hlt => by
        rcases hnext k (by omega) hlt with hk' | hq
        · have hk' := Place.added.inj hk'
          omega
        · exact hq) hsort'
      refine ⟨log', .add hadd ?_⟩
      rwa [List.take_add_one, hb] at hgrows

/-- **Append-only objects are linearizable when one log explains what was
seen of it.** The precedence raises some rank, as times do. -/
theorem linearizable_iff_ledger {rank : α → ℕ}
    (hrank : ∀ a ∈ ops, ∀ b ∈ ops, prec a b → rank a < rank b) :
    (∃ order, order.Perm ops ∧ Respects prec order ∧ ∃ log, Grows keeps adds [] order log) ↔
      ∃ (log : List β) (placed : List (α × Place)), placed.map Prod.fst = ops ∧
        Ledger keeps adds prec log placed := by
  constructor
  · rintro ⟨order, hperm, hr, log, hgrows⟩
    have hirr : ∀ a ∈ order, ¬ prec a a := fun a ha hprec =>
      lt_irrefl _ (hrank a (hperm.mem_iff.1 ha) a (hperm.mem_iff.1 ha) hprec)
    obtain ⟨placed, hops, hledger⟩ := hgrows.exists_ledger hr hirr hperm
    exact ⟨log, placed, hops, hledger⟩
  · rintro ⟨log, placed, rfl, h⟩
    let le : α × Place → α × Place → Bool :=
      fun p q => decide (Place.sortKey rank p ≤ Place.sortKey rank q)
    have hsort : (placed.mergeSort le).Pairwise fun p q =>
        Place.sortKey rank p ≤ Place.sortKey rank q := by
      refine (List.pairwise_mergeSort (fun p q r hpq hqr => ?_) (fun p q => ?_) placed).imp
        of_decide_eq_true
      · exact decide_eq_true ((of_decide_eq_true hpq).trans (of_decide_eq_true hqr))
      · simpa [le] using le_total (Place.sortKey rank p) (Place.sortKey rank q)
    have hperm : placed.Perm (placed.mergeSort le) := (List.mergeSort_perm placed le).symm
    have h' := h.perm hperm
    refine ⟨_, (hperm.map Prod.fst).symm, h'.respects ?_ hsort, ?_⟩
    · simpa only [(hperm.map Prod.fst).mem_iff] using hrank
    · exact Ledger.grows_of_sorted (m := 0) (fun p hp => ⟨h'.fits p hp, Nat.zero_le _⟩) h'.once
        (fun k _ hk => h'.source k hk) hsort

end Linearization
