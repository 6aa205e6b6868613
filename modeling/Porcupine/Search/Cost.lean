import Porcupine.Common.Budget
import Porcupine.Common.Cuts
import Porcupine.Entries.Operations
import Porcupine.Search.Lifting
import Porcupine.Search.Verdict
import Mathlib.Data.Finset.Sigma
import Mathlib.Data.Fintype.Card
/-!
# What a search costs

The set of operations a prefix has linearized is a cut of the history
(`Sequenced.cut`), and the cache lets the loop go down once for each cut
and each state that orderings of it lead to. Where no more than `w` other
operations are going on when one returns, a history of `n` operations has
at most `n * 2 ^ w` cuts besides the empty one, so with `m` states for
each the cache never holds more than `n * 2 ^ w * m` entries, and the loop
is over in a number of passes that is linear in `n` for every `w` and `m`
(`checkSingle_cost`). Without the cache it would be exponential in `n`.
-/

namespace Porcupine

open Transition Backtrack Linearization

variable {State Input Output : Type} {model : Model State Input Output}
variable {entries : List (Entry Input Output)} {ops : List (Operation Input Output)}
variable {q : Prefix State} {order : List (Fin ops.length)} {id w m : ℕ}

/-- The model's step on an operation of the history. -/
def applyAt (model : Model State Input Output) (ops : List (Operation Input Output)) (s : State)
    (i : Fin ops.length) : Option State :=
  model.apply s (ops.get i).io

/-- The other operations going on when one returns. -/
def concurrent (ops : List (Operation Input Output)) (i : Fin ops.length) :
    Finset (Fin ops.length) :=
  ongoing Finset.univ (fun j => (ops.get j).call) (fun j => (ops.get j).returnTime) i

/-- The cuts of the history. -/
def historyCuts (ops : List (Operation Input Output)) : Finset (Finset (Fin ops.length)) :=
  cuts Finset.univ (fun i => (ops.get i).call) fun i => (ops.get i).returnTime

/-- **The orderings of any one set of operations lead to at most `m`
states**: those that respect real time. -/
def StatesAtMost (model : Model State Input Output) (ops : List (Operation Input Output))
    (m : ℕ) : Prop :=
  ∀ A : Finset (Fin ops.length), ∃ S : Finset State, S.card ≤ m ∧
    ∀ order : List (Fin ops.length), order.Nodup → order.toFinset = A →
      Respects (fun i j => (ops.get i).Before (ops.get j)) order →
      ∀ s, run (applyAt model ops) model.init order = some s → s ∈ S

/-- A set of states that the model's steps on the history do not leave is
as good for every set of operations. -/
theorem statesAtMost_of_closed {S : Finset State} (hinit : model.init ∈ S)
    (hstep : ∀ s ∈ S, ∀ op ∈ ops, ∀ t, model.apply s op.io = some t → t ∈ S) :
    StatesAtMost model ops S.card := by
  have key : ∀ (order : List (Fin ops.length)) (s t : State), s ∈ S →
      run (applyAt model ops) s order = some t → t ∈ S := by
    intro order
    induction order with
    | nil =>
      intro s t hs hrun
      cases hrun
      exact hs
    | cons i order ih =>
      intro s t hs hrun
      obtain ⟨u, hu, hrest⟩ := Option.bind_eq_some_iff.1 hrun
      exact ih u t (hstep s hs _ (List.get_mem ops i) u hu) hrest
  exact fun _ => ⟨S, le_rfl, fun order _ _ _ s hrun => key order _ s hinit hrun⟩

/-- The operations of the prefix. -/
def Prefix.opSet (q : Prefix State) (n : ℕ) : Finset (Fin n) := {i | (i : ℕ) ∈ q.ops}

/-- What the cache tells prefixes apart by: the operations and the
state. -/
def Prefix.kind (n : ℕ) (q : Prefix State) : Σ _ : Finset (Fin n), State := ⟨q.opSet n, q.state⟩

/-! ## The prefixes the search comes to -/

/-- **The prefix is an ordering of a cut**, and its state is where that
leads. -/
structure Sequenced (model : Model State Input Output) (ops : List (Operation Input Output))
    (q : Prefix State) (order : List (Fin ops.length)) : Prop where
  ops_eq : q.ops = (order.map Fin.val).reverse
  nodup : order.Nodup
  cut : order.toFinset ∈ historyCuts ops
  respects : Respects (fun i j => (ops.get i).Before (ops.get j)) order
  run : run (applyAt model ops) model.init order = some q.state

theorem sequenced_init : Sequenced model ops ⟨[], model.init⟩ [] :=
  ⟨rfl, List.nodup_nil, empty_mem_cuts, .nil, rfl⟩

namespace Sequenced

theorem mem_ops (h : Sequenced model ops q order) {i : Fin ops.length} :
    (i : ℕ) ∈ q.ops ↔ i ∈ order := by
  rw [h.ops_eq, List.mem_reverse, List.mem_map]
  exact ⟨fun ⟨j, hj, he⟩ => Fin.ext he ▸ hj, fun hi => ⟨i, hi, rfl⟩⟩

theorem lt_of_mem (h : Sequenced model ops q order) (hid : id ∈ q.ops) : id < ops.length := by
  rw [h.ops_eq, List.mem_reverse, List.mem_map] at hid
  obtain ⟨i, -, rfl⟩ := hid
  exact i.isLt

theorem opSet_eq (h : Sequenced model ops q order) : q.opSet ops.length = order.toFinset := by
  ext i
  rw [Prefix.opSet, Finset.mem_filter, List.mem_toFinset, h.mem_ops]
  exact and_iff_right (Finset.mem_univ i)

/-- Prefixes of one set of operations have the same operations. -/
theorem mem_iff_of_opSet_eq {q' : Prefix State} {order' : List (Fin ops.length)}
    (h : Sequenced model ops q order) (h' : Sequenced model ops q' order')
    (heq : q.opSet ops.length = q'.opSet ops.length) : id ∈ q.ops ↔ id ∈ q'.ops := by
  have hmem : ∀ i : Fin ops.length, (i : ℕ) ∈ q.ops ↔ (i : ℕ) ∈ q'.ops := fun i => by
    rw [h.mem_ops, h'.mem_ops, ← List.mem_toFinset, ← List.mem_toFinset, ← h.opSet_eq,
      ← h'.opSet_eq, heq]
  exact ⟨fun hid => (hmem ⟨id, h.lt_of_mem hid⟩).1 hid,
    fun hid => (hmem ⟨id, h'.lt_of_mem hid⟩).2 hid⟩

/-- **One more operation**, which nothing left precedes. -/
theorem snoc (h : Sequenced model ops q order) {i : Fin ops.length} {s : State} (hi : i ∉ order)
    (hfirst : ∀ j, j ∉ order → ¬ (ops.get j).Before (ops.get i))
    (hs : applyAt model ops q.state i = some s) :
    Sequenced model ops ⟨i :: q.ops, s⟩ (order ++ [i]) where
  ops_eq := by simp [h.ops_eq]
  nodup := by
    rw [List.nodup_append_comm, List.singleton_append]
    exact List.nodup_cons.2 ⟨hi, h.nodup⟩
  cut := by
    refine mem_cuts.2 ⟨Finset.subset_univ _, fun b hb a _ hlt => ?_⟩
    simp only [List.toFinset_append, Finset.mem_union, List.mem_toFinset, List.mem_singleton] at hb ⊢
    rcases hb with hb | rfl
    · exact Or.inl (List.mem_toFinset.1 ((mem_cuts.1 h.cut).2 b (List.mem_toFinset.2 hb) a
        (Finset.mem_univ a) hlt))
    · by_contra hnot
      exact hfirst a (fun ha => hnot (Or.inl ha)) hlt
  respects := by
    refine List.pairwise_append.2 ⟨h.respects, by simp, fun a ha b hb hlt => ?_⟩
    rw [List.mem_singleton.1 hb] at hlt
    -- what it precedes would have had to wait for it
    have hcut := (mem_cuts.1 h.cut).2 a (List.mem_toFinset.2 ha) i (Finset.mem_univ i) hlt
    exact hi (List.mem_toFinset.1 hcut)
  run := by
    rw [run_append, h.run, Option.bind_some, run_cons, hs]
    rfl

end Sequenced

/-- No operation is twice on the frontier. -/
theorem Paired.frontier_nodup {n : ℕ} (h : Paired entries n) (ids : List ℕ) :
    (frontier entries (live entries ids)).Nodup := by
  have hsub := List.takeWhile_sublist (isCallAt entries) (l := live entries ids)
  refine List.Nodup.map_on (fun p hp p' hp' heq => ?_) (hsub.nodup live_nodup)
  obtain ⟨hlt, -⟩ := mem_live.1 (hsub.subset hp)
  obtain ⟨hlt', -⟩ := mem_live.1 (hsub.subset hp')
  have hpos := (h.posOf_idAt hlt).1
  have hpos' := (h.posOf_idAt hlt').1
  rw [List.mem_takeWhile_imp hp] at hpos
  rw [List.mem_takeWhile_imp hp'] at hpos'
  rw [← hpos, ← hpos', heq]

namespace Represents

/-- A candidate at a prefix is an operation still to be linearized that
nothing left precedes. -/
theorem mem_frontier_iff (h : Represents entries ops) {i : Fin ops.length}
    (hq : Sequenced model ops q order) :
    (i : ℕ) ∈ frontier entries (live entries q.ops) ↔
      i ∉ order ∧ ∀ j, j ∉ order → ¬ (ops.get j).Before (ops.get i) := by
  have hprec : ∀ j : Fin ops.length, Precedes entries j i ↔ (ops.get j).Before (ops.get i) :=
    fun j => h.precedes j i _ _ (by simp) (by simp)
  rw [h.paired.mem_frontier, hq.mem_ops]
  constructor
  · rintro ⟨-, hi, hmin⟩
    exact ⟨hi, fun j hj hlt => hmin j j.isLt (fun hmem => hj (hq.mem_ops.1 hmem)) ((hprec j).2 hlt)⟩
  · rintro ⟨hi, hfirst⟩
    exact ⟨i.isLt, hi, fun j hj hmem hlt =>
      hfirst ⟨j, hj⟩ (fun hin => hmem (hq.mem_ops.2 hin)) ((hprec ⟨j, hj⟩).1 hlt)⟩

/-- **Few candidates**, where few operations are going on at a time. -/
theorem length_frontier_le (h : Represents entries ops) (hq : Sequenced model ops q order)
    (hw : ∀ i, (concurrent ops i).card ≤ w) :
    (frontier entries (live entries q.ops)).length ≤ w + 1 := by
  let cand := firsts Finset.univ order.toFinset (fun i => (ops.get i).call)
    fun i => (ops.get i).returnTime
  have hsub : (frontier entries (live entries q.ops)).Subperm (cand.toList.map Fin.val) := by
    refine List.subperm_of_subset (h.paired.frontier_nodup _) fun id hid => ?_
    have hlt := (h.paired.mem_frontier.1 hid).1
    obtain ⟨hmem, hfirst⟩ := (h.mem_frontier_iff (i := ⟨id, hlt⟩) hq).1 hid
    refine List.mem_map.2 ⟨⟨id, hlt⟩, Finset.mem_toList.2 (mem_firsts.2 ?_), rfl⟩
    refine ⟨⟨Finset.mem_univ _, by simpa using hmem⟩, fun j hj => hfirst j ?_⟩
    simpa using hj
  have hle := hsub.length_le
  rw [List.length_map, Finset.length_toList] at hle
  exact hle.trans (card_firsts_le fun r _ => hw r)

variable [BEq State]

/-- **What the cache saves**: the prefixes are told apart by their cut and
their state. -/
theorem budget [ReflBEq State] (h : Represents entries ops)
    (hw : ∀ i, (concurrent ops i).card ≤ w) {states : Finset (Fin ops.length) → Finset State}
    (hstates : ∀ q order, Sequenced model ops q order → q.state ∈ states order.toFinset) :
    (searchProblem model entries).Budget (fun q => ∃ order, Sequenced model ops q order)
      (Prefix.kind ops.length) (((historyCuts ops).erase ∅).sigma states) (w + 1) where
  expand := by
    rintro q id q' ⟨order, hq⟩ hc he
    have hlt := (h.paired.mem_frontier.1 hc).1
    obtain ⟨hmem, hfirst⟩ := (h.mem_frontier_iff (i := ⟨id, hlt⟩) hq).1 hc
    obtain ⟨s, hs, rfl⟩ := expand_eq_some.1 he
    have happly : applyAt model ops q.state ⟨id, hlt⟩ = some s := by
      rw [← hs, applyOp, h.opOf id _ (List.getElem?_eq_getElem hlt)]
      rfl
    have hq' := hq.snoc hmem hfirst happly
    refine ⟨⟨_, hq'⟩, Finset.mem_sigma.2 ?_⟩
    rw [Prefix.kind, hq'.opSet_eq]
    refine ⟨Finset.mem_erase.2 ⟨?_, hq'.cut⟩, hstates _ _ hq'⟩
    exact Finset.ne_empty_of_mem (a := ⟨id, hlt⟩) (by simp)
  same := by
    rintro q q' ⟨order, hq⟩ ⟨order', hq'⟩ heq
    obtain ⟨hops, hstate⟩ := Sigma.mk.inj heq
    have hstate : q.state = q'.state := eq_of_heq hstate
    exact ⟨fun i => hq.mem_iff_of_opSet_eq hq' hops, by rw [hstate]; exact ReflBEq.rfl⟩
  width := by
    rintro q ⟨order, hq⟩
    exact h.length_frontier_le hq hw

end Represents

/-! ## The loop -/

section Loop

variable [BEq State] {debug : Bool} {n k : ℕ} {b : Bool} {s s' t : Search State Input Output}
variable {cfg cfg' : Config (Prefix State) ℕ} {root : Prefix State}

/-- How many entries the cache holds under these keys. -/
def Cache.sizeOn (keys : List (BitVec 64)) (cache : Cache State) : ℕ :=
  (keys.map fun key => (cache key).length).sum

omit [BEq State] in
/-- A push adds one entry, under one key. -/
theorem Cache.sizeOn_push_le {keys : List (BitVec 64)} (hkeys : keys.Nodup) (cache : Cache State)
    (key : BitVec 64) (e : CacheEntry State) :
    (cache.push key e).sizeOn keys ≤ cache.sizeOn keys + 1 := by
  have hother : ∀ ks : List (BitVec 64), key ∉ ks →
      (cache.push key e).sizeOn ks = cache.sizeOn ks := by
    intro ks hks
    unfold Cache.sizeOn Cache.push
    refine congrArg List.sum (List.map_congr_left fun k hk => ?_)
    rw [Function.update_of_ne fun he : k = key => hks (he ▸ hk)]
  induction keys with
  | nil => exact Nat.zero_le _
  | cons k keys ih =>
    obtain ⟨hk, hkeys⟩ := List.nodup_cons.1 hkeys
    have hcons : ∀ c : Cache State, c.sizeOn (k :: keys) = (c k).length + c.sizeOn keys :=
      fun _ => rfl
    rw [hcons, hcons]
    by_cases heq : k = key
    · subst heq
      rw [hother keys hk]
      simp only [Cache.push, Function.update_self, List.length_append, List.length_singleton]
      omega
    · have hlen : (cache.push key e k).length = (cache k).length := by
        rw [Cache.push, Function.update_of_ne heq]
      have := ih hkeys
      omega

/-- A pass that pushes to the cache pushes a frame, and no other touches
it. -/
theorem Search.cache_of_step (h : s.step debug model = .ok (.inl s')) :
    s'.cache = s.cache ∨
      (∃ key e, s'.cache = s.cache.push key e) ∧ s.calls.length < s'.calls.length := by
  unfold step at h
  split at h
  · cases h
  · obtain ⟨m, -, h⟩ := Result.bind_eq_ok.1 h
    cases m with
    | none =>
      simp only [backtrack] at h
      split at h
      · cases h
      · obtain ⟨_, -, h⟩ := Result.bind_eq_ok.1 h
        obtain ⟨_, -, h⟩ := Result.bind_eq_ok.1 h
        obtain ⟨_, -, h⟩ := Result.bind_eq_ok.1 h
        obtain ⟨_, -, h⟩ := Result.bind_eq_ok.1 h
        cases h
        exact Or.inl rfl
    | some retRef =>
      obtain ⟨t, ht, h⟩ := Result.bind_eq_ok.1 h
      cases h
      obtain ⟨node, -, ht⟩ := Result.bind_eq_ok.1 ht
      obtain ⟨ret, -, ht⟩ := Result.bind_eq_ok.1 ht
      obtain ⟨⟨input, output⟩, -, ht⟩ := Result.bind_eq_ok.1 ht
      simp only at ht
      split at ht
      · obtain ⟨key, -, ht⟩ := Result.bind_eq_ok.1 ht
        split at ht
        · obtain ⟨_, -, ht⟩ := Result.bind_eq_ok.1 ht
          obtain ⟨_, -, ht⟩ := Result.bind_eq_ok.1 ht
          obtain ⟨_, -, ht⟩ := Result.bind_eq_ok.1 ht
          obtain ⟨_, -, ht⟩ := Result.bind_eq_ok.1 ht
          cases ht
          exact Or.inr ⟨⟨_, _, rfl⟩, Nat.lt_succ_self _⟩
        · obtain ⟨_, -, ht⟩ := Result.bind_eq_ok.1 ht
          cases ht
          exact Or.inl rfl
      · obtain ⟨_, -, ht⟩ := Result.bind_eq_ok.1 ht
        cases ht
        exact Or.inl rfl

variable {K : Type} {good : Prefix State → Prop} {kind : Prefix State → K} {kinds : Finset K}

/-- **A pass of a loop within its budget**: the memo of the search it walks
has been charged no kind twice, and the cache holds no more than the
memo. -/
structure WithinBudget (model : Model State Input Output) (entries : List (Entry Input Output))
    (n : ℕ) (debug : Bool) (root : Prefix State) (good : Prefix State → Prop)
    (kind : Prefix State → K) (kinds : Finset K) (s : Search State Input Output)
    (cfg : Config (Prefix State) ℕ) : Prop where
  sim : Sim entries n debug s cfg
  spine : (searchProblem model entries).OnSpine root cfg
  metered : Problem.Metered good kind kinds cfg
  cache : ∀ keys : List (BitVec 64), keys.Nodup → s.cache.sizeOn keys ≤ cfg.memo.length

namespace WithinBudget

/-- It is where it starts, -/
theorem start (debug : Bool) (_ : (searchProblem model entries).Budget good kind kinds w)
    (hpair : Paired entries n) (hsize : entries.length < NONE)
    (hstart : Search.start model entries = .ok (.inl s)) :
    WithinBudget model entries n debug ⟨[], model.init⟩ good kind kinds s
      ((searchProblem model entries).start ⟨[], model.init⟩) where
  sim := hpair.sim_start hsize hstart
  spine := Problem.onSpine_start _ _
  metered := Problem.metered_start _ _
  cache keys _ := by
    have hempty : s.cache = fun _ => [] := by
      unfold Search.start at hstart
      split at hstart
      · cases hstart
      · obtain ⟨arena, -, hstart⟩ := Result.bind_eq_ok.1 hstart
        obtain ⟨cursor, -, hstart⟩ := Result.bind_eq_ok.1 hstart
        cases hstart
        rfl
    simp [Cache.sizeOn, hempty]

/-- **and every pass keeps it so**, at the cost of a step of the search. -/
theorem pass (hP : (searchProblem model entries).Budget good kind kinds w) (hroot : good root)
    (hpair : Paired entries n) (hsize : entries.length < NONE)
    (h : WithinBudget model entries n debug root good kind kinds s cfg)
    (hs : s.step debug model = .ok (.inl s')) :
    ∃ cfg', WithinBudget model entries n debug root good kind kinds s' cfg' ∧
      Problem.remaining w kinds.card cfg' < Problem.remaining w kinds.card cfg := by
  obtain ⟨cfg', hstep, hsim⟩ := h.sim.pass hpair hsize hs
  refine ⟨cfg', ⟨hsim, h.spine.step hstep, h.metered.step hP hroot h.spine hstep,
    fun keys hkeys => ?_⟩, hstep.remaining_lt hP hroot h.metered h.spine⟩
  have hcache := h.cache keys hkeys
  rcases Search.cache_of_step hs with heq | ⟨⟨key, e, heq⟩, hlt⟩
  · have hgrow : cfg.memo.length ≤ cfg'.memo.length := by
      cases hstep with
      | descend => exact Nat.le_succ _
      | _ => exact le_rfl
    rw [heq]
    omega
  · -- a frame was pushed, so a node has entered the memo
    have hstack : cfg.stack.length < cfg'.stack.length := by
      rwa [← h.sim.calls.length_eq, ← hsim.calls.length_eq]
    have hpush := Cache.sizeOn_push_le hkeys s.cache key e
    rw [heq, (hstep.descends hstack).1, List.length_cons]
    omega

/-- So the loop ends before the budget is spent, -/
theorem ends_le (hP : (searchProblem model entries).Budget good kind kinds w)
    (hroot : good root) (hpair : Paired entries n) (hsize : entries.length < NONE)
    (h : WithinBudget model entries n debug root good kind kinds s cfg)
    (hend : s.Ends debug model b k) : k ≤ Problem.remaining w kinds.card cfg := by
  induction hend generalizing cfg with
  | done _ => exact Nat.zero_le _
  | pass hs _ ih =>
    obtain ⟨cfg', h', hlt⟩ := h.pass hP hroot hpair hsize hs
    have hle := ih h'
    omega

/-- and the cache never holds more entries than there are kinds. -/
theorem sizeOn_le (hP : (searchProblem model entries).Budget good kind kinds w)
    (hroot : good root) (hpair : Paired entries n) (hsize : entries.length < NONE)
    (h : WithinBudget model entries n debug root good kind kinds s cfg)
    (hreach : (checkSingle debug model).Reachable s t) {keys : List (BitVec 64)}
    (hkeys : keys.Nodup) : t.cache.sizeOn keys ≤ kinds.card := by
  have hinv : ∃ cfg, WithinBudget model entries n debug root good kind kinds t cfg := by
    refine hreach.invariant
      (I := fun t => ∃ cfg, WithinBudget model entries n debug root good kind kinds t cfg)
      ⟨cfg, h⟩ ?_
    rintro t _ u ⟨cfg, h⟩ - hu
    obtain ⟨cfg', h', -⟩ := h.pass hP hroot hpair hsize (checkSingle_step.1 hu)
    exact ⟨cfg', h'⟩
  obtain ⟨cfg', h'⟩ := hinv
  exact (h'.cache keys hkeys).trans h'.metered.length_le

end WithinBudget

end Loop

/-- There are at most `n * 2 ^ w * m` kinds of prefixes. -/
theorem card_kinds_le (hw : ∀ i, (concurrent ops i).card ≤ w)
    {states : Finset (Fin ops.length) → Finset State} (hcard : ∀ A, (states A).card ≤ m) :
    (((historyCuts ops).erase ∅).sigma states).card ≤ ops.length * 2 ^ w * m := by
  have hcuts : ((historyCuts ops).erase ∅).card ≤ ops.length * 2 ^ w := by
    have h : ((historyCuts ops).erase ∅).card ≤ (Finset.univ : Finset (Fin ops.length)).card * 2 ^ w :=
      card_cuts_le fun r _ => hw r
    rwa [Finset.card_univ, Fintype.card_fin] at h
  rw [Finset.card_sigma]
  exact (Finset.sum_le_card_nsmul _ _ m fun A _ => hcard A).trans (Nat.mul_le_mul_right m hcuts)

variable [BEq State]

/-- **The cost of a check**: for a history of `n` operations, no more than
`w` others going on when one returns, and at most `m` states for any one
set of operations, the loop ends in a number of passes that is linear in
`n`, and the cache holds at most `n * 2 ^ w * m` entries at any time. -/
theorem checkSingle_cost [ReflBEq State] (debug : Bool) (model : Model State Input Output)
    (history : List (Operation Input Output)) (w m : ℕ)
    (hsize : 2 * history.length < 2 ^ 32 - 1)
    (hw : ∀ i, (concurrent history i).card ≤ w) (hm : StatesAtMost model history m)
    (s : Search State Input Output)
    (hstart : Search.start model (makeEntries history) = .ok (.inl s)) :
    (∃ b k, s.Ends debug model b k ∧ k ≤ history.length * 2 ^ w * m * (w + 2) + (w + 1)) ∧
    ∀ t, (checkSingle debug model).Reachable s t →
      ∀ keys : List (BitVec 64), keys.Nodup →
        t.cache.sizeOn keys ≤ history.length * 2 ^ w * m := by
  have hrep : Represents (makeEntries history) history := makeEntries_arranged.represents
  have hpair := hrep.paired
  have hsize' : (makeEntries history).length < NONE := by
    rw [hpair.length_eq]
    exact hsize
  choose states hcard hstates using hm
  have hP := hrep.budget hw fun q order hq =>
    hstates _ order hq.nodup rfl hq.respects q.state hq.run
  have hroot : ∃ order, Sequenced model history ⟨[], model.init⟩ order := ⟨[], sequenced_init⟩
  have hkinds := card_kinds_le hw hcard
  have hwithin := WithinBudget.start debug hP hpair hsize' hstart
  constructor
  · obtain ⟨b, k, hend⟩ := hwithin.sim.ends hpair hsize' hwithin.spine
    refine ⟨b, k, hend, (hwithin.ends_le hP hroot hpair hsize' hend).trans ?_⟩
    have hinit : Sequenced model history ⟨[], model.init⟩ [] := sequenced_init
    have hfront := hrep.length_frontier_le hinit hw
    rw [Problem.remaining_start]
    exact Nat.add_le_add (Nat.mul_le_mul_right (w + 2) hkinds) hfront
  · intro t ht keys hkeys
    exact (hwithin.sizeOn_le hP hroot hpair hsize' ht hkeys).trans hkinds

/-- Three operations on a register, the first around the second, whose
values are zero, one and two. -/
theorem checkSingle_cost_register : ∃ s,
    Search.start RegisterModel (makeEntries threeOps) = .ok (.inl s) ∧
    ∃ b k, s.Ends true RegisterModel b k ∧ k ≤ 3 * 2 ^ 1 * 3 * 3 + 2 := by
  have hpair : Paired (makeEntries threeOps) 3 := makeEntries_arranged.paired
  obtain ⟨s, hs, -⟩ := hpair.start_ok (by decide) (by decide) true RegisterModel
  have hstates : StatesAtMost RegisterModel threeOps ({0, 1, 2} : Finset ℤ).card :=
    statesAtMost_of_closed (by decide) (by decide)
  exact ⟨s, hs, (checkSingle_cost true RegisterModel threeOps 1 3 (by decide) (by decide) hstates s
    hs).1⟩

end Porcupine
