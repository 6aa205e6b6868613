import Porcupine.Check.PowerSet
import Porcupine.Model.Quint
import Mathlib.Data.Finset.Max
/-!
# The design and the code

What the search of `Porcupine.qnt` has linearized is an accepted ordering by
call of the operations it has linearized, and everything else is called no
earlier (`Along`). From this its safety invariant follows in every state
(`safetyInvariant_of_reachable`), whatever the history, and what it can
answer: `Ok` exactly when the operations are accepted in an order of their
calls, never `Illegal` unless there are none. So an `Ok` of the design is
one of the code (`ok_refines`); the code accepts more, since an operation
called later may take effect first.
-/

namespace Porcupine.Quint

open Linearization Transition

variable {HISTORY order : List Op} {s s' : State} {op : Op} {i : ℕ}

/-! ## What the search has linearized -/

/-- The register as an object that consumes operations. -/
def consume (state : ℤ) (op : Op) : Option ℤ :=
  if (registerStep state op).ok then some (registerStep state op).next else none

/-- **The search has come along an ordering**: an accepted ordering by call
of distinct operations, which are those linearized and those on the stack,
and none of the others is called earlier. -/
structure Along (HISTORY : List Op) (s : State) (order : List Op) : Prop where
  stack : s.stack.map Frame.opId = order.map Op.id
  lin : ∀ id, id ∈ s.linearized ↔ id ∈ order.map Op.id
  subset : ∀ a ∈ order, a ∈ HISTORY
  nodup : (order.map Op.id).Nodup
  run : run consume INIT_VAL order = some s.reg
  sorted : order.Pairwise fun a b => a.callTs ≤ b.callTs
  ahead : ∀ b ∈ HISTORY, b.id ∉ order.map Op.id → ∀ a ∈ order, a.callTs ≤ b.callTs
  ok : s.result = .ok → HISTORY ≠ [] ∧ order.length = HISTORY.length
  unknown : s.result = .unknown → HISTORY ≠ [] → order.length < HISTORY.length
  illegal : s.result = .illegal → HISTORY = []

theorem mem_frontier {lin : Finset ℤ} :
    op ∈ frontier HISTORY lin ↔ op ∈ HISTORY ∧ op.id ∉ lin ∧ isMinimal op HISTORY lin := by
  simp [frontier]

theorem along_init : Along HISTORY init [] where
  stack := rfl
  lin id := by simp [init]
  subset a ha := by cases ha
  nodup := .nil
  run := rfl
  sorted := .nil
  ahead b _ _ a ha := by cases ha
  ok h := by cases h
  unknown _ hne := List.length_pos_of_ne_nil hne
  illegal h := by cases h

namespace Along

/-- As many operations are linearized as the ordering has. -/
theorem card_linearized (h : Along HISTORY s order) : s.linearized.card = order.length := by
  have heq : s.linearized = (order.map Op.id).toFinset := by
    ext id
    rw [h.lin, List.mem_toFinset]
  rw [heq, List.toFinset_card_of_nodup h.nodup, List.length_map]

/-- **While operations are left one of them is minimal**: the search never
backs up. -/
theorem exists_frontier (h : Along HISTORY s order) (hids : (HISTORY.map Op.id).Nodup)
    (hlt : order.length < HISTORY.length) : ∃ op, op ∈ frontier HISTORY s.linearized := by
  -- the earliest call of those left
  obtain ⟨b, hb, hleft⟩ : ∃ b ∈ HISTORY, b.id ∉ order.map Op.id := by
    by_contra hnone
    push Not at hnone
    have hsub : HISTORY.map Op.id ⊆ order.map Op.id := by
      intro id hid
      obtain ⟨b, hb, rfl⟩ := List.mem_map.1 hid
      exact hnone b hb
    have hle := (hids.subperm hsub).length_le
    rw [List.length_map, List.length_map] at hle
    omega
  have hne : (HISTORY.toFinset.filter fun b => b.id ∉ order.map Op.id).Nonempty :=
    ⟨b, Finset.mem_filter.2 ⟨List.mem_toFinset.2 hb, hleft⟩⟩
  obtain ⟨op, hop, hmin⟩ := Finset.exists_min_image _ Op.callTs hne
  rw [Finset.mem_filter, List.mem_toFinset] at hop
  refine ⟨op, mem_frontier.2 ⟨hop.1, fun hlin => hop.2 ((h.lin _).1 hlin), fun other hother => ?_⟩⟩
  by_cases hlin : other.id ∈ order.map Op.id
  · exact .inl ((h.lin _).2 hlin)
  · refine .inr (.inr (hmin other ?_))
    rw [Finset.mem_filter, List.mem_toFinset]
    exact ⟨hother, hlin⟩

theorem length_le (h : Along HISTORY s order) : order.length ≤ HISTORY.length := by
  have hnd : order.Nodup := h.nodup.of_map _
  exact (hnd.subperm fun a ha => h.subset a ha).length_le

/-- An accepted operation of the frontier comes next. -/
theorem snoc (h : Along HISTORY s order) (hs : s.result = .unknown)
    (hop : op ∈ frontier HISTORY s.linearized) (hok : (registerStep s.reg op).ok = true) :
    Along HISTORY (tryLinearize HISTORY s op) (order ++ [op]) := by
  obtain ⟨hmem, hnew, hmin⟩ := mem_frontier.1 hop
  have hnew' : op.id ∉ order.map Op.id := fun hid => hnew ((h.lin _).2 hid)
  have hne : HISTORY ≠ [] := List.ne_nil_of_mem hmem
  have hlt := h.unknown hs hne
  have htry : tryLinearize HISTORY s op =
      { linearized := insert op.id s.linearized
        reg := (registerStep s.reg op).next
        result := if order.length + 1 = HISTORY.length then .ok else .unknown
        stack := s.stack ++ [⟨op.id, s.reg⟩] } := by
    rw [tryLinearize, if_pos hok, h.card_linearized, hs]
  rw [htry]
  refine ⟨?_, fun id => ?_, fun a ha => ?_, ?_, ?_, ?_, fun b hb hleft a ha => ?_, fun he => ?_,
    fun he _ => ?_, fun he => ?_⟩
  · simp [h.stack]
  · simp [h.lin, or_comm]
  · rcases List.mem_append.1 ha with ha | ha
    · exact h.subset a ha
    · exact List.mem_singleton.1 ha ▸ hmem
  · rw [List.map_append, List.nodup_append]
    refine ⟨h.nodup, by simp, fun x hx y hy he => hnew' ?_⟩
    rw [List.map_singleton, List.mem_singleton] at hy
    rwa [← hy, ← he]
  · rw [run_append, h.run]
    simp [consume, hok]
  · rw [List.pairwise_append]
    refine ⟨h.sorted, List.pairwise_singleton _ _, fun a ha b hb => ?_⟩
    rw [List.mem_singleton.1 hb]
    exact h.ahead op hmem hnew' a ha
  · rw [List.map_append, List.mem_append, not_or] at hleft
    rcases List.mem_append.1 ha with ha | ha
    · exact h.ahead b hb hleft.1 a ha
    · rw [List.mem_singleton.1 ha]
      rcases hmin b hb with hlin | hid | hle
      · exact absurd ((h.lin _).1 hlin) hleft.1
      · exact absurd (by simp [hid]) hleft.2
      · exact hle
  · simp only at he
    split at he
    · next hlen => exact ⟨hne, by simpa using hlen⟩
    · cases he
  · simp only at he
    split at he
    · cases he
    · simp only [List.length_append, List.length_singleton]
      omega
  · simp only at he
    split at he
    · cases he
    · cases he

/-- **A step keeps the search along some ordering**, and undoes nothing. -/
theorem step (h : Along HISTORY s order) (hids : (HISTORY.map Op.id).Nodup)
    (hs : (search HISTORY).step i s = some s') :
    (∃ order', Along HISTORY s' order') ∧ s.stack <+: s'.stack := by
  by_cases hres : s.result = .unknown
  · by_cases hcand : (frontier HISTORY s.linearized).length > 0
    · simp only [search, hres, ne_eq, not_true_eq_false, if_false, if_pos hcand,
        Option.map_eq_some_iff] at hs
      obtain ⟨op, hget, rfl⟩ := hs
      by_cases hok : (registerStep s.reg op).ok = true
      · refine ⟨⟨_, h.snoc hres (List.mem_of_getElem? hget) hok⟩, ?_⟩
        rw [tryLinearize, if_pos hok]
        exact List.prefix_append _ _
      · rw [tryLinearize, if_neg hok]
        exact ⟨⟨order, h⟩, List.prefix_refl _⟩
    · -- nothing is left, which is so from the start or not at all
      have hnil : HISTORY = [] := by
        by_contra hne
        obtain ⟨op, hop⟩ := h.exists_frontier hids (h.unknown hres hne)
        exact hcand (List.length_pos_of_mem hop)
      have horder : order = [] := by
        rw [List.eq_nil_iff_forall_not_mem]
        intro a ha
        have := h.subset a ha
        rw [hnil] at this
        cases this
      have hstack : s.stack = [] := by
        have hmap := h.stack
        rw [horder, List.map_nil, List.map_eq_nil_iff] at hmap
        exact hmap
      simp only [search, hres, ne_eq, not_true_eq_false, if_false, if_neg hcand, hstack,
        List.length_nil, gt_iff_lt, lt_irrefl, Option.some.injEq] at hs
      subst hs
      exact ⟨⟨order, hstack ▸ h.stack, h.lin, h.subset, h.nodup, h.run, h.sorted, h.ahead, nofun,
        nofun, fun _ => hnil⟩, hstack ▸ List.nil_prefix⟩
  · simp only [search, ne_eq, hres, not_false_eq_true, if_true, Option.some.injEq] at hs
    subst hs
    exact ⟨⟨order, h⟩, List.prefix_refl _⟩

end Along

/-- Wherever the search comes, it comes along some ordering. -/
theorem exists_along (hids : (HISTORY.map Op.id).Nodup)
    (h : (search HISTORY).Reachable init s) : ∃ order, Along HISTORY s order :=
  h.invariant (I := fun s => ∃ order, Along HISTORY s order) ⟨[], along_init⟩
    fun _ _ _ ⟨_, hs⟩ _ hstep => (hs.step hids hstep).1

/-! ## The safety invariant -/

/-- In a history with distinct ids an operation is found by its id. -/
theorem opById_eq (hids : (HISTORY.map Op.id).Nodup) {a : Op} (ha : a ∈ HISTORY) :
    opById HISTORY a.id = a := by
  have hfold : ∀ (l : List Op) (found : Op), (∀ b ∈ l, b.id = a.id → b = a) → a ∈ l ∨ found = a →
      l.foldl (fun found op => if op.id = a.id then op else found) found = a := by
    intro l
    induction l with
    | nil =>
      intro found _ hor
      rcases hor with h | h
      · cases h
      · exact h
    | cons b l ih =>
      intro found huniq hor
      rw [List.foldl_cons]
      refine ih _ (fun c hc => huniq c (List.mem_cons_of_mem _ hc)) ?_
      by_cases hb : b.id = a.id
      · rw [if_pos hb, huniq b List.mem_cons_self hb]
        exact .inr rfl
      · rw [if_neg hb]
        rcases hor with h | h
        · rcases List.mem_cons.1 h with rfl | h
          · exact absurd rfl hb
          · exact .inl h
        · exact .inr h
  exact hfold HISTORY _ (fun b hb he => List.inj_on_of_nodup_map hids hb ha he) (.inl ha)

/-- Replaying the frames of an accepted ordering is accepted. -/
theorem foldl_replay (hids : (HISTORY.map Op.id).Nodup) (frames : List Frame) (order : List Op)
    (hframes : frames.map Frame.opId = order.map Op.id) (hsub : ∀ a ∈ order, a ∈ HISTORY)
    (reg reg' : ℤ) (hrun : run consume reg order = some reg') :
    frames.foldl (replay HISTORY) ⟨true, reg⟩ = ⟨true, reg'⟩ := by
  induction order generalizing frames reg with
  | nil =>
    rw [List.map_nil, List.map_eq_nil_iff] at hframes
    cases hrun
    rw [hframes]
    rfl
  | cons a order ih =>
    obtain ⟨frame, rest, rfl, hid, hrest⟩ := List.map_eq_cons_iff.1 hframes
    obtain ⟨reg₁, hreg₁, hrun⟩ := Option.bind_eq_some_iff.1 hrun
    have hstep : replay HISTORY ⟨true, reg⟩ frame = ⟨true, reg₁⟩ := by
      simp only [replay, Bool.not_true, Bool.false_eq_true, if_false, hid,
        opById_eq hids (hsub a List.mem_cons_self)]
      unfold consume at hreg₁
      split at hreg₁
      · next hok =>
        cases hreg₁
        rw [← hok]
      · cases hreg₁
    rw [List.foldl_cons, hstep]
    exact ih rest hrest (fun b hb => hsub b (List.mem_cons_of_mem _ hb)) reg₁ hrun

/-- **The safety invariant holds wherever the search comes**, for every
well-formed history with distinct ids. -/
theorem Along.safetyInvariant (h : Along HISTORY s order) (hwf : histWellFormed HISTORY)
    (hids : (HISTORY.map Op.id).Nodup) : SafetyInvariant HISTORY s where
  histWellFormedInv := hwf
  minimalCallFrontier op hop := (mem_frontier.1 hop).2.2
  cacheSound i j hi hj hne he := by
    have hnd : (s.stack.map Frame.opId).Nodup := by
      rw [h.stack]
      exact h.nodup
    have hi' : i < (s.stack.map Frame.opId).length := by simpa using hi
    have hj' : j < (s.stack.map Frame.opId).length := by simpa using hj
    have heq : (s.stack.map Frame.opId)[i] = (s.stack.map Frame.opId)[j] := by simpa using he
    exact hne (hnd.getElem_inj_iff.1 heq)
  resultConsistent := by
    refine ⟨fun hok => ?_, fun hill => ?_⟩
    · rw [h.card_linearized, (h.ok hok).2]
    · rw [h.illegal hill]
      rfl
  pCompositionality := by
    refine .inr ?_
    rw [foldl_replay hids s.stack order h.stack h.subset _ _ h.run]
  parallelKillFlagInvariant := by
    unfold Quint.parallelKillFlagInvariant
    cases s.result <;> simp

/-! ## What the search answers -/

/-- The operations are accepted in an order of their calls. -/
def AcceptedByCall (HISTORY : List Op) : Prop :=
  ∃ order : List Op, order.Perm HISTORY ∧ order.Pairwise (fun a b => a.callTs ≤ b.callTs) ∧
    Accepts consume INIT_VAL order

theorem Along.acceptedByCall (h : Along HISTORY s order) (hok : s.result = .ok) :
    AcceptedByCall HISTORY := by
  have hnd : order.Nodup := h.nodup.of_map _
  have hperm : order.Perm HISTORY :=
    (hnd.subperm fun a ha => h.subset a ha).perm_of_length_le (h.ok hok).2.ge
  exact ⟨order, hperm, h.sorted, by rw [Accepts, h.run]; rfl⟩

/-- **The search can follow an accepted order of the calls** to its end. -/
theorem Along.reaches_ok {post : List Op} (h : Along HISTORY s order)
    (hreach : (search HISTORY).Reachable init s) (hres : s.result = .unknown) (hne : post ≠ [])
    (hperm : (order ++ post).Perm HISTORY) (hids : (HISTORY.map Op.id).Nodup)
    (hsorted : post.Pairwise fun a b => a.callTs ≤ b.callTs)
    (hacc : Accepts consume s.reg post) :
    ∃ s', (search HISTORY).Reachable init s' ∧ s'.result = .ok := by
  induction post generalizing s order with
  | nil => exact absurd rfl hne
  | cons op post ih =>
    obtain ⟨hfirst, hsorted'⟩ := List.pairwise_cons.1 hsorted
    obtain ⟨reg, hreg, hacc'⟩ := accepts_cons.1 hacc
    have hok : (registerStep s.reg op).ok = true := by
      by_contra hno
      rw [consume, if_neg hno] at hreg
      cases hreg
    have hnd : ((order ++ op :: post).map Op.id).Nodup := (hperm.map _).nodup_iff.2 hids
    rw [List.map_append, List.map_cons, List.nodup_append] at hnd
    -- those left are called later
    have hop : op ∈ frontier HISTORY s.linearized := by
      refine mem_frontier.2 ⟨hperm.mem_iff.1 (by simp), fun hlin => ?_, fun other hother => ?_⟩
      · exact hnd.2.2 _ ((h.lin _).1 hlin) _ List.mem_cons_self rfl
      · rcases List.mem_append.1 (hperm.mem_iff.2 hother) with ho | ho
        · exact .inl ((h.lin _).2 (List.mem_map_of_mem ho))
        · rcases List.mem_cons.1 ho with rfl | ho
          · exact .inr (.inl rfl)
          · exact .inr (.inr (hfirst other ho))
    obtain ⟨i, hi⟩ := List.getElem?_of_mem hop
    have hstep : (search HISTORY).step i s = some (tryLinearize HISTORY s op) := by
      simp only [search, hres, ne_eq, not_true_eq_false, if_false,
        if_pos (List.length_pos_of_mem hop), hi, Option.map_some]
    have hreach' := hreach.tail trivial hstep
    have halong := h.snoc hres hop hok
    have hlen := hperm.length_eq
    rw [List.length_append, List.length_cons] at hlen
    have hresult : (tryLinearize HISTORY s op).result =
        if order.length + 1 = HISTORY.length then .ok else .unknown := by
      rw [tryLinearize, if_pos hok, h.card_linearized, hres]
    have hreg' : (tryLinearize HISTORY s op).reg = reg := by
      rw [consume, if_pos hok] at hreg
      rw [tryLinearize, if_pos hok]
      exact Option.some.inj hreg
    cases post with
    | nil => exact ⟨_, hreach', by rw [hresult, if_pos (by simpa using hlen)]⟩
    | cons op' post =>
      refine ih halong hreach' ?_ (by simp) (by simpa using hperm) hsorted' (hreg' ▸ hacc')
      rw [hresult, if_neg]
      rw [List.length_cons] at hlen
      omega

/-- **What the search can answer.** -/
theorem search_answers (hids : (HISTORY.map Op.id).Nodup) :
    ((∃ s, (search HISTORY).Reachable init s ∧ s.result = .ok) ↔
      HISTORY ≠ [] ∧ AcceptedByCall HISTORY) ∧
    ((∃ s, (search HISTORY).Reachable init s ∧ s.result = .illegal) ↔ HISTORY = []) := by
  refine ⟨⟨?_, ?_⟩, ?_, ?_⟩
  · rintro ⟨s, hreach, hok⟩
    obtain ⟨order, h⟩ := exists_along hids hreach
    exact ⟨(h.ok hok).1, h.acceptedByCall hok⟩
  · rintro ⟨hne, order, hperm, hsorted, hacc⟩
    have horder : order ≠ [] := by
      rintro rfl
      exact hne hperm.nil_eq.symm
    exact along_init.reaches_ok .refl rfl horder hperm hids hsorted hacc
  · rintro ⟨s, hreach, hill⟩
    obtain ⟨order, h⟩ := exists_along hids hreach
    exact h.illegal hill
  · rintro rfl
    exact ⟨_, .single (c := 0) trivial rfl, rfl⟩

/-- **The design is safe**: its safety invariant holds wherever it comes,
for every well-formed history with distinct ids, and no step of it undoes a
choice. -/
theorem search_safe (HISTORY : List Op) (hwf : histWellFormed HISTORY)
    (hids : (HISTORY.map Op.id).Nodup) (s : State) (h : (search HISTORY).Reachable init s) :
    SafetyInvariant HISTORY s ∧
      ∀ i s', (search HISTORY).step i s = some s' → s.stack <+: s'.stack := by
  obtain ⟨order, halong⟩ := exists_along hids h
  exact ⟨halong.safetyInvariant hwf hids, fun _ _ hs => (halong.step hids hs).2⟩

/-- The history of the module. -/
def exampleHistory : List Op :=
  [⟨0, 0, 10, 1, 0, true⟩, ⟨1, 5, 15, 0, 1, false⟩, ⟨2, 12, 20, 2, 0, true⟩,
    ⟨3, 18, 25, 0, 2, false⟩]

/-- Four operations in. -/
theorem search_safe_example : ∃ s : State, s.result = .ok ∧ SafetyInvariant exampleHistory s := by
  have hrun : ((search exampleHistory).runs (fun _ _ => true) [0, 0, 0, 0] init).map State.result =
      some .ok := by decide
  obtain ⟨s, hs, hok⟩ := Option.map_eq_some_iff.1 hrun
  exact ⟨s, hok, (search_safe exampleHistory (by decide) (by decide) s
    (.of_runs (fun _ _ _ => trivial) hs)).1⟩

/-! ## The code -/

/-- The operation as the code takes it. -/
def Op.toOperation (op : Op) : Operation RegisterInput ℤ :=
  ⟨0, ⟨op.isWrite, op.input⟩, op.callTs.toNat, op.output, op.retTs.toNat⟩

theorem registerModel_apply (reg : ℤ) (op : Op) :
    RegisterModel.apply reg op.toOperation.io = consume reg op := by
  simp only [Model.apply, RegisterModel, Op.toOperation, Operation.io, consume, registerStep]
  by_cases hw : op.isWrite = true
  · simp [hw]
  · by_cases ho : op.output = reg <;> simp [hw, ho]

/-- **Operations accepted in an order of their calls are linearizable.** -/
theorem AcceptedByCall.historyLinearizable (h : AcceptedByCall HISTORY)
    (hwf : histWellFormed HISTORY) :
    HistoryLinearizable RegisterModel (HISTORY.map Op.toOperation) := by
  obtain ⟨order, hperm, hsorted, hacc⟩ := h
  refine ⟨order.map Op.toOperation, hperm.map _, List.pairwise_map.2 ?_, ?_⟩
  · refine hsorted.imp_of_mem fun {a b} _ hb hle hbefore => ?_
    have hwf' := hwf b (hperm.mem_iff.1 hb)
    simp only [Operation.Before, Op.toOperation] at hbefore
    omega
  · rw [Accepts, run_map]
    have hstep : (fun s op => RegisterModel.apply s (Op.toOperation op).io) = consume := by
      funext s op
      exact registerModel_apply s op
    rw [hstep]
    exact hacc

/-- **An `Ok` of the design is one of the code.** The design answers `Ok`
exactly when the operations are accepted in an order of their calls, and
`Illegal` only when there are none. -/
theorem ok_refines (debug : Bool)
    (srt : UnstableSort (List (Entry RegisterInput ℤ))) (HISTORY : List Op)
    (hwf : histWellFormed HISTORY) (hids : (HISTORY.map Op.id).Nodup)
    (hsize : HISTORY.length ≤ 2 ^ 31 - 1) :
    ((∃ s, (search HISTORY).Reachable init s ∧ s.result = .ok) ↔
      HISTORY ≠ [] ∧ AcceptedByCall HISTORY) ∧
    ((∃ s, (search HISTORY).Reachable init s ∧ s.result = .illegal) ↔ HISTORY = []) ∧
    ((∃ s, (search HISTORY).Reachable init s ∧ s.result = .ok) →
      (checker debug srt RegisterModel).Returns .ok
        (checkOperations debug RegisterModel (HISTORY.map Op.toOperation) none)) := by
  obtain ⟨hok, hill⟩ := search_answers hids
  refine ⟨hok, hill, fun hreach => ?_⟩
  have hlin := (hok.1 hreach).2.historyLinearizable hwf
  have hops : ∀ op ∈ HISTORY.map Op.toOperation, op.WellFormed := by
    intro op hop
    obtain ⟨op, hmem, rfl⟩ := List.mem_map.1 hop
    have := hwf op hmem
    simp only [Operation.WellFormed, Op.toOperation]
    omega
  have hdec : Decides (checker debug srt RegisterModel)
      (checkOperations debug RegisterModel (HISTORY.map Op.toOperation) none)
      (HistoryLinearizable RegisterModel (HISTORY.map Op.toOperation)) :=
    (prepares_operations debug rfl hops (by rw [List.length_map]; omega)).decides
      RegisterModel.lawful_of_lawfulBEq
  exact hdec.ok hlin

theorem ok_refines_example :
    (checker true (.insertion _) RegisterModel).Returns .ok
      (checkOperations true RegisterModel (exampleHistory.map Op.toOperation) none) := by
  have hrun : ((search exampleHistory).runs (fun _ _ => true) [0, 0, 0, 0] init).map State.result =
      some .ok := by decide
  obtain ⟨s, hs, hok⟩ := Option.map_eq_some_iff.1 hrun
  exact (ok_refines true (.insertion _) exampleHistory (by decide) (by decide) (by decide)).2.2
    ⟨s, .of_runs (fun _ _ _ => trivial) hs, hok⟩

/-! ## The power set -/

namespace Nd

/-- The operation that an action consumes. A write has no output. -/
def Action.io : Action → LossyInput × Option ℤ
  | .applyWrite v => (.write v, none)
  | .applyRead o => (.read, some o)

/-- **The state stands for a power-state of the code**, or for a
rejection. -/
def StandsFor (s : State) : Option (List ℤ) → Prop
  | some states => s.accepted = true ∧ states ≠ [] ∧ ∀ x, x ∈ s.powerState ↔ x ∈ states
  | none => s.accepted = false ∧ s.powerState = ∅

/-- What an action accepts is what there is after it. -/
theorem apply_accepted {s : State} {a : Action} :
    (a.apply s).accepted = decide ((a.apply s).powerState.card > 0) := by
  cases a with
  | applyWrite v => rfl
  | applyRead o => rfl

/-- The successors of a state are those of the lossy register. -/
theorem mem_apply_powerState {s : State} {a : Action} {x : ℤ} :
    x ∈ (a.apply s).powerState ↔
      ∃ t ∈ s.powerState, x ∈ LossyNdRegister.step t a.io.1 a.io.2 := by
  cases a with
  | applyWrite v =>
    simp only [Action.apply, powerSetStep, Finset.mem_biUnion, ndStep, if_true, Action.io,
      LossyNdRegister]
    refine exists_congr fun t => and_congr_right fun _ => ?_
    by_cases hv : v = t
    · simp [hv]
    · simp [hv]
  | applyRead o =>
    simp only [Action.apply, powerSetStep, Finset.mem_biUnion, ndStep, zero_ne_one, if_false,
      Action.io, LossyNdRegister]
    refine exists_congr fun t => and_congr_right fun _ => ?_
    by_cases ho : o = t
    · simp [ho]
    · simp [ho]

theorem StandsFor.of_mem {s : State} {states : List ℤ} {a : Action}
    (hmem : ∀ x, x ∈ (a.apply s).powerState ↔ x ∈ states) :
    StandsFor (a.apply s) (if states.isEmpty then none else some states) := by
  cases hs : states with
  | nil =>
    rw [hs] at hmem
    have hempty : (a.apply s).powerState = ∅ := by
      ext x
      simp [hmem x]
    refine ⟨?_, hempty⟩
    rw [apply_accepted, hempty]
    rfl
  | cons y ys =>
    have hy : y ∈ (a.apply s).powerState := (hmem y).2 (by simp [hs])
    refine ⟨?_, List.cons_ne_nil y ys, hs ▸ hmem⟩
    rw [apply_accepted, decide_eq_true_eq]
    exact Finset.card_pos.2 ⟨y, hy⟩

/-- **One action is one step of the code.** -/
theorem StandsFor.apply {s : State} {states : List ℤ} (h : StandsFor s (some states)) (a : Action) :
    StandsFor (a.apply s) ((PowerSetModel LossyNdRegister).apply states a.io) := by
  refine StandsFor.of_mem fun x => ?_
  rw [mem_apply_powerState, mem_deduplicate, List.mem_flatMap]
  exact exists_congr fun t => and_congr_left fun _ => h.2.2 t

/-- A rejection is for good. -/
theorem StandsFor.rejected {s : State} (h : StandsFor s none) (a : Action) :
    StandsFor (a.apply s) none := by
  have hempty : (a.apply s).powerState = ∅ := by
    ext x
    simp [mem_apply_powerState, h.2]
  refine ⟨?_, hempty⟩
  rw [apply_accepted, hempty]
  rfl

theorem StandsFor.foldl {s : State} {states : Option (List ℤ)} (h : StandsFor s states)
    (actions : List Action) : StandsFor (actions.foldl Action.apply s)
      (states.bind fun v => run (PowerSetModel LossyNdRegister).apply v (actions.map Action.io)) := by
  induction actions generalizing s states with
  | nil =>
    cases states with
    | none => exact h
    | some v => exact h
  | cons a actions ih =>
    cases states with
    | none => exact ih (h.rejected a)
    | some v => exact ih (h.apply a)

/-- **The power set of the design is that of the code**: after any actions
it stands for the power-state that the code has after the same operations,
and it is empty and not accepted when the code has rejected one. -/
theorem foldl_standsFor (actions : List Action) :
    StandsFor (actions.foldl Action.apply init)
      (run (PowerSetModel LossyNdRegister).apply (PowerSetModel LossyNdRegister).init
        (actions.map Action.io)) ∧
    SafetyInvariant (actions.foldl Action.apply init) := by
  have hinit : StandsFor init (some (PowerSetModel LossyNdRegister).init) := by
    refine ⟨rfl, by decide, fun x => ?_⟩
    simp [init, INIT_VAL, PowerSetModel, LossyNdRegister, deduplicate, deduplicateInto]
  have h := hinit.foldl actions
  refine ⟨h, ?_⟩
  rw [Option.bind_some] at h
  cases hrun : run (PowerSetModel LossyNdRegister).apply (PowerSetModel LossyNdRegister).init
      (actions.map Action.io) with
  | none =>
    rw [hrun] at h
    exact ⟨fun _ => h.1, fun hacc => (by rw [h.1] at hacc; cases hacc)⟩
  | some v =>
    rw [hrun] at h
    obtain ⟨y, hy⟩ := List.exists_mem_of_ne_nil v h.2.1
    have hpos := Finset.card_pos.2 ⟨y, (h.2.2 y).2 hy⟩
    exact ⟨fun hzero => (by omega), fun _ => hpos⟩

end Nd

end Porcupine.Quint
