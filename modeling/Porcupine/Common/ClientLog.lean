import Mathlib.Data.List.Nodup
import Mathlib.Order.Nat
/-!
# Logs of client calls

A client process makes one call at a time, and a log lists the calls and
the answers of all processes in the order in which they happened. What is
answered is the call that is open (`openCall`). A log in which no process
calls again while a call of its own is open is `Sequential`, which is to
say that every call is answered or open at the end (`Sequential.ends`,
`sequential_of_ends`).
-/

namespace ClientLog

/-- What a line says. -/
inductive Action (ι ο : Type*)
  | invoke (process : ℕ) (input : ι)
  | answer (process : ℕ) (output : ο)
  | skip
  deriving DecidableEq, Repr

variable {ι ο : Type*}

/-- The process of a line that makes a call. -/
def Action.caller : Action ι ο → Option ℕ
  | .invoke process _ => some process
  | _ => none

/-- The process of a line that is an answer. -/
def Action.answered : Action ι ο → Option ℕ
  | .answer process _ => some process
  | _ => none

/-- How many calls were made before line `m`. -/
def callsBefore (log : List (Action ι ο)) (m : ℕ) : ℕ := (log.take m).countP fun a => a.caller.isSome

/-- The line of the call of a process that is open before line `m`. -/
def openCall (log : List (Action ι ο)) (p : ℕ) : ℕ → Option ℕ
  | 0 => none
  | m + 1 =>
    match log[m]? with
    | some (.invoke q _) => if q = p then some m else openCall log p m
    | some (.answer q _) => if q = p then none else openCall log p m
    | _ => openCall log p m

/-- **No process calls while a call of its own is open.** -/
def Sequential (log : List (Action ι ο)) : Prop :=
  ∀ m < log.length, ∀ p ∈ log[m]?.bind Action.caller, openCall log p m = none

instance (log : List (Action ι ο)) : Decidable (Sequential log) :=
  inferInstanceAs (Decidable (∀ m < log.length, ∀ p ∈ _, _))

/-- **Every answer is to an open call.** -/
def Solicited (log : List (Action ι ο)) : Prop :=
  ∀ m < log.length, ∀ p ∈ log[m]?.bind Action.answered, openCall log p m ≠ none

instance (log : List (Action ι ο)) : Decidable (Solicited log) :=
  inferInstanceAs (Decidable (∀ m < log.length, ∀ p ∈ _, _))

/-- A call, with the lines of it and of its answer. -/
structure Invocation (ι ο : Type*) where
  process : ℕ
  input : ι
  call : ℕ
  answer : Option (ℕ × ο)
  deriving DecidableEq, Repr

/-- One is answered before the other is called. -/
def Invocation.Before (a b : Invocation ι ο) : Prop := ∃ r ∈ a.answer, r.1 < b.call

instance (a b : Invocation ι ο) : Decidable (a.Before b) :=
  inferInstanceAs (Decidable (∃ r ∈ a.answer, _))

/-- What was answered, if it was. -/
def Invocation.outputOr (a : Invocation ι ο) (o : ο) : ο := (a.answer.map Prod.snd).getD o

/-- Line `j`, if it answers the call of line `k`. -/
def answerAt (log : List (Action ι ο)) (k j : ℕ) : Option (ℕ × ο) :=
  match log[j]? with
  | some (.answer p o) => if openCall log p j = some k then some (j, o) else none
  | _ => none

/-- The line that answers the call of line `k`. -/
def answerTo (log : List (Action ι ο)) (k : ℕ) : Option (ℕ × ο) :=
  (List.range log.length).findSome? (answerAt log k)

def invocationAt (log : List (Action ι ο)) (k : ℕ) : Option (Invocation ι ο) :=
  match log[k]? with
  | some (.invoke p i) => some ⟨p, i, k, answerTo log k⟩
  | _ => none

/-- **The calls of a log.** -/
def invocations (log : List (Action ι ο)) : List (Invocation ι ο) :=
  (List.range log.length).filterMap (invocationAt log)

/-- Those that were answered, -/
def completed (log : List (Action ι ο)) : List (Invocation ι ο) :=
  (invocations log).filter fun a => a.answer.isSome

/-- and those that were not. -/
def pending (log : List (Action ι ο)) : List (Invocation ι ο) :=
  (invocations log).filter fun a => !a.answer.isSome

variable {log : List (Action ι ο)} {p q m k j : ℕ} {i : ι} {o : ο}

theorem completed_append_pending : (completed log ++ pending log).Perm (invocations log) :=
  List.filter_append_perm _ _

theorem length_invocations_le : (invocations log).length ≤ log.length :=
  (List.length_filterMap_le _ _).trans List.length_range.le

section CallsBefore

theorem callsBefore_succ {a : Action ι ο} (h : log[m]? = some a) :
    callsBefore log (m + 1) = callsBefore log m + if a.caller.isSome then 1 else 0 := by
  rw [callsBefore, List.take_add_one, h, List.countP_append, callsBefore, Option.toList_some,
    List.countP_singleton]

theorem callsBefore_mono {m' : ℕ} (h : m ≤ m') : callsBefore log m ≤ callsBefore log m' :=
  (List.take_sublist_take_left h).countP_le

/-- **Calls are numbered in their order.** -/
theorem callsBefore_lt (hk : log[k]? = some (.invoke p i)) (h : k < m) :
    callsBefore log k < callsBefore log m := by
  have hsucc := callsBefore_succ hk
  have hmono : callsBefore log (k + 1) ≤ callsBefore log m := callsBefore_mono h
  simp only [Action.caller, Option.isSome_some, if_true] at hsucc
  omega

theorem callsBefore_inj {k' : ℕ} {i' : ι} (hk : log[k]? = some (.invoke p i))
    (hk' : log[k']? = some (.invoke q i')) (h : callsBefore log k = callsBefore log k') :
    k = k' := by
  rcases Nat.lt_trichotomy k k' with hlt | rfl | hlt
  · exact absurd h (callsBefore_lt hk hlt).ne
  · rfl
  · exact absurd h (callsBefore_lt hk' hlt).ne'

end CallsBefore

section OpenCall

theorem openCall_invoke (h : log[m]? = some (.invoke q i)) :
    openCall log p (m + 1) = if q = p then some m else openCall log p m := by
  rw [openCall, h]

theorem openCall_answer (h : log[m]? = some (.answer q o)) :
    openCall log p (m + 1) = if q = p then none else openCall log p m := by
  rw [openCall, h]

theorem openCall_skip (h : log[m]? = some .skip) : openCall log p (m + 1) = openCall log p m := by
  rw [openCall, h]

/-- A call that is open after a line was made there, or was open before
and the line is not its process's. -/
theorem openCall_succ_eq_some (h : openCall log p (m + 1) = some k) :
    (k = m ∧ ∃ i, log[m]? = some (.invoke p i)) ∨ openCall log p m = some k := by
  unfold openCall at h
  split at h
  · next q i hm =>
    split at h
    · next hq =>
      cases h
      exact Or.inl ⟨rfl, i, hq ▸ hm⟩
    · exact Or.inr h
  · next q o hm =>
    split at h
    · cases h
    · exact Or.inr h
  · exact Or.inr h

/-- An open call was made, -/
theorem invoke_of_openCall (h : openCall log p m = some k) :
    k < m ∧ ∃ i, log[k]? = some (.invoke p i) := by
  induction m with
  | zero => cases h
  | succ m ih =>
    rcases openCall_succ_eq_some h with ⟨rfl, hk⟩ | h
    · exact ⟨Nat.lt_succ_self k, hk⟩
    · obtain ⟨hlt, hk⟩ := ih h
      exact ⟨by omega, hk⟩

/-- and has been open ever since. -/
theorem openCall_of_le (h : openCall log p m = some k) (hk : k < j) (hj : j ≤ m) :
    openCall log p j = some k := by
  induction m with
  | zero => omega
  | succ m ih =>
    rcases hj.eq_or_lt with rfl | hlt
    · exact h
    · rcases openCall_succ_eq_some h with ⟨rfl, -⟩ | h
      · omega
      · exact ih h (by omega)

end OpenCall

section Answers

/-- A call has one process. -/
theorem process_of_openCall (h : openCall log p m = some k)
    (hk : log[k]? = some (.invoke q i)) : q = p := by
  obtain ⟨-, i', hk'⟩ := invoke_of_openCall h
  cases hk.symm.trans hk'
  rfl

/-- What has been answered is not answered again, nor open later. -/
theorem openCall_ne_of_answer (hj : log[j]? = some (.answer p o))
    (hopen : openCall log p j = some k) (hlt : j < m) : openCall log q m ≠ some k := by
  intro h
  obtain ⟨hkj, i, hk⟩ := invoke_of_openCall hopen
  obtain rfl : p = q := process_of_openCall h hk
  have hsucc : openCall log p (j + 1) = some k := openCall_of_le h (by omega) hlt
  rw [openCall_answer hj, if_pos rfl] at hsucc
  cases hsucc

theorem answerAt_eq_some {r : ℕ × ο} : answerAt log k j = some r ↔
    ∃ p o, log[j]? = some (.answer p o) ∧ openCall log p j = some k ∧ r = (j, o) := by
  unfold answerAt
  split
  · next p o hget =>
    rw [Option.ite_none_right_eq_some]
    constructor
    · rintro ⟨hopen, hr⟩
      exact ⟨p, o, hget, hopen, (Option.some.inj hr).symm⟩
    · rintro ⟨p', o', hget', hopen, rfl⟩
      cases hget.symm.trans hget'
      exact ⟨hopen, rfl⟩
  · next hget =>
    refine iff_of_false nofun ?_
    rintro ⟨p, o, hget', -⟩
    exact hget p o hget'

/-- **A call has one answer at most.** -/
theorem answerTo_eq_some : answerTo log k = some (j, o) ↔
    ∃ p, log[j]? = some (.answer p o) ∧ openCall log p j = some k := by
  have hsome : ∀ r, answerTo log k = some r →
      ∃ p, log[r.1]? = some (.answer p r.2) ∧ openCall log p r.1 = some k := by
    intro r h
    obtain ⟨j, -, hj⟩ := List.exists_of_findSome?_eq_some h
    obtain ⟨p, o, hget, hopen, rfl⟩ := answerAt_eq_some.1 hj
    exact ⟨p, hget, hopen⟩
  refine ⟨hsome (j, o), ?_⟩
  rintro ⟨p, hget, hopen⟩
  have hlen : j < log.length := (List.getElem?_eq_some_iff.1 hget).1
  cases h : answerTo log k with
  | none =>
    have hnone := List.findSome?_eq_none_iff.1 h j (List.mem_range.2 hlen)
    rw [answerAt_eq_some.2 ⟨p, o, hget, hopen, rfl⟩] at hnone
    cases hnone
  | some r =>
    obtain ⟨j', o'⟩ := r
    obtain ⟨p', hget', hopen'⟩ := hsome (j', o') h
    -- of two answers the later one would find the call closed
    rcases Nat.lt_trichotomy j' j with hlt | rfl | hlt
    · exact absurd hopen (openCall_ne_of_answer hget' hopen' hlt)
    · cases hget.symm.trans hget'
      rfl
    · exact absurd hopen' (openCall_ne_of_answer hget hopen hlt)

theorem answerTo_eq_none : answerTo log k = none ↔
    ∀ j p o, log[j]? = some (.answer p o) → openCall log p j ≠ some k := by
  constructor
  · intro h j p o hget hopen
    rw [answerTo_eq_some.2 ⟨p, hget, hopen⟩] at h
    cases h
  · intro h
    cases hk : answerTo log k with
    | none => rfl
    | some r =>
      obtain ⟨p, hget, hopen⟩ := answerTo_eq_some.1 hk
      exact absurd hopen (h _ p _ hget)

theorem invocationAt_eq_some {a : Invocation ι ο} : invocationAt log k = some a ↔
    ∃ p i, log[k]? = some (.invoke p i) ∧ a = ⟨p, i, k, answerTo log k⟩ := by
  unfold invocationAt
  split
  · next p i hk => simp [hk, eq_comm]
  · next hk =>
    refine iff_of_false nofun ?_
    rintro ⟨p, i, hk', -⟩
    exact hk p i hk'

/-- **A call of the log** is one that a line makes, with its answer. -/
theorem mem_invocations {a : Invocation ι ο} : a ∈ invocations log ↔
    log[a.call]? = some (.invoke a.process a.input) ∧ a.answer = answerTo log a.call := by
  simp only [invocations, List.mem_filterMap, List.mem_range, invocationAt_eq_some]
  constructor
  · rintro ⟨k, -, p, i, hk, rfl⟩
    exact ⟨hk, rfl⟩
  · rintro ⟨hk, ha⟩
    refine ⟨a.call, (List.getElem?_eq_some_iff.1 hk).1, a.process, a.input, hk, ?_⟩
    rw [← ha]

theorem nodup_invocations : (invocations log).Nodup := by
  refine List.Nodup.filterMap (fun k k' a hk hk' => ?_) List.nodup_range
  obtain ⟨p, i, -, rfl⟩ := invocationAt_eq_some.1 hk
  obtain ⟨p', i', -, he⟩ := invocationAt_eq_some.1 hk'
  exact congrArg Invocation.call he

/-- Calls of one number are one. -/
theorem eq_of_callsBefore_eq {a b : Invocation ι ο} (ha : a ∈ invocations log)
    (hb : b ∈ invocations log) (h : callsBefore log a.call = callsBefore log b.call) : a = b := by
  obtain ⟨hk, hans⟩ := mem_invocations.1 ha
  obtain ⟨hk', hans'⟩ := mem_invocations.1 hb
  have hcall : a.call = b.call := callsBefore_inj hk hk' h
  rw [hcall] at hk hans
  obtain ⟨p, i, k, r⟩ := a
  obtain ⟨p', i', k', r'⟩ := b
  cases hk.symm.trans hk'
  cases hcall
  cases hans.trans hans'.symm
  rfl

end Answers

section Sequential

/-- A call that has been made is open until it is answered. -/
theorem Sequential.answered_or_open_before (h : Sequential log)
    (hk : log[k]? = some (.invoke p i)) (hkm : k < m) (hm : m ≤ log.length) :
    (∃ r, answerTo log k = some r) ∨ openCall log p m = some k := by
  induction m with
  | zero => omega
  | succ m ih =>
    rcases (Nat.lt_succ_iff.1 hkm).eq_or_lt with rfl | hlt
    · rw [openCall_invoke hk, if_pos rfl]
      exact Or.inr rfl
    · rcases ih hlt (by omega) with hr | hopen
      · exact Or.inl hr
      · unfold openCall
        split
        · next q i' hget =>
          split
          · next hq =>
            subst hq
            have hcaller : q ∈ log[m]?.bind Action.caller := by rw [hget]; rfl
            rw [h m (by omega) q hcaller] at hopen
            cases hopen
          · exact Or.inr hopen
        · next q o hget =>
          split
          · next hq =>
            subst hq
            exact Or.inl ⟨_, answerTo_eq_some.2 ⟨q, hget, hopen⟩⟩
          · exact Or.inr hopen
        · exact Or.inr hopen

/-- It is answered, or open at the end. -/
def Invocation.Ends (log : List (Action ι ο)) (a : Invocation ι ο) : Prop :=
  a.answer ≠ none ∨ openCall log a.process log.length = some a.call

/-- **Every call is answered or open at the end.** -/
theorem Sequential.ends (h : Sequential log) {a : Invocation ι ο} (ha : a ∈ invocations log) :
    a.Ends log := by
  obtain ⟨hk, hans⟩ := mem_invocations.1 ha
  rcases h.answered_or_open_before hk (List.getElem?_eq_some_iff.1 hk).1 le_rfl with ⟨r, hr⟩ | hopen
  · left
    rw [hans, hr]
    exact Option.some_ne_none r
  · exact Or.inr hopen

/-- A call that its process did not wait for is never answered, nor open
at the end. -/
theorem abandoned_of_invoke (hm : log[m]? = some (.invoke p i)) (hopen : openCall log p m = some k) :
    answerTo log k = none ∧ ∀ q, openCall log q log.length ≠ some k := by
  obtain ⟨hkm, i', hk⟩ := invoke_of_openCall hopen
  have hlen : m < log.length := (List.getElem?_eq_some_iff.1 hm).1
  have hlater : ∀ q n, m < n → openCall log q n ≠ some k := by
    intro q n hn h
    obtain rfl : p = q := process_of_openCall h hk
    have hsucc : openCall log p (m + 1) = some k := openCall_of_le h (by omega) hn
    rw [openCall_invoke hm, if_pos rfl] at hsucc
    cases hsucc
    omega
  refine ⟨answerTo_eq_none.2 fun j q o hget h => ?_, fun q => hlater q _ hlen⟩
  rcases Nat.lt_trichotomy j m with hlt | rfl | hlt
  · exact openCall_ne_of_answer hget h hlt hopen
  · cases hm.symm.trans hget
  · exact hlater q j hlt h

/-- **A log all of whose calls end is sequential.** -/
theorem sequential_of_ends (h : ∀ a ∈ invocations log, a.Ends log) : Sequential log := by
  intro m hm p hcaller
  obtain ⟨a, hget, ha⟩ := Option.bind_eq_some_iff.1 hcaller
  obtain ⟨i, rfl⟩ : ∃ i, a = .invoke p i := by
    cases a with
    | invoke q i =>
      cases ha
      exact ⟨i, rfl⟩
    | answer q o => cases ha
    | skip => cases ha
  cases hopen : openCall log p m with
  | none => rfl
  | some k =>
    obtain ⟨-, i', hk⟩ := invoke_of_openCall hopen
    obtain ⟨hnone, hnever⟩ := abandoned_of_invoke hget hopen
    rcases h ⟨p, i', k, answerTo log k⟩ (mem_invocations.2 ⟨hk, rfl⟩) with hr | hr
    · exact absurd hnone hr
    · exact absurd hr (hnever p)

/-- A call that is open at the end is pending. -/
theorem exists_pending_of_openCall (h : openCall log p log.length = some k) :
    ∃ a ∈ pending log, a.process = p ∧ a.call = k := by
  obtain ⟨-, i, hk⟩ := invoke_of_openCall h
  have hnone : answerTo log k = none := answerTo_eq_none.2 fun j q o hj hopen =>
    openCall_ne_of_answer hj hopen (List.getElem?_eq_some_iff.1 hj).1 h
  refine ⟨⟨p, i, k, answerTo log k⟩, List.mem_filter.2 ⟨mem_invocations.2 ⟨hk, rfl⟩, ?_⟩, rfl, rfl⟩
  simp [hnone]

end Sequential

end ClientLog
