import Porcupine.Check.Decides
import Porcupine.Model.Fixtures
import Porcupine.Spec.Events
import Mathlib.Logic.Equiv.Fin.Basic
import Mathlib.Order.Monotone.Defs
/-!
# Less real-time order, no less linearizable

A history whose operations precede one another only where those of another
history do is linearizable when the other is. So the order of the slice,
the clients and the scale of time do not matter, and wider intervals never
make a history illegal.
-/

namespace Porcupine

open Linearization

variable {State Input Output : Type} {model : Model State Input Output}
variable {history history' : List (Operation Input Output)}

/-- The positions of a list, carried over to another list. -/
theorem finRange_map_perm {n m : ℕ} (e : Fin n ≃ Fin m) :
    ((List.finRange n).map e).Perm (List.finRange m) := by
  refine (List.perm_ext_iff_of_nodup ((List.nodup_finRange n).map e.injective)
    (List.nodup_finRange m)).2 fun i => ?_
  simp only [List.mem_map, List.mem_finRange, true_and, iff_true]
  exact ⟨e.symm i, e.apply_symm_apply i⟩

/-- **Linearizability is monotone in the real-time order**, along any
bijection of the operations. -/
theorem HistoryLinearizable.of_equiv (h : HistoryLinearizable model history)
    (e : Fin history.length ≃ Fin history'.length)
    (hio : ∀ i, (history'.get (e i)).io = (history.get i).io)
    (hbefore : ∀ i j, (history'.get (e i)).Before (history'.get (e j)) →
      (history.get i).Before (history.get j)) : HistoryLinearizable model history' := by
  -- both histories as lists of the positions of the first
  have hperm : ((List.finRange history.length).map fun i => history'.get (e i)).Perm history' := by
    have hmap := (finRange_map_perm e).map history'.get
    rwa [List.map_map, List.map_get_finRange] at hmap
  have h' : HistoryLinearizable model ((List.finRange history.length).map history.get) := by
    rwa [List.map_get_finRange]
  unfold HistoryLinearizable at h' ⊢
  rw [linearizable_map] at h'
  rw [← linearizable_perm hperm, linearizable_map]
  refine ((linearizable_congr_step (fun s i => model.apply s (history'.get (e i)).io)
    fun s i _ => ?_).1 h').mono fun i _ j _ => hbefore i j
  rw [hio i]

/-- The times of a history. -/
def timestamps (history : List (Operation Input Output)) : Set ℕ :=
  {t | ∃ op ∈ history, t = op.call ∨ t = op.returnTime}

/-- The operation at other times. -/
def Operation.retime (f : ℕ → ℕ) (op : Operation Input Output) : Operation Input Output :=
  { op with call := f op.call, returnTime := f op.returnTime }

/-- **A strictly increasing re-timing changes nothing.** -/
theorem historyLinearizable_retime {f : ℕ → ℕ} (hf : StrictMonoOn f (timestamps history)) :
    HistoryLinearizable model (history.map (Operation.retime f)) ↔
      HistoryLinearizable model history :=
  historyLinearizable_map (Operation.retime f) (fun _ _ => rfl) fun a ha b hb =>
    hf.lt_iff_lt ⟨a, ha, Or.inr rfl⟩ ⟨b, hb, Or.inl rfl⟩

/-- The intervals of the second history contain those of the first. -/
def Widens (history history' : List (Operation Input Output)) : Prop :=
  List.Forall₂ (fun a b => b.io = a.io ∧ b.call ≤ a.call ∧ a.returnTime ≤ b.returnTime)
    history history'

/-- **Wider intervals keep every linearization.** -/
theorem HistoryLinearizable.widen (h : HistoryLinearizable model history)
    (hw : Widens history history') : HistoryLinearizable model history' := by
  have hat : ∀ i, _ := fun i : Fin history.length =>
    hw.get i.isLt (hw.length_eq ▸ i.isLt)
  refine h.of_equiv (finCongr hw.length_eq) (fun i => (hat i).1) fun i j hbefore => ?_
  have hlt : (history.get i).returnTime < (history.get j).call :=
    ((hat i).2.2.trans_lt hbefore).trans_le (hat j).2.1
  exact hlt

variable [BEq State]

/-- The two histories are given one verdict. -/
def SameVerdict (debug : Bool) (srt : UnstableSort (List (Entry Input Output)))
    (model : Model State Input Output) (history history' : List (Operation Input Output)) : Prop :=
  ∃ r, (checker debug srt model).Returns r (checkOperations debug model history none) ∧
    (checker debug srt model).Returns r (checkOperations debug model history' none)

section SameVerdict

variable {debug : Bool} {srt : UnstableSort (List (Entry Input Output))}
variable (hpart : ∀ history, model.partition history = none) (hlaw : model.Lawful)
variable (hwf : ∀ op ∈ history, op.WellFormed) (hsize : history.length < 2 ^ 31)

include hpart hlaw hwf hsize

/-- The check of the history decides it. -/
theorem decides_history : Decides (checker debug srt model)
    (checkOperations debug model history none) (HistoryLinearizable model history) :=
  (prepares_operations debug (hpart history) hwf hsize).decides hlaw

/-- Histories that are linearizable together are given one verdict. -/
theorem sameVerdict_of_iff (hwf' : ∀ op ∈ history', op.WellFormed)
    (hlen : history.length = history'.length)
    (h : HistoryLinearizable model history ↔ HistoryLinearizable model history') :
    SameVerdict debug srt model history history' :=
  ((decides_history hpart hlaw hwf hsize).congr h).agree
    (decides_history hpart hlaw hwf' (hlen ▸ hsize))

theorem sameVerdict_perm (h : history.Perm history') :
    SameVerdict debug srt model history history' :=
  sameVerdict_of_iff hpart hlaw hwf hsize (fun op hop => hwf op (h.mem_iff.2 hop)) h.length_eq
    (linearizable_perm h)

theorem sameVerdict_content (h : history.map Operation.content = history'.map Operation.content) :
    SameVerdict debug srt model history history' := by
  refine sameVerdict_of_iff hpart hlaw hwf hsize (fun op hop => ?_) ?_
    (historyLinearizable_of_perm (.of_eq h))
  · obtain ⟨op', hop', he⟩ := List.mem_map.1 (h ▸ List.mem_map_of_mem hop)
    obtain ⟨-, htimes⟩ := Prod.mk.inj he
    obtain ⟨hcall, hret⟩ := Prod.mk.inj htimes
    rw [Operation.WellFormed, ← hcall, ← hret]
    exact hwf op' hop'
  · simpa using congrArg List.length h

theorem sameVerdict_retime {f : ℕ → ℕ} (hf : StrictMonoOn f (timestamps history)) :
    SameVerdict debug srt model history (history.map (Operation.retime f)) := by
  refine sameVerdict_of_iff hpart hlaw hwf hsize (fun op hop => ?_) (by rw [List.length_map])
    (historyLinearizable_retime hf).symm
  obtain ⟨op', hop', rfl⟩ := List.mem_map.1 hop
  exact hf.monotoneOn ⟨op', hop', Or.inl rfl⟩ ⟨op', hop', Or.inr rfl⟩ (hwf op' hop')

theorem not_illegal_of_widens (hw : Widens history history')
    (hok : (checker debug srt model).Returns .ok (checkOperations debug model history none)) :
    ¬ (checker debug srt model).Returns .illegal (checkOperations debug model history' none) := by
  have hwf' : ∀ op ∈ history', op.WellFormed := by
    intro op hop
    obtain ⟨i, hi, rfl⟩ := List.getElem_of_mem hop
    have hi' : i < history.length := hw.length_eq ▸ hi
    obtain ⟨-, hcall, hret⟩ := hw.get hi' hi
    exact (hcall.trans (hwf _ (List.getElem_mem hi'))).trans hret
  have hlin : HistoryLinearizable model history :=
    (decides_history hpart hlaw hwf hsize).ok_iff.1 hok
  intro hill
  exact (decides_history hpart hlaw hwf' (hw.length_eq ▸ hsize)).illegal_iff.1 hill (hlin.widen hw)

end SameVerdict

/-- Swapping two elements permutes a list. -/
theorem swap_perm {α : Type} (pre mid post : List α) (a b : α) :
    (pre ++ a :: mid ++ b :: post).Perm (pre ++ b :: mid ++ a :: post) := by
  simp only [List.append_assoc, List.cons_append]
  refine List.Perm.append_left pre ?_
  exact (List.perm_middle.cons a).trans
    ((List.Perm.swap _ _ _).trans (List.perm_middle.symm.cons b))

/-- **The verdict is monotone in the real-time order**: permuting the
slice, renaming clients, swapping tied operations and re-timing leave it as
it is, and widening intervals never turns `Ok` into `Illegal`. -/
theorem checkOperations_monotone (debug : Bool) (srt : UnstableSort (List (Entry Input Output)))
    (model : Model State Input Output) (hpart : ∀ history, model.partition history = none)
    (hlaw : model.Lawful) :
    (∀ (history history' : List (Operation Input Output))
      (e : Fin history.length ≃ Fin history'.length),
      (∀ op ∈ history, op.call ≤ op.returnTime) → (∀ op ∈ history', op.call ≤ op.returnTime) →
      history.length ≤ 2 ^ 31 - 1 → (∀ i, (history'.get (e i)).io = (history.get i).io) →
      (∀ i j, (history'.get (e i)).returnTime < (history'.get (e j)).call →
        (history.get i).returnTime < (history.get j).call) →
      (checker debug srt model).Returns .ok (checkOperations debug model history none) →
      (checker debug srt model).Returns .ok (checkOperations debug model history' none)) ∧
    ∀ history : List (Operation Input Output), (∀ op ∈ history, op.call ≤ op.returnTime) →
      history.length ≤ 2 ^ 31 - 1 →
      (∀ history', history.Perm history' → SameVerdict debug srt model history history') ∧
      (∀ history', history.map Operation.content = history'.map Operation.content →
        SameVerdict debug srt model history history') ∧
      (∀ pre a mid b post, history = pre ++ a :: mid ++ b :: post → a.call = b.call →
        a.returnTime = b.returnTime →
        SameVerdict debug srt model history (pre ++ b :: mid ++ a :: post)) ∧
      (∀ f, StrictMonoOn f (timestamps history) →
        SameVerdict debug srt model history (history.map (Operation.retime f))) ∧
      (∀ d, SameVerdict debug srt model history (history.map (Operation.retime (· + d)))) ∧
      ∀ history', Widens history history' →
        (checker debug srt model).Returns .ok (checkOperations debug model history none) →
        ¬ (checker debug srt model).Returns .illegal
          (checkOperations debug model history' none) := by
  refine ⟨fun history history' e hwf hwf' hsize hio hbefore hok => ?_,
    fun history hwf hsize => ?_⟩
  · have hlen : history.length = history'.length := Fin.equiv_iff_eq.1 ⟨e⟩
    have hlin : HistoryLinearizable model history :=
      (decides_history hpart hlaw hwf (by omega)).ok_iff.1 hok
    exact (decides_history hpart hlaw hwf' (by omega)).ok (hlin.of_equiv e hio hbefore)
  · have hsize' : history.length < 2 ^ 31 := by omega
    refine ⟨fun _ h => sameVerdict_perm hpart hlaw hwf hsize' h,
      fun _ h => sameVerdict_content hpart hlaw hwf hsize' h, ?_,
      fun _ hf => sameVerdict_retime hpart hlaw hwf hsize' hf,
      fun d => sameVerdict_retime hpart hlaw hwf hsize' fun _ _ _ _ hlt =>
        Nat.add_lt_add_right hlt d,
      fun _ hw hok => not_illegal_of_widens hpart hlaw hwf hsize' hw hok⟩
    -- swapping two operations only permutes the history, tied or not
    rintro pre a mid b post rfl - -
    exact sameVerdict_perm hpart hlaw hwf hsize' (swap_perm pre mid post a b)

/-- A write, and a read of it afterwards. -/
def writeThenRead : List (Operation RegisterInput ℤ) :=
  [⟨0, ⟨true, 7⟩, 1, 0, 2⟩, ⟨1, ⟨false, 0⟩, 3, 7, 4⟩]

/-- The two at once, the read listed first. -/
def readAroundWrite : List (Operation RegisterInput ℤ) :=
  [⟨0, ⟨false, 0⟩, 0, 7, 6⟩, ⟨0, ⟨true, 7⟩, 0, 0, 6⟩]

theorem checkOperations_monotone_writeThenRead :
    (checker true (.insertion _) RegisterModel).Returns .ok
      (checkOperations true RegisterModel readAroundWrite none) ∧
    SameVerdict true (.insertion _) RegisterModel writeThenRead writeThenRead.reverse ∧
    SameVerdict true (.insertion _) RegisterModel writeThenRead
      (writeThenRead.map fun op => { op with clientId := 9 }) ∧
    SameVerdict true (.insertion _) RegisterModel readAroundWrite readAroundWrite.reverse ∧
    SameVerdict true (.insertion _) RegisterModel writeThenRead
      (writeThenRead.map (Operation.retime fun t => t * t)) ∧
    SameVerdict true (.insertion _) RegisterModel writeThenRead
      (writeThenRead.map (Operation.retime (· + 5))) ∧
    ¬ (checker true (.insertion _) RegisterModel).Returns .illegal
      (checkOperations true RegisterModel readAroundWrite.reverse none) := by
  have hlaw : RegisterModel.Lawful := RegisterModel.lawful_of_lawfulBEq
  have hok : (checker true (.insertion _) RegisterModel).Returns .ok
      (checkOperations true RegisterModel writeThenRead none) :=
    (decides_history (fun _ => rfl) hlaw (by decide) (by decide)).ok
      ⟨writeThenRead, .refl _, by simp [Respects, writeThenRead, Operation.Before], rfl⟩
  obtain ⟨hmono, hrest⟩ := checkOperations_monotone true (.insertion _) RegisterModel
    (fun _ => rfl) hlaw
  obtain ⟨hperm, hclients, -, hretime, hshift, hwiden⟩ :=
    hrest writeThenRead (by decide) (by decide)
  obtain ⟨-, -, hswap, -, -, -⟩ := hrest readAroundWrite (by decide) (by decide)
  refine ⟨hmono writeThenRead readAroundWrite (Equiv.swap 0 1 : Fin 2 ≃ Fin 2)
    (by decide) (by decide) (by decide) (by decide) (by decide) hok, hperm _ (List.reverse_perm _).symm,
    hclients _ rfl, hswap [] _ [] _ [] rfl rfl rfl, hretime _ ?_, hshift 5,
    hwiden _ (.cons (by decide) (.cons (by decide) .nil)) hok⟩
  exact fun a _ b _ hab => Nat.mul_self_lt_mul_self hab

end Porcupine
