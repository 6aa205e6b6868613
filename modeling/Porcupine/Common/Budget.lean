import Porcupine.Common.Backtrack
import Mathlib.Data.Finset.Card
/-!
# What a memo saves

`Step.weight_lt` bounds a search by the tree it might unfold. A memo that
answers for every node it holds does better: no two of its nodes are
alike, so it holds no more nodes than there are kinds of them, and each
is explored once. `Budget` is what has to be known of the nodes the search
may come to, and `Metered` what is known at every step; the measure is the
nodes the memo may still receive, each with its candidates, and what is
waiting on the path (`Step.remaining_lt`).
-/

namespace Backtrack

namespace Problem

variable {N C K : Type*} {P : Problem N C} {root n n' m : N} {c : C} {cfg cfg' : Config N C}

/-- **What bounds the nodes the search comes to**: the good ones are kept
by candidates, have at most `w` of them, and those that candidates lead to
are of the kinds in `kinds`, of each of which the memo needs one. -/
structure Budget (P : Problem N C) (good : N → Prop) (kind : N → K) (kinds : Finset K) (w : ℕ) :
    Prop where
  expand : ∀ n c n', good n → c ∈ P.candidates n → P.expand n c = some n' →
    good n' ∧ kind n' ∈ kinds
  same : ∀ m n, good m → good n → kind m = kind n → P.same m n
  width : ∀ n, good n → (P.candidates n).length ≤ w

variable {good : N → Prop} {kind : N → K} {kinds : Finset K} {w : ℕ}

/-- The nodes of the path, if the root is good. -/
theorem Spine.good_node (hP : P.Budget good kind kinds w) (hroot : good root)
    {stack : List (Frame N C)} (h : P.Spine root n stack) : good n := by
  induction stack generalizing n with
  | nil => exact h ▸ hroot
  | cons f stack ih =>
    obtain ⟨⟨c, hc, he⟩, -, hrest⟩ := h
    exact (hP.expand _ c n (ih hrest) hc he).1

/-- **What the memo has been charged**: its nodes are good, of the kinds
allowed, and no two are of one. -/
structure Metered (good : N → Prop) (kind : N → K) (kinds : Finset K) (cfg : Config N C) :
    Prop where
  mem : ∀ m ∈ cfg.memo, good m ∧ kind m ∈ kinds
  nodup : (cfg.memo.map kind).Nodup

theorem metered_start (P : Problem N C) (root : N) : Metered good kind kinds (P.start root) :=
  ⟨by simp [start], List.nodup_nil⟩

/-- **No kind is charged twice**: the search goes down only to a node the
memo does not answer for. -/
theorem Metered.step (hP : P.Budget good kind kinds w) (hroot : good root)
    (h : Metered good kind kinds cfg) (hspine : P.OnSpine root cfg) (hs : P.Step cfg cfg') :
    Metered good kind kinds cfg' := by
  cases hs with
  | reject => exact ⟨h.mem, h.nodup⟩
  | prune => exact ⟨h.mem, h.nodup⟩
  | backtrack => exact ⟨h.mem, h.nodup⟩
  | @descend n n' c rest stack memo he hnew =>
    have hgood : good n := hspine.spine.good_node hP hroot
    have hn' := hP.expand n c n' hgood (hspine.rest c List.mem_cons_self) he
    refine ⟨List.forall_mem_cons.2 ⟨hn', h.mem⟩, List.nodup_cons.2 ⟨fun hmem => ?_, h.nodup⟩⟩
    obtain ⟨m, hm, heq⟩ := List.mem_map.1 hmem
    exact hnew m hm (hP.same m n' (h.mem m hm).1 hn'.1 heq)

/-- The memo holds no more nodes than there are kinds. -/
theorem Metered.length_le (h : Metered good kind kinds cfg) : cfg.memo.length ≤ kinds.card := by
  have hsub : (cfg.memo.map kind).Subperm kinds.toList :=
    List.subperm_of_subset h.nodup fun k hk => by
      obtain ⟨m, hm, rfl⟩ := List.mem_map.1 hk
      exact Finset.mem_toList.2 (h.mem m hm).2
  have hle := hsub.length_le
  rwa [List.length_map, Finset.length_toList] at hle

/-! ## The measure -/

/-- **What is left to spend**: the nodes the memo may still receive, with
the way back from each, and what is waiting on the path. -/
def remaining (w b : ℕ) (cfg : Config N C) : ℕ :=
  (b - cfg.memo.length) * (w + 1) + cfg.rest.length +
    (cfg.stack.map fun f => f.rest.length + 1).sum

theorem remaining_start (P : Problem N C) (root : N) (w b : ℕ) :
    remaining w b (P.start root) = b * (w + 1) + (P.candidates root).length := by
  simp [remaining, start]

/-- **Every step spends some of it**: a node that enters the memo costs
more than its candidates. -/
theorem Step.remaining_lt (hP : P.Budget good kind kinds w) (hroot : good root)
    (h : Metered good kind kinds cfg) (hspine : P.OnSpine root cfg) (hs : P.Step cfg cfg') :
    remaining w kinds.card cfg' < remaining w kinds.card cfg := by
  have h' : Metered good kind kinds cfg' := h.step hP hroot hspine hs
  cases hs with
  | reject =>
    simp only [remaining, List.length_cons]
    omega
  | prune =>
    simp only [remaining, List.length_cons]
    omega
  | backtrack =>
    simp only [remaining, List.map_cons, List.sum_cons, List.length_nil]
    omega
  | @descend n n' c rest stack memo he hnew =>
    have hgood : good n := hspine.spine.good_node hP hroot
    have hwidth : (P.candidates n').length ≤ w :=
      hP.width n' (hP.expand n c n' hgood (hspine.rest c List.mem_cons_self) he).1
    have hlen : memo.length + 1 ≤ kinds.card := h'.length_le
    -- the memo may receive one node less
    have hsucc : kinds.card - memo.length = kinds.card - (memo.length + 1) + 1 := by omega
    simp only [remaining, List.map_cons, List.sum_cons, List.length_cons]
    rw [hsucc, Nat.succ_mul]
    omega

end Problem

end Backtrack
