import Porcupine.Search.Verdict
import Mathlib.Data.List.Sort
/-!
# What the search reads of the order of its entries

The candidates at a node are listed in the order of their calls, and which
they are depends on which returns come before which calls. So entry lists
that agree on these two orders have one graph, however they place their
returns, and `check_single` returns the same on both, whatever `==` is
(`Paired.checksTo_eq_of_order`).
-/

namespace Porcupine
open Backtrack
variable {State Input Output : Type}
variable {entries entries' : List (Entry Input Output)} {n id : ℕ}
variable {model model' : Model State Input Output}

theorem Paired.opOf_eq_none (h : Paired entries n) (hid : n ≤ id) : opOf entries id = none := by
  have hnot : (id, true) ∉ entries.map Entry.tag := fun hmem =>
    absurd ((h.mem_tag _).1 hmem) (Nat.not_lt.2 hid)
  have hpos : callPos entries id = entries.length := by
    rw [callPos, posOf, List.idxOf_eq_length hnot, List.length_map]
  have hnone : entries[callPos entries id]? = none := by
    rw [List.getElem?_eq_none_iff, hpos]
  simp only [opOf, hnone]

/-- The frontier lists its operations in the order of their calls. -/
theorem Paired.frontier_sorted (h : Paired entries n) (ids : List ℕ) :
    (frontier entries (live entries ids)).Pairwise fun a b =>
      callPos entries a < callPos entries b := by
  have hsorted : ((live entries ids).takeWhile (isCallAt entries)).Pairwise (· < ·) :=
    live_sorted.sublist (List.takeWhile_sublist _)
  refine List.pairwise_map.2 (hsorted.imp_of_mem fun {p q} hp hq hlt => ?_)
  have hpos : ∀ p ∈ (live entries ids).takeWhile (isCallAt entries),
      callPos entries (idAt entries p) = p := by
    intro p hp
    have hcall := List.mem_takeWhile_imp hp
    have hpos := (h.posOf_idAt (mem_live.1 ((List.takeWhile_sublist _).subset hp)).1).1
    rwa [hcall] at hpos
  rwa [hpos p hp, hpos q hq]

/-- **Lists that order their calls alike, and their returns and calls, have
one graph.** -/
theorem searchProblem_eq_of_order [BEq State] (hpair : Paired entries n) (hpair' : Paired entries' n)
    (hstep : model'.step = model.step)
    (hop : ∀ id < n, opOf entries' id = opOf entries id)
    (hprec : ∀ a < n, ∀ b < n, Precedes entries' a b ↔ Precedes entries a b)
    (hcall : ∀ a < n, ∀ b < n, callPos entries' a < callPos entries' b ↔
      callPos entries a < callPos entries b) :
    searchProblem model' entries' = searchProblem model entries := by
  have hop' : opOf entries' = opOf entries := by
    funext id
    by_cases hid : id < n
    · exact hop id hid
    · rw [hpair.opOf_eq_none (Nat.not_lt.1 hid), hpair'.opOf_eq_none (Nat.not_lt.1 hid)]
  have hfrontier : ∀ ids, frontier entries' (live entries' ids) = frontier entries (live entries ids) := by
    intro ids
    have hmem : ∀ id, id ∈ frontier entries' (live entries' ids) ↔
        id ∈ frontier entries (live entries ids) := by
      intro id
      rw [hpair.mem_frontier, hpair'.mem_frontier]
      refine and_congr_right fun hid => and_congr_right fun _ => ?_
      exact forall₂_congr fun i hi => imp_congr_right fun _ => not_congr (hprec i hi id hid)
    -- one order sorts both, and they have the same members
    let r := fun a b => callPos entries a < callPos entries b
    have : Std.Irrefl r := ⟨fun _ => Nat.lt_irrefl _⟩
    have : Std.Antisymm r := ⟨fun _ _ h h' => absurd h' (Nat.lt_asymm h)⟩
    have hsorted : (frontier entries' (live entries' ids)).Pairwise r :=
      (hpair'.frontier_sorted ids).imp_of_mem fun {a b} ha hb hlt =>
        (hcall a (hpair'.mem_frontier.1 ha).1 b (hpair'.mem_frontier.1 hb).1).1 hlt
    exact hsorted.eq_of_mem_iff (hpair.frontier_sorted ids) hmem
  have hlive : ∀ ids, live entries' ids = [] ↔ live entries ids = [] := fun ids => by
    rw [hpair.live_eq_nil_iff, hpair'.live_eq_nil_iff]
  have hlen : entries'.length = entries.length := by rw [hpair.length_eq, hpair'.length_eq]
  simp only [searchProblem, applyOp, hop', hfrontier, hlive, hlen, hstep]

/-- **They get one verdict.** -/
theorem Paired.checksTo_eq_of_order [BEq State] {debug b b' : Bool} (hpair : Paired entries n)
    (hpair' : Paired entries' n) (hsize : entries.length < NONE) (hinit : model'.init = model.init)
    (hstep : model'.step = model.step) (hop : ∀ id < n, opOf entries' id = opOf entries id)
    (hprec : ∀ a < n, ∀ b < n, Precedes entries' a b ↔ Precedes entries a b)
    (hcall : ∀ a < n, ∀ b < n, callPos entries' a < callPos entries' b ↔
      callPos entries a < callPos entries b)
    (h : ChecksTo debug model entries b) (h' : ChecksTo debug model' entries' b') : b = b' := by
  have hsize' : entries'.length < NONE := by rwa [hpair'.length_eq, ← hpair.length_eq]
  exact hpair.checksTo_unique hpair' hsize hsize' hinit
    (searchProblem_eq_of_order hpair hpair' hstep hop hprec hcall) h h'

end Porcupine
