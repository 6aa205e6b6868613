import Porcupine.Common.Backtrack
/-!
# What happens while a node is visited

A search goes down from a node and comes back to it many times before it
leaves. `Visit` follows it from the configuration in which it enters the
node, and counts the candidates tried at the node itself. Those tried and
those still waiting are at any time the candidates the visit started with
(`Visit.visiting`), so a visit that ends with none waiting has tried each
of them, in order (`Visit.complete`).
-/

namespace Backtrack

namespace Problem

variable {N C : Type*} {P : Problem N C} {cfg₀ cfg cfg' : Config N C} {tried rest : List C} {c : C}

/-- **A visit of a node**, from the configuration in which it starts, with
the candidates tried at the node so far. -/
inductive Visit (P : Problem N C) (cfg₀ : Config N C) : List C → Config N C → Prop
  /-- The search has come to the node. -/
  | enter : Visit P cfg₀ [] cfg₀
  /-- A candidate of the node is tried. -/
  | attempt {tried rest : List C} {c : C} {cfg cfg' : Config N C} : Visit P cfg₀ tried cfg →
      cfg.stack.length = cfg₀.stack.length → cfg.rest = c :: rest → P.Step cfg cfg' →
      Visit P cfg₀ (tried ++ [c]) cfg'
  /-- The search is further down. -/
  | deeper {tried : List C} {cfg cfg' : Config N C} : Visit P cfg₀ tried cfg →
      cfg₀.stack.length < cfg.stack.length → P.Step cfg cfg' → Visit P cfg₀ tried cfg'

/-- The node is being explored, or waits in the stack, with `rest` still to
try. -/
def Visiting (cfg₀ : Config N C) (rest : List C) (cfg : Config N C) : Prop :=
  (cfg.node = cfg₀.node ∧ cfg.rest = rest ∧ cfg.stack = cfg₀.stack) ∨
    ∃ above, cfg.stack = above ++ ⟨cfg₀.node, rest⟩ :: cfg₀.stack

/-- Nothing is above the node when the stack is as high as it was. -/
theorem Visiting.at_node (h : Visiting cfg₀ rest cfg)
    (hlen : cfg.stack.length = cfg₀.stack.length) :
    cfg.node = cfg₀.node ∧ cfg.rest = rest ∧ cfg.stack = cfg₀.stack := by
  rcases h with h | ⟨above, hstack⟩
  · exact h
  · rw [hstack, List.length_append, List.length_cons] at hlen
    omega

/-- A candidate tried at the node no longer waits there. -/
theorem Visiting.attempt (h : Visiting cfg₀ (c :: rest) cfg)
    (hlen : cfg.stack.length = cfg₀.stack.length) (hs : P.Step cfg cfg') :
    Visiting cfg₀ rest cfg' := by
  obtain ⟨hnode, hrest, hstack⟩ := h.at_node hlen
  cases hs with
  | reject =>
    cases hrest
    exact Or.inl ⟨hnode, rfl, hstack⟩
  | prune =>
    cases hrest
    exact Or.inl ⟨hnode, rfl, hstack⟩
  | descend =>
    cases hrest
    exact Or.inr ⟨[], by rw [← hnode, ← hstack]; rfl⟩
  | backtrack => cases hrest

/-- What is done below the node leaves what waits there. -/
theorem Visiting.deeper (h : Visiting cfg₀ rest cfg)
    (hlen : cfg₀.stack.length < cfg.stack.length) (hs : P.Step cfg cfg') :
    Visiting cfg₀ rest cfg' := by
  obtain ⟨above, hstack⟩ : ∃ above, cfg.stack = above ++ ⟨cfg₀.node, rest⟩ :: cfg₀.stack := by
    rcases h with ⟨-, -, hstack⟩ | h
    · rw [hstack] at hlen
      exact absurd hlen (Nat.lt_irrefl _)
    · exact h
  cases hs with
  | reject => exact Or.inr ⟨above, hstack⟩
  | prune => exact Or.inr ⟨above, hstack⟩
  | descend => exact Or.inr ⟨_ :: above, congrArg (List.cons _) hstack⟩
  | backtrack =>
    cases above with
    | nil =>
      cases hstack
      exact Or.inl ⟨rfl, rfl, rfl⟩
    | cons f above => exact Or.inr ⟨above, (List.cons.inj hstack).2⟩

/-- **Tried and waiting together are what the visit started with.** -/
theorem Visit.visiting (h : P.Visit cfg₀ tried cfg) :
    ∃ rest, tried ++ rest = cfg₀.rest ∧ Visiting cfg₀ rest cfg := by
  induction h with
  | enter => exact ⟨cfg₀.rest, rfl, Or.inl ⟨rfl, rfl, rfl⟩⟩
  | attempt _ hlen hrest hs ih =>
    obtain ⟨rest, hsplit, hv⟩ := ih
    obtain rfl : _ = rest := hrest.symm.trans (hv.at_node hlen).2.1
    exact ⟨_, by rw [List.append_assoc, List.singleton_append, hsplit], hv.attempt hlen hs⟩
  | deeper _ hlen hs ih =>
    obtain ⟨rest, hsplit, hv⟩ := ih
    exact ⟨rest, hsplit, hv.deeper hlen hs⟩

/-- Back at the node, the search is where the visit started, but for what
it has tried. -/
theorem Visit.at_node (h : P.Visit cfg₀ tried cfg)
    (hlen : cfg.stack.length = cfg₀.stack.length) :
    cfg.node = cfg₀.node ∧ tried ++ cfg.rest = cfg₀.rest := by
  obtain ⟨rest, hsplit, hv⟩ := h.visiting
  obtain ⟨hnode, hrest, -⟩ := hv.at_node hlen
  exact ⟨hnode, hrest ▸ hsplit⟩

/-- The stack is never lower than at the start of the visit. -/
theorem Visit.length_le (h : P.Visit cfg₀ tried cfg) : cfg₀.stack.length ≤ cfg.stack.length := by
  obtain ⟨rest, -, ⟨-, -, hstack⟩ | ⟨above, hstack⟩⟩ := h.visiting
  · rw [hstack]
  · rw [hstack, List.length_append, List.length_cons]
    omega

/-- **A visit with nothing left to try has tried everything**, once and in
order, -/
theorem Visit.complete (h : P.Visit cfg₀ tried cfg)
    (hlen : cfg.stack.length ≤ cfg₀.stack.length) (hrest : cfg.rest = []) : tried = cfg₀.rest := by
  have hle := h.length_le
  have hsplit := (h.at_node (le_antisymm hlen hle)).2
  rwa [hrest, List.append_nil] at hsplit

/-- and the search does not leave before. -/
theorem Visit.complete_of_step (h : P.Visit cfg₀ tried cfg) (hs : P.Step cfg cfg')
    (hlen : cfg'.stack.length < cfg₀.stack.length) : tried = cfg₀.rest := by
  have hle := h.length_le
  obtain ⟨hrest, hstack⟩ := hs.returns (hlen.trans_le hle)
  exact h.complete (by omega) hrest

end Problem

end Backtrack
