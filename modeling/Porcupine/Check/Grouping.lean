import Porcupine.Check.Partitions
import Porcupine.Model.Fixtures
/-!
# Index lists by key

A partition by key lists, for each key that occurs, the positions of its
elements (`positionsOf`). The code collects them in a hash map, one index
after another (`indicesByKey`), and walks the map in an order of its own.
Whatever that order, the lists are the classes of the key, each in history
order (`exists_parts`).
-/

namespace Porcupine

/-- **The index lists split the history by key**: no key is in two of
them. -/
structure SplitsByKey {α κ : Type} (key : α → κ) (history : List α) (parts : List (List ℕ)) :
    Prop where
  covers : parts.flatten.Perm (List.range history.length)
  distinct : parts.Pairwise fun g g' => ∀ a ∈ pick history g, ∀ b ∈ pick history g', key a ≠ key b

/-- A key determines its index list. -/
theorem SplitsByKey.unique {α κ : Type} {key : α → κ} {history : List α} {parts : List (List ℕ)}
    (h : SplitsByKey key history parts) {g g' : List ℕ} (hg : g ∈ parts) (hg' : g' ∈ parts)
    {a b : α} (ha : a ∈ pick history g) (hb : b ∈ pick history g') (hkey : key a = key b) :
    g = g' := by
  by_contra hne
  have hsymm : Std.Symm fun g g' : List ℕ => ∀ a ∈ pick history g, ∀ b ∈ pick history g',
      key a ≠ key b := ⟨fun g g' hgg' a ha b hb => (hgg' b hb a ha).symm⟩
  exact h.distinct.forall hg hg' hne a ha b hb hkey

/-- **The index lists are the classes of a key**: no key is in two of them,
and none has two keys. -/
structure GroupsByKey {α κ : Type} (key : α → κ) (history : List α) (parts : List (List ℕ)) : Prop
    extends SplitsByKey key history parts where
  uniform : ∀ g ∈ parts, ∀ a ∈ pick history g, ∀ b ∈ pick history g, key a = key b

/-- **A group is everything with its key.** -/
theorem GroupsByKey.pick_perm {α κ : Type} [DecidableEq κ] {key : α → κ} {history : List α}
    {parts : List (List ℕ)} (hk : GroupsByKey key history parts) {g : List ℕ} (hg : g ∈ parts)
    {a : α} (ha : a ∈ pick history g) :
    (pick history g).Perm (history.filter fun b => key b = key a) := by
  obtain ⟨pre, post, rfl⟩ := List.append_of_mem hg
  obtain ⟨-, hpost, hpre⟩ := List.pairwise_append.1 hk.distinct
  have hself : (pick history g).filter (fun b => key b = key a) = pick history g :=
    List.filter_eq_self.2 fun b hb => decide_eq_true (hk.uniform g hg b hb a ha)
  -- the other groups have other keys
  have hnone : ∀ gs : List (List ℕ), (∀ g' ∈ gs, ∀ b ∈ pick history g', key b ≠ key a) →
      ((gs.map (pick history)).flatten.filter fun b => key b = key a) = [] := by
    intro gs hgs
    refine List.filter_eq_nil_iff.2 fun b hb => ?_
    obtain ⟨l, hl, hb⟩ := List.mem_flatten.1 hb
    obtain ⟨g', hg', rfl⟩ := List.mem_map.1 hl
    simpa using hgs g' hg' b hb
  have hsplit : ((((pre ++ g :: post).map (pick history)).flatten).filter fun b => key b = key a) =
      pick history g := by
    rw [List.map_append, List.map_cons, List.flatten_append, List.flatten_cons, List.filter_append,
      List.filter_append, hnone pre, hnone post, hself, List.nil_append, List.append_nil]
    · exact fun g' hg' b hb => ((List.pairwise_cons.1 hpost).1 g' hg' a ha b hb).symm
    · exact fun g' hg' b hb => hpre g' hg' g List.mem_cons_self b hb a ha
  rw [← hsplit]
  exact (pick_covers hk.covers).filter _

section Positions

variable {α κ : Type} [DecidableEq κ] {history : List α} {f : α → κ} {k : κ} {i : ℕ} {a : α}

/-- The positions of a key, in order. -/
def positionsOf (f : α → κ) (history : List α) (k : κ) : List ℕ :=
  (List.range history.length).filter fun i => history[i]?.map f = some k

theorem mem_positionsOf : i ∈ positionsOf f history k ↔ ∃ a, history[i]? = some a ∧ f a = k := by
  rw [positionsOf, List.mem_filter, decide_eq_true_eq, Option.map_eq_some_iff, List.mem_range,
    and_iff_right_iff_imp]
  rintro ⟨a, ha, -⟩
  exact (List.getElem?_eq_some_iff.1 ha).1

/-- What is picked at the positions of a key has the key. -/
theorem eq_of_mem_pick_positionsOf (ha : a ∈ pick history (positionsOf f history k)) : f a = k := by
  obtain ⟨i, hi, hget⟩ := mem_pick.1 ha
  obtain ⟨a', ha', hk⟩ := mem_positionsOf.1 hi
  cases hget.symm.trans ha'
  exact hk

/-- **The positions of the keys cover the history.** -/
theorem positionsOf_covers {keys : List κ} (hnd : keys.Nodup)
    (hkeys : ∀ k, k ∈ keys ↔ k ∈ history.map f) :
    (keys.map (positionsOf f history)).flatten.Perm (List.range history.length) := by
  have hflat : (keys.map (positionsOf f history)).flatten.Nodup := by
    refine List.nodup_flatten.2 ⟨fun g hg => ?_, ?_⟩
    · obtain ⟨k, -, rfl⟩ := List.mem_map.1 hg
      exact List.nodup_range.filter _
    · refine List.pairwise_map.2 (hnd.imp fun {k k'} hne i hi hi' => hne ?_)
      obtain ⟨a, ha, rfl⟩ := mem_positionsOf.1 hi
      obtain ⟨a', ha', rfl⟩ := mem_positionsOf.1 hi'
      cases ha.symm.trans ha'
      rfl
  refine (List.perm_ext_iff_of_nodup hflat List.nodup_range).2 fun i => ?_
  rw [List.mem_range]
  constructor
  · intro hi
    obtain ⟨g, hg, hi⟩ := List.mem_flatten.1 hi
    obtain ⟨k, -, rfl⟩ := List.mem_map.1 hg
    exact List.mem_range.1 (List.mem_of_mem_filter hi)
  · intro hi
    have hget : history[i]? = some history[i] := List.getElem?_eq_getElem hi
    exact List.mem_flatten.2 ⟨_, List.mem_map_of_mem ((hkeys _).2
      (List.mem_map_of_mem (List.mem_of_getElem? hget))), mem_positionsOf.2 ⟨_, hget, rfl⟩⟩

end Positions

/-! ## Indices by key -/

section Grouping

variable {α κ : Type} [DecidableEq κ] {f : α → κ} {keys : List κ} {elems : List α}

/-- The positions of each key are the groups of the keys, in history
order. -/
theorem groupsByKey_positionsOf (hnd : keys.Nodup) (hkeys : ∀ k, k ∈ keys ↔ k ∈ elems.map f) :
    GroupsByKey f elems (keys.map (positionsOf f elems)) ∧
      Ascending (keys.map (positionsOf f elems)) := by
  refine ⟨⟨⟨positionsOf_covers hnd hkeys, ?_⟩, fun g hg => ?_⟩, fun g hg => ?_⟩
  · refine List.pairwise_map.2 (hnd.imp fun {k k'} hne a ha b hb => ?_)
    rw [eq_of_mem_pick_positionsOf ha, eq_of_mem_pick_positionsOf hb]
    exact hne
  · obtain ⟨k, -, rfl⟩ := List.mem_map.1 hg
    intro a ha b hb
    rw [eq_of_mem_pick_positionsOf ha, eq_of_mem_pick_positionsOf hb]
  · obtain ⟨k, -, rfl⟩ := List.mem_map.1 hg
    exact List.pairwise_lt_range.filter _

omit [DecidableEq κ] in
/-- There are no more keys than elements. -/
theorem length_keys_le (hnd : keys.Nodup) (hkeys : ∀ k, k ∈ keys ↔ k ∈ elems.map f) :
    keys.length ≤ elems.length := by
  have hsub : keys.Subperm (elems.map f) := hnd.subperm fun k hk => (hkeys k).1 hk
  simpa using hsub.length_le

theorem positionsOf_append (a : α) (k : κ) : positionsOf f (elems ++ [a]) k =
    positionsOf f elems k ++ if f a = k then [elems.length] else [] := by
  have hold : ∀ i ∈ List.range elems.length, (decide ((elems ++ [a])[i]?.map f = some k)) =
      decide (elems[i]?.map f = some k) := by
    intro i hi
    rw [List.getElem?_append_left (List.mem_range.1 hi)]
  rw [positionsOf, List.length_append, List.length_singleton, List.range_succ, List.filter_append,
    List.filter_congr hold, positionsOf]
  by_cases h : f a = k <;> simp [h]

/-- Pushing an index to the group of a key. -/
theorem pushIndex_map {g : κ → List ℕ} {k : κ} {i : ℕ} (hnd : keys.Nodup)
    (hg : k ∉ keys → g k = []) : pushIndex k i (keys.map fun k => (k, g k)) =
      (if k ∈ keys then keys else keys ++ [k]).map fun k' =>
        (k', g k' ++ if k = k' then [i] else []) := by
  induction keys with
  | nil => simp [pushIndex, hg List.not_mem_nil]
  | cons k' keys ih =>
    obtain ⟨hnot, hnd'⟩ := List.nodup_cons.1 hnd
    rw [List.map_cons, pushIndex]
    by_cases hk : k' = k
    · subst hk
      have hrest : ∀ x ∈ keys, g x = g x ++ if k' = x then [i] else [] := by
        intro x hx
        rw [if_neg fun he : k' = x => hnot (he ▸ hx), List.append_nil]
      simp only [if_true, List.mem_cons, true_or, List.map_cons, List.cons.injEq, true_and]
      exact List.map_congr_left fun x hx => by rw [← hrest x hx]
    · have hmem : k ∈ k' :: keys ↔ k ∈ keys := by simp [Ne.symm hk]
      rw [if_neg hk, ih hnd' fun hn => hg fun hc => hn (hmem.1 hc)]
      by_cases hin : k ∈ keys
      · simp [hin, Ne.symm hk]
      · simp [hin, Ne.symm hk]

/-- **The groups that the maps collect**, where every element has a key. -/
theorem exists_indicesByKey {keyOf : α → Option κ} (h : ∀ a ∈ elems, keyOf a = some (f a)) :
    ∃ keys : List κ, keys.Nodup ∧ (∀ k, k ∈ keys ↔ k ∈ elems.map f) ∧
      indicesByKey keyOf elems = keys.map fun k => (k, positionsOf f elems k) := by
  induction elems using List.reverseRecOn with
  | nil => exact ⟨[], List.nodup_nil, fun k => Iff.rfl, rfl⟩
  | append_singleton elems a ih =>
    obtain ⟨keys, hnd, hkeys, heq⟩ := ih fun b hb => h b (List.mem_append_left _ hb)
    have ha : keyOf a = some (f a) := h a (by simp)
    have hnil : f a ∉ keys → positionsOf f elems (f a) = [] := by
      intro hnot
      refine List.eq_nil_iff_forall_not_mem.2 fun i hi => hnot ?_
      obtain ⟨b, hb, hfb⟩ := mem_positionsOf.1 hi
      exact (hkeys _).2 (hfb ▸ List.mem_map_of_mem (List.mem_of_getElem? hb))
    refine ⟨if f a ∈ keys then keys else keys ++ [f a], ?_, fun k => ?_, ?_⟩
    · split
      · exact hnd
      · next hnot => exact List.nodup_append.2 ⟨hnd, List.nodup_singleton _, by
          rintro x hx y hy rfl
          exact hnot (List.mem_singleton.1 hy ▸ hx)⟩
    · rw [List.map_append, List.mem_append, ← hkeys k]
      split
      · next hin =>
        simp only [List.map_cons, List.map_nil, List.mem_singleton]
        exact ⟨Or.inl, fun hk => hk.elim id fun he => he ▸ hin⟩
      · simp
    · have hfold : indicesByKey keyOf (elems ++ [a]) =
          pushIndex (f a) elems.length (indicesByKey keyOf elems) := by
        simp [indicesByKey, List.zipIdx_append, ha]
      rw [hfold, heq, pushIndex_map hnd hnil]
      exact List.map_congr_left fun k _ => by rw [positionsOf_append]

/-- In whatever order the map is walked. -/
theorem exists_parts {keyOf : α → Option κ} {visit : List (κ × List ℕ) → List (κ × List ℕ)}
    (hvisit : ∀ l, (visit l).Perm l) (h : ∀ a ∈ elems, keyOf a = some (f a)) :
    GroupsByKey f elems ((visit (indicesByKey keyOf elems)).map Prod.snd) ∧
      Ascending ((visit (indicesByKey keyOf elems)).map Prod.snd) ∧
      ((visit (indicesByKey keyOf elems)).map Prod.snd).length ≤ elems.length := by
  obtain ⟨keys, hnd, hkeys, heq⟩ := exists_indicesByKey h
  have hcomp : Relation.Comp (fun x y => x = List.map (fun k => (k, positionsOf f elems k)) y)
      List.Perm (visit (indicesByKey keyOf elems)) keys := by
    rw [List.eq_map_comp_perm]
    show (visit (indicesByKey keyOf elems)).Perm _
    rw [← heq]
    exact hvisit _
  obtain ⟨keys', hvis, hperm⟩ := hcomp
  have hnd' := hperm.nodup_iff.2 hnd
  have hkeys' : ∀ k, k ∈ keys' ↔ k ∈ elems.map f := fun k => hperm.mem_iff.trans (hkeys k)
  have hparts : (visit (indicesByKey keyOf elems)).map Prod.snd = keys'.map (positionsOf f elems) := by
    rw [hvis, List.map_map]
    rfl
  obtain ⟨hgroups, hasc⟩ := groupsByKey_positionsOf hnd' hkeys'
  rw [hparts, List.length_map]
  exact ⟨hgroups, hasc, length_keys_le hnd' hkeys'⟩

end Grouping

end Porcupine
