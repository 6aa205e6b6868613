import Porcupine.Check.Soundness
import Porcupine.Common.Failure
/-!
# The contract of `check_operations`, in either build

What `check_operations` accepts is a matter of the build: a debug build
wants well-formed operations and index lists that cover the history, a
release build only indices in bounds. What it accepts it decides, in either
build (`checkOperations_contract`): whether each of the groups, however
they overlap and whatever they leave out, is explained. Anything else
panics before a search starts, and what a release build panics on is the
first index out of bounds. The order of the groups and of their indices is
nothing to it (`checkOperations_groupOrder`), unlike to `check_events`.
-/

namespace Porcupine

open Transition

variable {State Input Output : Type} {debug : Bool} {model : Model State Input Output}
variable {srt : UnstableSort (List (Entry Input Output))} {timeout : Option ℕ}
variable {history : List (Operation Input Output)} {parts P Q : List (List ℕ)} {g : List ℕ}
variable {partitions : List (List (Entry Input Output))}

/-! ## What is accepted -/

/-- The first index that is out of bounds, in the order of the lists. -/
def firstOutOfBounds (history : List (Operation Input Output)) (parts : List (List ℕ)) : Option ℕ :=
  parts.flatten.find? fun i => history.length ≤ i

theorem firstOutOfBounds_eq_none :
    firstOutOfBounds history parts = none ↔ ∀ g ∈ parts, ∀ i ∈ g, i < history.length := by
  simp only [firstOutOfBounds, List.find?_eq_none, List.mem_flatten, decide_eq_true_eq, not_le]
  constructor
  · intro h g hg i hi
    exact h i ⟨g, hg, hi⟩
  · rintro h i ⟨g, hg, hi⟩
    exact h g hg i hi

/-- What `check_operations` accepts of index lists. -/
structure AcceptsLists (debug : Bool) (history : List (Operation Input Output))
    (parts : List (List ℕ)) : Prop where
  covers : debug = true → parts.flatten.Perm (List.range history.length)
  count : debug = true → parts.length ≤ 2 ^ 32
  lt : ∀ g ∈ parts, ∀ i ∈ g, i < history.length

/-- **What `check_operations` accepts.** -/
structure AcceptsOperations (debug : Bool) (model : Model State Input Output)
    (history : List (Operation Input Output)) : Prop where
  wellFormed : debug = true → ∀ op ∈ history, op.WellFormed
  lists : ∀ parts, model.partition history = some parts → AcceptsLists debug history parts

theorem assertWellFormed_eq_ok_iff :
    assertWellFormed debug history = .ok () ↔ (debug = true → ∀ op ∈ history, op.WellFormed) := by
  unfold assertWellFormed
  rw [Loop.forM_eq_ok_iff]
  constructor
  · intro h hdebug op hop
    exact of_decide_eq_true ((debugAssert_eq_ok _).1 (h op hop) hdebug)
  · intro h op hop
    exact (debugAssert_eq_ok _).2 fun hdebug => decide_eq_true (h hdebug op hop)

theorem assertPartitionCoversOps_eq_ok_iff {n : ℕ} :
    assertPartitionCoversOps debug parts n = .ok () ↔
      (debug = true → parts.flatten.Perm (List.range n) ∧ parts.length ≤ 2 ^ 32) := by
  cases debug with
  | false => exact iff_of_true rfl nofun
  | true => rw [assertPartitionCoversOps_iff, forall_prop_of_true rfl]

/-- **What is accepted comes to a search.** -/
theorem exists_operationPartitions_iff :
    (∃ partitions, operationPartitions debug model history = .ok partitions) ↔
      AcceptsOperations debug model history := by
  constructor
  · rintro ⟨partitions, h⟩
    obtain ⟨_, hgate, h⟩ := Result.bind_eq_ok.1 h
    refine ⟨assertWellFormed_eq_ok_iff.1 hgate, fun parts hpart => ?_⟩
    rw [hpart] at h
    obtain ⟨_, hparts, hmap⟩ := Result.bind_eq_ok.1 h
    have hcov := assertPartitionCoversOps_eq_ok_iff.1 hparts
    refine ⟨fun hd => (hcov hd).1, fun hd => (hcov hd).2, fun g hg => ?_⟩
    obtain ⟨k, hk, rfl⟩ := List.getElem_of_mem hg
    have hall := Loop.mapM_eq_ok_iff.1 hmap
    exact lt_of_makeEntriesFromIndices (hall.get hk (hall.length_eq ▸ hk))
  · intro h
    have hgate := assertWellFormed_eq_ok_iff.2 h.wellFormed
    cases hpart : model.partition history with
    | none => exact ⟨_, operationPartitions_whole hpart hgate⟩
    | some parts =>
      have hlists := h.lists parts hpart
      have hparts : assertPartitionCoversOps debug parts history.length = .ok () :=
        assertPartitionCoversOps_eq_ok_iff.2 fun hd => ⟨hlists.covers hd, hlists.count hd⟩
      refine ⟨parts.map fun g => makeEntries (pick history g), ?_⟩
      simp only [operationPartitions, hgate, hpart, hparts, Result.ok_bind]
      exact Loop.mapM_ok fun g hg => makeEntriesFromIndices_eq (hlists.lt g hg)

/-! ## What panics -/

/-- Flattening an index list fails at its first index out of bounds. -/
theorem exists_of_makeEntriesFromIndices_eq_error {p : Panic}
    (h : makeEntriesFromIndices history g = .error p) :
    ∃ pre i post, g = pre ++ i :: post ∧ (∀ j ∈ pre, j < history.length) ∧
      history.length ≤ i ∧ p = .indexOutOfBounds i history.length := by
  rcases Result.bind_eq_error.1 h with h | ⟨lists, -, h⟩
  · obtain ⟨pre, ⟨i, k⟩, post, hl, hpre, hi⟩ := Loop.exists_of_mapM_eq_error h
    have hsplit : g = pre.map Prod.fst ++ i :: post.map Prod.fst := by
      rw [← List.zipIdx_map_fst 0 g, hl, List.map_append, List.map_cons]
    refine ⟨_, i, _, hsplit, fun j hj => ?_, ?_⟩
    · obtain ⟨⟨j, k'⟩, hmem, rfl⟩ := List.mem_map.1 hj
      obtain ⟨lists, hj'⟩ := hpre _ hmem
      obtain ⟨op, hop, -⟩ := Result.bind_eq_ok.1 hj'
      exact (List.getElem?_eq_some_iff.1 (readAt_eq_ok.1 hop)).1
    · rcases Result.bind_eq_error.1 hi with hread | ⟨op, -, hop⟩
      · exact readAt_eq_error.1 hread
      · cases hop
  · cases h

/-- **A release build panics on the first index out of bounds.** -/
theorem operationPartitions_eq_error {i : ℕ} (hpart : model.partition history = some parts)
    (h : firstOutOfBounds history parts = some i) :
    operationPartitions false model history = .error (.indexOutOfBounds i history.length) := by
  have hgate : assertWellFormed false history = .ok () := assertWellFormed_release history
  have hparts : assertPartitionCoversOps false parts history.length = .ok () := rfl
  simp only [operationPartitions, hgate, hpart, hparts, Result.ok_bind]
  cases hmap : parts.mapM (makeEntriesFromIndices history) with
  | ok lists =>
    -- then every index would be in bounds
    have hlt : ∀ g ∈ parts, ∀ i ∈ g, i < history.length := by
      intro g hg
      obtain ⟨k, hk, rfl⟩ := List.getElem_of_mem hg
      have hall := Loop.mapM_eq_ok_iff.1 hmap
      exact lt_of_makeEntriesFromIndices (hall.get hk (hall.length_eq ▸ hk))
    rw [firstOutOfBounds_eq_none.2 hlt] at h
    cases h
  | error p =>
    obtain ⟨pre, g, post, rfl, hpre, hg⟩ := Loop.exists_of_mapM_eq_error hmap
    obtain ⟨pre', j, post', rfl, hpre', hj, rfl⟩ := exists_of_makeEntriesFromIndices_eq_error hg
    have hfirst : firstOutOfBounds history (pre ++ (pre' ++ j :: post') :: post) = some j := by
      refine List.find?_eq_some_iff_append.2 ⟨decide_eq_true hj, pre.flatten ++ pre',
        post' ++ post.flatten, by simp, fun k hk => ?_⟩
      rw [Bool.not_eq_true', decide_eq_false_iff_not, not_le]
      rcases List.mem_append.1 hk with hk | hk
      · obtain ⟨g', hg', hk⟩ := List.mem_flatten.1 hk
        obtain ⟨entries, hok⟩ := hpre g' hg'
        exact lt_of_makeEntriesFromIndices hok k hk
      · exact hpre' k hk
    cases h.symm.trans hfirst
    rfl

/-! ## What is decided -/

section Decides

variable [BEq State] {ops : List (Operation Input Output)}

/-- **A check whose verdict is called for decides what calls for it.** -/
theorem Verdicts.decides (V : Verdicts debug model partitions)
    (srt : UnstableSort (List (Entry Input Output))) {p : Prop}
    (h : (∀ g ∈ partitions, V.verdict g = true) ↔ p) :
    Decides (checker debug srt model) (.begin none (.ok partitions)) p := by
  refine ⟨fun hp => ?_, fun hp => ?_⟩
  · rw [← Verdicts.answer_eq_ok.2 (h.2 hp)]
    exact V.returns srt
  · have hill : V.answer = .illegal := by
      rw [Verdicts.answer, if_neg]
      rw [List.all_eq_true, h]
      exact hp
    rw [← hill]
    exact V.returns srt

/-- The search of any operations says whether they are explained. -/
theorem explained_iff_of_checksTo (hlaw : model.Lawful) (hsize : 2 * ops.length < 2 ^ 32 - 1)
    {b : Bool} (h : ChecksTo debug model (makeEntries ops) b) : b = true ↔ Explained model ops := by
  have hrep : Represents (makeEntries ops) ops := makeEntries_arranged.represents
  have hlt : (makeEntries ops).length < NONE := makeEntries_length_lt hsize
  constructor
  · rintro rfl
    exact explained_of_checksTo hsize h
  · rintro ⟨hwf, hlin⟩
    exact (hrep.paired.checksTo_iff hlt (hrep.callFirst hwf) hlaw h).2 (hrep.linearizable_iff.2 hlin)

/-- **What comes to a search is decided**, malformed operations, overlaps
and omissions included. -/
theorem decides_operationsExplained (srt : UnstableSort (List (Entry Input Output)))
    (hlaw : model.Lawful) (hsize : OperationsSized model history)
    (h : operationPartitions debug model history = .ok partitions) :
    Decides (checker debug srt model) (checkOperations debug model history none)
      (OperationsExplained model history) := by
  obtain ⟨hwhole, hgroups⟩ := exists_groups_of_operationPartitions h
  obtain ⟨partitions', h', hpair⟩ := hsize.halts h
  obtain rfl : partitions = partitions' := Except.ok.inj (h.symm.trans h')
  obtain ⟨V⟩ := exists_verdicts_of_paired debug model hpair
  have key : ∀ histories : List (List (Operation Input Output)),
      partitions = histories.map makeEntries →
      (∀ ops ∈ histories, 2 * ops.length < 2 ^ 32 - 1) →
      Decides (checker debug srt model) (checkOperations debug model history none)
        (∀ ops ∈ histories, Explained model ops) := by
    rintro histories rfl hlen
    rw [checkOperations, h]
    refine V.decides srt ?_
    rw [List.forall_mem_map]
    exact forall₂_congr fun ops hops => explained_iff_of_checksTo hlaw (hlen ops hops)
      (V.checks _ (List.mem_map_of_mem hops)).checksTo
  cases hpart : model.partition history with
  | none =>
    refine (key [history] (hwhole hpart) fun ops hops => ?_).congr ?_
    · rw [List.mem_singleton.1 hops]
      exact hsize.whole hpart
    · rw [List.forall_mem_singleton]
      exact ⟨fun hexp => ⟨fun _ => hexp, fun parts he => (by cases hpart.symm.trans he)⟩,
        fun hexp => hexp.whole hpart⟩
  | some parts =>
    refine (key (parts.map (pick history)) ?_ fun ops hops => ?_).congr ?_
    · rw [hgroups parts hpart, List.map_map]
      rfl
    · obtain ⟨g, hg, rfl⟩ := List.mem_map.1 hops
      have hle := length_pick_le_length history g
      have hlt := hsize.groups parts hpart g hg
      omega
    · rw [List.forall_mem_map]
      refine ⟨fun hexp => ⟨fun he => (by cases hpart.symm.trans he), fun parts' he => ?_⟩,
        fun hexp => hexp.groups parts hpart⟩
      cases hpart.symm.trans he
      exact hexp

/-- **The contract of `check_operations`** for a lawful model and no
timeout. In a debug build as in a release build it panics before any search
unless the input is accepted, and decides whether accepted input is
explained. What a release build panics on is the first index out of
bounds. -/
theorem checkOperations_contract (debug : Bool) (srt : UnstableSort (List (Entry Input Output)))
    (model : Model State Input Output) (hlaw : model.Lawful)
    (history : List (Operation Input Output)) (hsize : OperationsSized model history) :
    (AcceptsOperations debug model history →
      Decides (checker debug srt model) (checkOperations debug model history none)
        (OperationsExplained model history)) ∧
    (¬ AcceptsOperations debug model history → ∃ p, ∀ timeout c,
      (checker debug srt model).Reachable (checkOperations debug model history timeout) c →
      c.main = .panicked p) ∧
    ∀ parts i, model.partition history = some parts → firstOutOfBounds history parts = some i →
      ∀ timeout, (checkOperations false model history timeout).main =
        .panicked (.indexOutOfBounds i history.length) := by
  refine ⟨fun hacc => ?_, fun hacc => ?_, fun parts i hpart hfirst timeout => ?_⟩
  · obtain ⟨partitions, h⟩ := exists_operationPartitions_iff.2 hacc
    exact decides_operationsExplained srt hlaw hsize h
  · cases h : operationPartitions debug model history with
    | ok partitions => exact absurd (exists_operationPartitions_iff.1 ⟨_, h⟩) hacc
    | error p =>
      refine ⟨p, fun timeout c hreach => ?_⟩
      rw [checkOperations, h] at hreach
      rw [eq_of_reachable_panicked hreach]
      rfl
  · rw [checkOperations, operationPartitions_eq_error hpart hfirst]
    rfl

/-- Groups that overlap: a release build decides them, a debug build
panics. -/
theorem checkOperations_contract_overlapping :
    Decides (checker false (.insertion _) overlapGroups)
      (checkOperations false overlapGroups overlapping none)
      (OperationsExplained overlapGroups overlapping) ∧
    ∃ p, ∀ timeout c, (checker true (.insertion _) overlapGroups).Reachable
      (checkOperations true overlapGroups overlapping timeout) c → c.main = .panicked p := by
  have hsize : OperationsSized overlapGroups overlapping :=
    ⟨nofun, fun parts h => by cases h; decide⟩
  refine ⟨(checkOperations_contract false (.insertion _) overlapGroups
      overlapGroups.lawful_of_lawfulBEq overlapping hsize).1 ⟨nofun, fun parts h => ?_⟩,
    (checkOperations_contract true (.insertion _) overlapGroups
      overlapGroups.lawful_of_lawfulBEq overlapping hsize).2.1 fun hacc => ?_⟩
  · cases h
    exact ⟨nofun, nofun, by decide⟩
  · have hcov := (hacc.lists _ rfl).covers rfl
    revert hcov
    decide

/-! ## The order of the groups -/

/-- The model, with these index lists for a partition of operations. -/
def Model.groupedInto (model : Model State Input Output) (parts : List (List ℕ)) :
    Model State Input Output :=
  { model with partition := fun _ => some parts }

theorem SameGroups.flatten_perm (h : SameGroups P Q) : P.flatten.Perm Q.flatten := by
  obtain ⟨P', hperm, hall⟩ := h
  exact hperm.flatten.trans (List.Perm.flatten_congr hall)

theorem SameGroups.length_eq (h : SameGroups P Q) : P.length = Q.length := by
  obtain ⟨P', hperm, hall⟩ := h
  exact hperm.length_eq.trans hall.length_eq

/-- Index lists are accepted as sets of sets. -/
theorem SameGroups.acceptsLists (h : SameGroups P Q) (hacc : AcceptsLists debug history P) :
    AcceptsLists debug history Q where
  covers hd := h.flatten_perm.symm.trans (hacc.covers hd)
  count hd := h.length_eq ▸ hacc.count hd
  lt g hg i hi := by
    obtain ⟨g', hg', hperm⟩ := h.symm.exists_perm hg
    exact hacc.lt g' hg' i (hperm.mem_iff.1 hi)

omit [BEq State] in
/-- Operations are explained in whatever order they are listed. -/
theorem explained_of_perm {ops ops' : List (Operation Input Output)} (h : ops.Perm ops') :
    Explained model ops ↔ Explained model ops' := by
  refine and_congr ?_ (historyLinearizable_of_perm (h.map _))
  exact ⟨fun hwf op hop => hwf op (h.mem_iff.2 hop), fun hwf op hop => hwf op (h.mem_iff.1 hop)⟩

omit [BEq State] in
theorem SameGroups.operationsExplained (h : SameGroups P Q) :
    OperationsExplained (model.groupedInto P) history ↔
      OperationsExplained (model.groupedInto Q) history := by
  have hgroups : ∀ parts, OperationsExplained (model.groupedInto parts) history ↔
      ∀ g ∈ parts, Explained model (pick history g) := by
    intro parts
    refine ⟨fun hexp => hexp.groups parts rfl, fun hexp => ⟨nofun, fun parts' he => ?_⟩⟩
    cases he
    exact hexp
  rw [hgroups, hgroups]
  exact h.forall_iff fun g _ g' _ hperm => explained_of_perm (hperm.filterMap _)

/-- **`check_operations` reads a partition as a set of sets of indices**: two
that list the same groups, in any order, are both refused in every state or
get the same verdict, in a debug build as in a release build. -/
theorem checkOperations_groupOrder (debug : Bool) (srt : UnstableSort (List (Entry Input Output)))
    (model : Model State Input Output) (hlaw : model.Lawful)
    (history : List (Operation Input Output)) (P Q : List (List ℕ)) (hsame : SameGroups P Q)
    (hsize : ∀ g ∈ P, 2 * g.length < 2 ^ 32 - 1) :
    (∃ r, (checker debug srt (model.groupedInto P)).Returns r
        (checkOperations debug (model.groupedInto P) history none) ∧
      (checker debug srt (model.groupedInto Q)).Returns r
        (checkOperations debug (model.groupedInto Q) history none)) ∨
    ((∃ p, (checkOperations debug (model.groupedInto P) history none).main = .panicked p) ∧
      ∃ p, (checkOperations debug (model.groupedInto Q) history none).main = .panicked p) := by
  have hsizeP : OperationsSized (model.groupedInto P) history :=
    ⟨nofun, fun parts h => by cases h; exact hsize⟩
  have hsizeQ : OperationsSized (model.groupedInto Q) history := by
    refine ⟨nofun, fun parts h g hg => ?_⟩
    cases h
    obtain ⟨g', hg', hperm⟩ := hsame.symm.exists_perm hg
    rw [hperm.length_eq]
    exact hsize g' hg'
  have hacc : ∀ {P Q : List (List ℕ)}, SameGroups P Q →
      AcceptsOperations debug (model.groupedInto P) history →
      AcceptsOperations debug (model.groupedInto Q) history := by
    intro P Q h hP
    refine ⟨hP.wellFormed, fun parts he => ?_⟩
    cases he
    exact h.acceptsLists (hP.lists P rfl)
  obtain ⟨hdecP, hpanP, -⟩ := checkOperations_contract debug srt (model.groupedInto P) hlaw history hsizeP
  obtain ⟨hdecQ, hpanQ, -⟩ := checkOperations_contract debug srt (model.groupedInto Q) hlaw history hsizeQ
  by_cases hP : AcceptsOperations debug (model.groupedInto P) history
  · have hQ := hacc hsame hP
    exact .inl (((hdecP hP).congr hsame.operationsExplained).agree (hdecQ hQ))
  · have hQ : ¬ AcceptsOperations debug (model.groupedInto Q) history :=
      fun h => hP (hacc hsame.symm h)
    obtain ⟨p, hp⟩ := hpanP hP
    obtain ⟨q, hq⟩ := hpanQ hQ
    exact .inr ⟨⟨p, hp none _ .refl⟩, q, hq none _ .refl⟩

/-- The two operations, and an overlap of theirs, the other way round. -/
theorem checkOperations_groupOrder_overlapping :
    ∃ r, (checker false (.insertion _) (RegisterModel.groupedInto [[0, 1], [1]])).Returns r
        (checkOperations false (RegisterModel.groupedInto [[0, 1], [1]]) overlapping none) ∧
      (checker false (.insertion _) (RegisterModel.groupedInto [[1], [1, 0]])).Returns r
        (checkOperations false (RegisterModel.groupedInto [[1], [1, 0]]) overlapping none) := by
  rcases checkOperations_groupOrder false (.insertion _) RegisterModel
    RegisterModel.lawful_of_lawfulBEq overlapping [[0, 1], [1]] [[1], [1, 0]]
    ⟨[[1], [0, 1]], .swap _ _ _, .cons (.refl _) (.cons (.swap _ _ _) .nil)⟩ (by decide) with
    h | ⟨⟨p, hp⟩, -⟩
  · exact h
  · cases hp

end Decides

end Porcupine
