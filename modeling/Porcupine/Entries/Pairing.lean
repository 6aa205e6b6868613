import Porcupine.Entries.Covering
/-!
# What the debug gate accepts of a partition of events

`assert_partition_events_paired` accepts exactly the partitions into paired
events (`assertPartitionEventsPaired_iff`): a call is recorded with the
partition that owns it, and its return has to have the same owner.
-/

namespace Porcupine

variable {Input Output : Type} {events history : List (Event Input Output)}
variable {parts : List (List ℕ)} {g : List ℕ} {id c r : ℕ} {evc evr : Event Input Output}

theorem mem_pick {α : Type} {history : List α} {x : α} :
    x ∈ pick history g ↔ ∃ i ∈ g, history[i]? = some x := by
  simp [pick, List.mem_filterMap]

/-- Picking distinct positions keeps tags distinct. -/
theorem pick_nodup (hnd : (history.map Event.tag).Nodup) (hg : g.Nodup) :
    ((pick history g).map Event.tag).Nodup := by
  rw [pick, List.map_filterMap]
  refine hg.filterMap fun i j t hi hj => ?_
  obtain ⟨ev, hev, rfl⟩ := Option.map_eq_some_iff.1 hi
  obtain ⟨ev', hev', ht⟩ := Option.map_eq_some_iff.1 hj
  exact getElem?_inj_tag hnd hev hev' ht.symm

/-- **A partition of an event history into paired events.** -/
structure EventPartition (parts : List (List ℕ)) (history : List (Event Input Output)) : Prop where
  covers : parts.flatten.Perm (List.range history.length)
  paired : ∀ g ∈ parts, PairedEvents (pick history g)

/-- The call and the return of every id have one owner. -/
def SameOwner (v : List (Option ℕ)) (history : List (Event Input Output)) : Prop :=
  ∀ (id c r : ℕ) (evc evr : Event Input Output), history[c]? = some evc → history[r]? = some evr →
    evc.tag = (id, true) → evr.tag = (id, false) → v[c]? = v[r]?

theorem getElem?_of_zipIdx_eq {α : Type} {l : List α} {pre post : List (α × ℕ)} {a : α} {p : ℕ}
    (hl : l.zipIdx = pre ++ (a, p) :: post) : l[p]? = some a := by
  have hmem : (a, p) ∈ l.zipIdx := by simp [hl]
  exact List.mem_zipIdx_iff_getElem?.1 hmem

/-- A position before the end of what has been passed has been passed. -/
theorem mem_of_zipIdx_eq {α : Type} {l : List α} {pre post : List (α × ℕ)} {a b : α} {p c : ℕ}
    (hl : l.zipIdx = pre ++ (a, p) :: post) (hc : l[c]? = some b) (hlt : c < p) :
    (b, c) ∈ pre := by
  have hlen : p = pre.length := by
    have hget : l.zipIdx[pre.length]? = some (a, p) := by simp [hl]
    rw [List.getElem?_zipIdx, Option.map_eq_some_iff] at hget
    obtain ⟨a', -, ha'⟩ := hget
    cases ha'
    simp
  have hget : l.zipIdx[c]? = some (b, c) := by simp [List.getElem?_zipIdx, hc]
  rw [hl, List.getElem?_append_left (hlen ▸ hlt)] at hget
  exact List.mem_of_getElem? hget

theorem tag_eq_true_iff : evc.tag = (id, true) ↔ evc.id = id ∧ evc.kind = .call := by
  simp [Event.tag]

theorem tag_eq_false_iff : evr.tag = (id, false) ↔ evr.id = id ∧ evr.kind = .ret := by
  cases h : evr.kind <;> simp [Event.tag, h]

section Owners

variable {v : List (Option ℕ)} {pre post : List (Event Input Output × ℕ)} {callPart : CallPart}
variable {ev : Event Input Output} {k p : ℕ}

/-- Where the calls passed are owned. -/
def CallOwners (v : List (Option ℕ)) (pre : List (Event Input Output × ℕ))
    (callPart : CallPart) : Prop :=
  ∀ ev p, (ev, p) ∈ pre → ev.kind = .call → v[p]? = some (callPart ev.id)

/-- A call is recorded with its owner; it is the only one of its id. -/
theorem CallOwners.call (h : CallOwners v pre callPart) (hp : PairedEvents history)
    (hl : history.zipIdx = pre ++ (ev, p) :: post) (hk : ev.kind = .call)
    (hvp : v[p]? = some (some k)) :
    CallOwners v (pre ++ [(ev, p)]) (Function.update callPart ev.id (some k)) := by
  intro ev' q hq hk'
  rcases List.mem_append.1 hq with hq | hq
  · have hne : ev'.id ≠ ev.id := by
      intro he
      have hnd := hp.nodup
      rw [tags_zipIdx, hl, List.map_append, List.map_cons, List.nodup_append] at hnd
      refine hnd.2.2 _ (List.mem_map_of_mem hq) _ List.mem_cons_self ?_
      rw [tag_eq_true_iff.2 ⟨he, hk'⟩, tag_eq_true_iff.2 ⟨rfl, hk⟩]
    rw [Function.update_of_ne hne]
    exact h ev' q hq hk'
  · cases List.mem_singleton.1 hq
    rw [Function.update_self, hvp]

/-- A return leaves the owners. -/
theorem CallOwners.ret (h : CallOwners v pre callPart) (hk : ev.kind = .ret) :
    CallOwners v (pre ++ [(ev, p)]) callPart := by
  intro ev' q hq hk'
  rcases List.mem_append.1 hq with hq | hq
  · exact h ev' q hq hk'
  · cases List.mem_singleton.1 hq
    rw [hk] at hk'
    cases hk'

/-- A return finds the owner of its call, which has been passed. -/
theorem CallOwners.found (h : CallOwners v pre callPart) (hp : PairedEvents history)
    (hfirst : CallsFirst history) (hl : history.zipIdx = pre ++ (ev, p) :: post)
    (hk : ev.kind = .ret) :
    ∃ (evc : Event Input Output) (c : ℕ), history[c]? = some evc ∧ evc.tag = (ev.id, true) ∧
      v[c]? = some (callPart ev.id) := by
  have hev := getElem?_of_zipIdx_eq hl
  obtain ⟨evc, hevc, htc⟩ := hp.exists_tag (List.mem_of_getElem? hev) true
  obtain ⟨c, hc⟩ := List.getElem?_of_mem hevc
  have hlt := hfirst ev.id c p evc ev hc hev htc (tag_eq_false_iff.2 ⟨rfl, hk⟩)
  obtain ⟨hid, hkc⟩ := tag_eq_true_iff.1 htc
  exact ⟨evc, c, hc, htc, hid ▸ h evc c (mem_of_zipIdx_eq hl hc hlt) hkc⟩

/-- **What the pairing pass accepts** keeps pairs together. -/
theorem SameOwner.of_checkPaired (hp : PairedEvents history) (hfirst : CallsFirst history)
    (hv : ∀ i < history.length, ∃ k, v[i]? = some (some k))
    (hok : history.zipIdx.foldlM (checkPaired v) (fun _ => none) = .ok callPart) :
    SameOwner v history := by
  have hinv := Loop.foldlM_inv (I := fun pre callPart => CallOwners v pre callPart ∧
    ∀ ev p, (ev, p) ∈ pre → ev.kind = .ret → ∀ (evc : Event Input Output) (c : ℕ),
      history[c]? = some evc → evc.tag = (ev.id, true) → v[c]? = v[p]?)
    ⟨fun _ _ h => (by cases h), fun _ _ h => (by cases h)⟩ ?_ hok
  · intro id c r evc evr hc hr htc htr
    obtain ⟨hid, hkind⟩ := tag_eq_false_iff.1 htr
    exact hinv.2 evr r (List.mem_zipIdx_iff_getElem?.2 hr) hkind evc c hc (by rw [htc, hid])
  · rintro pre ⟨ev, p⟩ post callPart callPart' hl ⟨hown, hpairs⟩ hstep
    obtain ⟨k, hk⟩ := hv p (List.getElem?_eq_some_iff.1 (getElem?_of_zipIdx_eq hl)).1
    simp only [checkPaired, readAt_eq_ok.2 hk, Result.ok_bind] at hstep
    cases hkind : ev.kind with
    | call =>
      simp only [hkind, Result.pure_eq, Except.ok.injEq] at hstep
      subst hstep
      refine ⟨hown.call hp hl hkind hk, fun ev' q hq hk' => ?_⟩
      rcases List.mem_append.1 hq with hq | hq
      · exact hpairs ev' q hq hk'
      · cases List.mem_singleton.1 hq
        rw [hkind] at hk'
        cases hk'
    | ret =>
      obtain ⟨evc, c, hc, htc, hvc⟩ := hown.found hp hfirst hl hkind
      obtain ⟨k', hk'⟩ := hv c (List.getElem?_eq_some_iff.1 hc).1
      have hpart : callPart ev.id = some k' := Option.some.inj (hvc.symm.trans hk')
      simp only [hkind, hpart, debugAssert_bind_eq_ok, forall_const, decide_eq_true_eq,
        Result.pure_eq, Except.ok.injEq] at hstep
      obtain ⟨rfl, rfl⟩ := hstep
      refine ⟨hown.ret hkind, fun ev' q hq hkq => ?_⟩
      rcases List.mem_append.1 hq with hq | hq
      · exact hpairs ev' q hq hkq
      · cases List.mem_singleton.1 hq
        intro evc' c' hc' htc'
        rw [getElem?_inj_tag hp.nodup hc' hc (htc'.trans htc.symm), hk', hk]

/-- **Owners that keep pairs together** are accepted. -/
theorem SameOwner.checkPaired_ok (hsame : SameOwner v history) (hp : PairedEvents history)
    (hfirst : CallsFirst history) (hv : ∀ i < history.length, ∃ k, v[i]? = some (some k)) :
    ∃ callPart, history.zipIdx.foldlM (checkPaired v) (fun _ => none) = .ok callPart := by
  have hloop := Loop.foldlM_ok (l := history.zipIdx) (f := checkPaired v) (I := CallOwners v)
    (s := fun _ => none) (fun _ _ h => by cases h) ?_
  · obtain ⟨callPart, hok, -⟩ := hloop
    exact ⟨callPart, hok⟩
  · rintro pre ⟨ev, p⟩ post callPart hl hown
    have hev := getElem?_of_zipIdx_eq hl
    obtain ⟨k, hk⟩ := hv p (List.getElem?_eq_some_iff.1 hev).1
    simp only [checkPaired, readAt_eq_ok.2 hk, Result.ok_bind]
    cases hkind : ev.kind with
    | call => exact ⟨_, rfl, hown.call hp hl hkind hk⟩
    | ret =>
      obtain ⟨evc, c, hc, htc, hvc⟩ := hown.found hp hfirst hl hkind
      have heq := hsame ev.id c p evc ev hc hev htc (tag_eq_false_iff.2 ⟨rfl, hkind⟩)
      have hpart : callPart ev.id = some k := Option.some.inj (hvc.symm.trans (heq.trans hk))
      exact ⟨callPart, by simp [hpart], hown.ret hkind⟩

end Owners

/-! ## The gate -/

section Gate

variable {v : List (Option ℕ)}

/-- Every position of a covering has an owner. -/
theorem exists_owner (hv : scanPartitionCovering parts history.length = .ok v) :
    ∀ i < history.length, ∃ k, v[i]? = some (some k) := by
  intro i hi
  obtain ⟨hperm, -, hown⟩ := scanPartitionCovering_inv hv
  obtain ⟨g, hg, hig⟩ := List.mem_flatten.1 (hperm.mem_iff.2 (List.mem_range.2 hi))
  obtain ⟨k, hk⟩ := List.getElem?_of_mem hg
  exact ⟨k, (hown k i).2 ⟨g, hk, hig⟩⟩

/-- **Owners that keep pairs together** are those of groups of paired
events: the event an event of a group is paired with has its owner. -/
theorem SameOwner.eventPartition (hsame : SameOwner v history) (hp : PairedEvents history)
    (hv : scanPartitionCovering parts history.length = .ok v) : EventPartition parts history := by
  obtain ⟨hperm, -, hown⟩ := scanPartitionCovering_inv hv
  refine ⟨hperm, fun g hg => ⟨fun ev hev => ?_, ?_, fun t ht b => ?_⟩⟩
  · obtain ⟨i, -, hi⟩ := mem_pick.1 hev
    exact hp.value ev (List.mem_of_getElem? hi)
  · refine pick_nodup hp.nodup ?_
    exact (List.nodup_flatten.1 (hperm.nodup_iff.2 List.nodup_range)).1 g hg
  · obtain ⟨ev, hev, rfl⟩ := List.mem_map.1 ht
    obtain ⟨i, hig, hi⟩ := mem_pick.1 hev
    obtain ⟨ev', hev', ht'⟩ := hp.exists_tag (List.mem_of_getElem? hi) b
    obtain ⟨j, hj⟩ := List.getElem?_of_mem hev'
    obtain ⟨k, hk⟩ := List.getElem?_of_mem hg
    have hvi : v[i]? = some (some k) := (hown k i).2 ⟨g, hk, hig⟩
    have hvj : v[j]? = some (some k) := by
      rw [← hvi]
      cases hb : ev.tag.2 <;> cases b
      · rw [getElem?_inj_tag hp.nodup hj hi (ht'.trans (Prod.ext rfl hb.symm))]
      · exact hsame ev.id j i ev' ev hj hi ht' (Prod.ext rfl hb)
      · exact (hsame ev.id i j ev ev' hi hj (Prod.ext rfl hb) ht').symm
      · rw [getElem?_inj_tag hp.nodup hj hi (ht'.trans (Prod.ext rfl hb.symm))]
    obtain ⟨g', hg', hjg⟩ := (hown k j).1 hvj
    rw [hk] at hg'
    cases hg'
    exact ht' ▸ List.mem_map_of_mem (mem_pick.2 ⟨j, hjg, hj⟩)

/-- **Groups of paired events** keep pairs together. -/
theorem EventPartition.sameOwner (h : EventPartition parts history) (hp : PairedEvents history)
    (hv : scanPartitionCovering parts history.length = .ok v) : SameOwner v history := by
  intro id c r evc evr hc hr htc htr
  obtain ⟨-, -, hown⟩ := scanPartitionCovering_inv hv
  obtain ⟨k, hk⟩ := exists_owner hv c (List.getElem?_eq_some_iff.1 hc).1
  obtain ⟨g, hg, hcg⟩ := (hown k c).1 hk
  have hmem : evc ∈ pick history g := mem_pick.2 ⟨c, hcg, hc⟩
  obtain ⟨ev', hev', ht'⟩ := (h.paired g (List.mem_of_getElem? hg)).exists_tag hmem false
  obtain ⟨j, hjg, hj⟩ := mem_pick.1 hev'
  have hid : evc.id = id := congrArg Prod.fst htc
  have hjr : j = r := getElem?_inj_tag hp.nodup hj hr (by rw [ht', htr, hid])
  rw [hk]
  exact ((hown k r).2 ⟨g, hg, hjr ▸ hjg⟩).symm

end Gate

/-- **The gate accepts exactly the partitions into paired events**, of
which it counts no more than 32 bits hold. -/
theorem assertPartitionEventsPaired_iff (hp : PairedEvents history) (hfirst : CallsFirst history) :
    assertPartitionEventsPaired true parts history = .ok () ↔
      EventPartition parts history ∧ parts.length ≤ 2 ^ 32 := by
  have hshape : assertPartitionEventsPaired true parts history = .ok () ↔
      ∃ v, scanPartitionCovering parts history.length = .ok v ∧
        ∃ callPart, history.zipIdx.foldlM (checkPaired v) (fun _ => none) = .ok callPart := by
    simp [assertPartitionEventsPaired, Result.bind_eq_ok]
  rw [hshape]
  constructor
  · rintro ⟨v, hv, callPart, hpass⟩
    have hsame := SameOwner.of_checkPaired hp hfirst (exists_owner hv) hpass
    obtain ⟨-, hlen, -⟩ := scanPartitionCovering_inv hv
    exact ⟨hsame.eventPartition hp hv, hlen⟩
  · rintro ⟨hpart, hlen⟩
    obtain ⟨v, hv⟩ := scanPartitionCovering_ok hpart.covers hlen
    exact ⟨v, hv, (hpart.sameOwner hp hv).checkPaired_ok hp hfirst (exists_owner hv)⟩

/-- In any build. -/
theorem assertPartitionEventsPaired_ok (hp : PairedEvents history) (hfirst : CallsFirst history)
    (h : EventPartition parts history) (hlen : parts.length ≤ 2 ^ 32) (debug : Bool) :
    assertPartitionEventsPaired debug parts history = .ok () := by
  cases debug with
  | false => rfl
  | true => exact (assertPartitionEventsPaired_iff hp hfirst).2 ⟨h, hlen⟩

end Porcupine
