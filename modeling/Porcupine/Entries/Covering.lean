import Porcupine.Entries.Gate
/-!
# What the debug gate accepts of a partition

`scan_partition_covering` accepts exactly the partitions that list every
index once, and returns the owner of each index. It counts partitions in
32 bits.
-/

namespace Porcupine

variable {done : List (ℕ × ℕ)} {c c' : Covering} {n k i : ℕ} {parts : List (List ℕ)} {g : List ℕ}

/-- What has been claimed, as pairs of a partition and an index. -/
structure Claimed (n : ℕ) (done : List (ℕ × ℕ)) (c : Covering) : Prop where
  length : c.1.length = n
  count : c.2 = done.length
  owner : ∀ k i, c.1[i]? = some (some k) ↔ (k, i) ∈ done
  nodup : (done.map Prod.snd).Nodup

namespace Claimed

theorem lt (h : Claimed n done c) (hmem : (k, i) ∈ done) : i < n := by
  rw [← h.length]
  exact (List.getElem?_eq_some_iff.1 ((h.owner k i).2 hmem)).1

/-- An index is claimed when it is in bounds and not claimed yet. -/
theorem claimIndex_eq_ok (h : Claimed n done c) : claimIndex n k c i = .ok c' ↔
    i < n ∧ i ∉ done.map Prod.snd ∧ (c.1.set i (some k), c.2 + 1) = c' := by
  simp only [claimIndex, debugAssert_bind_eq_ok, forall_const, decide_eq_true_eq]
  refine and_congr_right fun hi => ?_
  have hi' : i < c.1.length := by
    rw [h.length]
    exact hi
  have hread : c.1[i]? = some c.1[i] := List.getElem?_eq_getElem hi'
  have hnone : c.1[i].isNone = true ↔ i ∉ done.map Prod.snd := by
    rw [Option.isNone_iff_eq_none, List.mem_map]
    constructor
    · rintro hn ⟨⟨k', i'⟩, hmem, rfl⟩
      have := (h.owner k' i').2 hmem
      rw [hread, hn] at this
      cases this
    · intro hn
      by_contra hs
      obtain ⟨k', hk'⟩ := Option.ne_none_iff_exists'.1 hs
      exact hn ⟨(k', i), (h.owner k' i).1 (hread.trans (congrArg some hk')), rfl⟩
  simp only [readAt_eq_ok.2 hread, Result.ok_bind, debugAssert_bind_eq_ok, forall_const, hnone,
    writeAt_of_lt hi', Result.pure_eq, Except.ok.injEq]

theorem snoc (h : Claimed n done c) (hi : i < n) (hmem : i ∉ done.map Prod.snd) :
    Claimed n (done ++ [(k, i)]) (c.1.set i (some k), c.2 + 1) := by
  refine ⟨by simp [h.length], by simp [h.count], fun k' i' => ?_, ?_⟩
  · simp only [List.mem_append, List.mem_singleton, Prod.mk.injEq, ← h.owner]
    by_cases he : i' = i
    · subst he
      rw [List.getElem?_set_self (by rw [h.length]; exact hi)]
      constructor
      · intro hk
        exact Or.inr ⟨(Option.some.inj (Option.some.inj hk)).symm, rfl⟩
      · rintro (hk | ⟨rfl, -⟩)
        · exact absurd (List.mem_map_of_mem (f := Prod.snd) ((h.owner k' i').1 hk)) hmem
        · rfl
    · rw [List.getElem?_set_ne (Ne.symm he)]
      simp [he]
  · rw [List.map_append, List.nodup_append]
    refine ⟨h.nodup, by simp, fun x hx y hy he => hmem ?_⟩
    have hyi : y = i := List.mem_singleton.1 hy
    rw [← hyi, ← he]
    exact hx

/-- **One partition is claimed** when its indices are in bounds and new. -/
theorem scanPartition_ok (h : Claimed n done c) (hk : k < 2 ^ 32)
    (hlt : ∀ i ∈ g, i < n) (hnd : (done.map Prod.snd ++ g).Nodup) :
    ∃ c', scanPartition n c (g, k) = .ok c' ∧ Claimed n (done ++ g.map fun i => (k, i)) c' := by
  have hsnd : ∀ l : List ℕ, (l.map fun i => (k, i)).map Prod.snd = l := by simp
  rw [scanPartition, if_pos hk]
  refine Loop.foldlM_ok (I := fun pre c => Claimed n (done ++ pre.map fun i => (k, i)) c)
    (by simpa using h) ?_
  rintro pre i post c rfl hc
  have hi : i ∉ (done ++ pre.map fun i => (k, i)).map Prod.snd := by
    rw [List.map_append, hsnd]
    rw [← List.append_assoc] at hnd
    intro hmem
    exact (List.nodup_append.1 hnd).2.2 i hmem i List.mem_cons_self rfl
  have hin := hlt i (by simp)
  refine ⟨_, hc.claimIndex_eq_ok.2 ⟨hin, hi, rfl⟩, ?_⟩
  simpa using hc.snoc (k := k) hin hi

/-- What a partition that was claimed was. -/
theorem scanPartition_inv (h : Claimed n done c) (hok : scanPartition n c (g, k) = .ok c') :
    k < 2 ^ 32 ∧ Claimed n (done ++ g.map fun i => (k, i)) c' := by
  rw [scanPartition] at hok
  split at hok
  · next hk =>
    refine ⟨hk, Loop.foldlM_inv (I := fun pre c => Claimed n (done ++ pre.map fun i => (k, i)) c)
      (by simpa using h) ?_ hok⟩
    rintro pre i post c c' - hc hok
    obtain ⟨hi, hmem, rfl⟩ := hc.claimIndex_eq_ok.1 hok
    simpa using hc.snoc (k := k) hi hmem
  · cases hok

end Claimed

/-- The pairs of a partition and an index it lists. -/
def owned (parts : List (List ℕ × ℕ)) : List (ℕ × ℕ) :=
  parts.flatMap fun (g, k) => g.map fun i => (k, i)

theorem mem_owned : (k, i) ∈ owned parts.zipIdx ↔ ∃ g, parts[k]? = some g ∧ i ∈ g := by
  simp only [owned, List.mem_flatMap, List.mem_map, Prod.mk.injEq, Prod.exists]
  constructor
  · rintro ⟨g, k', hg, j, hj, rfl, rfl⟩
    exact ⟨g, List.mem_zipIdx_iff_getElem?.1 hg, hj⟩
  · rintro ⟨g, hg, hi⟩
    exact ⟨g, k, List.mem_zipIdx_iff_getElem?.2 hg, i, hi, rfl, rfl⟩

theorem owned_snd (l : List (List ℕ × ℕ)) : (owned l).map Prod.snd = (l.map Prod.fst).flatten := by
  rw [owned, List.map_flatMap, ← List.flatMap_def]
  simp

theorem claimed_start : Claimed n [] (List.replicate n none, 0) := by
  refine ⟨by simp, rfl, fun k i => ?_, by simp⟩
  simp [List.getElem?_replicate]

/-- **The scan accepts the partitions that list every index once.** -/
theorem scanPartitionCovering_ok (hperm : parts.flatten.Perm (List.range n))
    (hlen : parts.length ≤ 2 ^ 32) : ∃ v, scanPartitionCovering parts n = .ok v := by
  have hloop := Loop.foldlM_ok (l := parts.zipIdx) (f := scanPartition n)
    (I := fun pre c => Claimed n (owned pre) c) (s := (List.replicate n none, 0)) claimed_start ?_
  · obtain ⟨c, hc, hclaimed⟩ := hloop
    -- as many indices are claimed as there are
    have hcount : c.2 = n := by
      rw [hclaimed.count, ← List.length_map (f := Prod.snd), owned_snd, List.zipIdx_map_fst,
        hperm.length_eq, List.length_range]
    obtain ⟨v, count⟩ := c
    simp only at hcount
    refine ⟨v, ?_⟩
    rw [scanPartitionCovering, hc, Result.ok_bind]
    simp [hcount]
  · rintro pre ⟨g, k⟩ post c hl hc
    -- the next partition claims what none before it has
    have hmem : (g, k) ∈ parts.zipIdx := by simp [hl]
    have hk := List.mem_zipIdx_iff_getElem?.1 hmem
    have hklt : k < parts.length := (List.getElem?_eq_some_iff.1 hk).1
    have hflat : parts.flatten = (pre.map Prod.fst).flatten ++ (g ++ (post.map Prod.fst).flatten) := by
      rw [← List.zipIdx_map_fst 0 parts, hl]
      simp
    have hnd : parts.flatten.Nodup := hperm.nodup_iff.2 List.nodup_range
    obtain ⟨c', hc', hclaimed⟩ := hc.scanPartition_ok (g := g) (k := k) (by omega)
      (fun i hi => List.mem_range.1 (hperm.mem_iff.1
        (List.mem_flatten_of_mem (List.mem_of_getElem? hk) hi))) (by
          rw [owned_snd]
          rw [hflat, ← List.append_assoc] at hnd
          exact (List.nodup_append.1 hnd).1)
    exact ⟨c', hc', by simpa [owned] using hclaimed⟩

/-- **What it accepts lists every index once**, and the owners it returns
are right. -/
theorem scanPartitionCovering_inv {v : List (Option ℕ)}
    (hok : scanPartitionCovering parts n = .ok v) :
    parts.flatten.Perm (List.range n) ∧ parts.length ≤ 2 ^ 32 ∧
      ∀ k i : ℕ, v[i]? = some (some k) ↔ ∃ g, parts[k]? = some g ∧ i ∈ g := by
  rw [scanPartitionCovering] at hok
  obtain ⟨c, hc, hrest⟩ := Result.bind_eq_ok.1 hok
  have hinv := Loop.foldlM_inv (I := fun pre (c : Covering) => Claimed n (owned pre) c ∧
    ∀ x ∈ pre, x.2 < 2 ^ 32) ⟨claimed_start, by simp⟩ ?_ hc
  · obtain ⟨hclaimed, hbound⟩ := hinv
    obtain ⟨hcount, hv⟩ := debugAssert_bind_eq_ok.1 hrest
    simp only [forall_const, decide_eq_true_eq, Result.pure_eq, Except.ok.injEq] at hcount hv
    subst hv
    have hflat := owned_snd parts.zipIdx
    rw [List.zipIdx_map_fst] at hflat
    -- distinct indices in range, and as many of them as the range has
    refine ⟨?_, ?_, fun k i => (hclaimed.owner k i).trans mem_owned⟩
    · have hnd : parts.flatten.Nodup := hflat ▸ hclaimed.nodup
      have hsub : parts.flatten ⊆ List.range n := by
        intro i hi
        rw [← hflat, List.mem_map] at hi
        obtain ⟨⟨k, i'⟩, hmem, rfl⟩ := hi
        exact List.mem_range.2 (hclaimed.lt hmem)
      refine (hnd.subperm hsub).perm_of_length_le ?_
      rw [List.length_range, ← hflat, List.length_map, ← hclaimed.count, hcount]
    · by_contra hlen
      -- the partition of that number would not pass its conversion
      have hlt : 2 ^ 32 < parts.length := by omega
      have hmem : (parts[2 ^ 32], 2 ^ 32) ∈ parts.zipIdx :=
        List.mem_zipIdx_iff_getElem?.2 (List.getElem?_eq_getElem hlt)
      exact absurd (hbound _ hmem) (Nat.lt_irrefl _)
  · rintro pre ⟨g, k⟩ post c c' - ⟨hcl, hb⟩ hstep
    obtain ⟨hk, hcl'⟩ := hcl.scanPartition_inv hstep
    refine ⟨by simpa [owned] using hcl', fun x hx => ?_⟩
    rcases List.mem_append.1 hx with hx | hx
    · exact hb x hx
    · cases List.mem_singleton.1 hx
      exact hk

/-- **The gate accepts exactly the coverings**, of which it counts no more
than 32 bits hold. -/
theorem assertPartitionCoversOps_iff : assertPartitionCoversOps true parts n = .ok () ↔
    parts.flatten.Perm (List.range n) ∧ parts.length ≤ 2 ^ 32 := by
  have hshape : assertPartitionCoversOps true parts n = .ok () ↔
      ∃ v, scanPartitionCovering parts n = .ok v := by
    simp [assertPartitionCoversOps, Result.bind_eq_ok]
  rw [hshape]
  constructor
  · rintro ⟨v, hv⟩
    obtain ⟨hperm, hlen, -⟩ := scanPartitionCovering_inv hv
    exact ⟨hperm, hlen⟩
  · rintro ⟨hperm, hlen⟩
    exact scanPartitionCovering_ok hperm hlen

/-- In any build. -/
theorem assertPartitionCoversOps_ok (hperm : parts.flatten.Perm (List.range n))
    (hlen : parts.length ≤ 2 ^ 32) (debug : Bool) :
    assertPartitionCoversOps debug parts n = .ok () := by
  cases debug with
  | false => rfl
  | true => exact assertPartitionCoversOps_iff.2 ⟨hperm, hlen⟩

end Porcupine
