import HazelcastCache.StoredResponse

/-! One `getBody` call against a completely inserted body. -/

namespace HazelcastCache

open Library

section Found

variable (context : HazelcastLookupContext) (store : Store) (range : AdjustedByteRange)
  (headers : HeaderMapImpl) (body : Bytes)
  (holds : Holds context.hzCache context.hashKey store headers body)
  (inside : range.last.toNat ≤ body.length)

include holds inside

theorem partition_found :
    store.bodyMap (context.bodyKeyOf range) = some ⟨Segments.block context.hzCache.partition
      (range.first.toNat / context.hzCache.partition) body⟩ := by
  apply holds.partitions
  have below := UInt64.lt_iff_toNat_lt.mp range.first_lt_last
  have floor := Nat.div_mul_le_self range.first.toNat context.hzCache.partition
  omega

omit holds in
theorem start_lt_block_length :
    range.first.toNat % context.hzCache.partition <
      (Segments.block context.hzCache.partition
        (range.first.toNat / context.hzCache.partition) body).length := by
  have below := UInt64.lt_iff_toNat_lt.mp range.first_lt_last
  have split := Nat.div_add_mod' range.first.toNat context.hzCache.partition
  have small := Nat.mod_lt range.first.toNat context.hzCache.partition_pos
  rw [Segments.block_length, Nat.lt_min]
  omega

theorem getBody_to_partition_end
    (beyond : context.partitionEnd range ≤ range.last.toNat ∨
      2 ^ 64 ≤ context.partitionEnd range) :
    context.getBody store range = .ok (some (body.extract range.first.toNat
      (min (context.partitionEnd range) body.length))) := by
  have split := Nat.div_add_mod' range.first.toNat context.hzCache.partition
  have size := context.hzCache.partition_lt
  have start := start_lt_block_length context range body inside
  have short : (Segments.block context.hzCache.partition
      (range.first.toNat / context.hzCache.partition) body).length < 2 ^ 64 := by
    rw [Segments.block_length]
    exact Nat.lt_of_le_of_lt (Nat.min_le_left _ _) size
  have offset : range.first.toNat % context.hzCache.partition =
      range.first.toNat - range.first.toNat / context.hzCache.partition *
        context.hzCache.partition := by
    omega
  rw [context.getBody_beyond store range _
    (partition_found context store range headers body holds inside) short beyond]
  simp only [if_pos (Nat.le_of_lt start)]
  rw [offset, Segments.block_drop _ _ _ _ (Nat.div_mul_le_self _ _)]
  rfl

/-- The first branch of `getBody` takes `end % P` bytes wherever it starts, so it is exact
only from the start of a partition. -/
theorem getBody_within_partition_iff (within : range.last.toNat < context.partitionEnd range)
    (exact_product : context.partitionEnd range < 2 ^ 64) :
    context.getBody store range =
        .ok (some (body.extract range.first.toNat range.last.toNat)) ↔
      range.first.toNat % context.hzCache.partition = 0 := by
  have below := UInt64.lt_iff_toNat_lt.mp range.first_lt_last
  have split := Nat.div_add_mod' range.first.toNat context.hzCache.partition
  have found := partition_found context store range headers body holds inside
  have reach : context.partitionEnd range = range.first.toNat / context.hzCache.partition *
      context.hzCache.partition + context.hzCache.partition := Nat.succ_mul _ _
  have size : range.last.toNat % context.hzCache.partition = range.last.toNat -
      range.first.toNat / context.hzCache.partition * context.hzCache.partition := by
    have same : range.last.toNat / context.hzCache.partition =
        range.first.toNat / context.hzCache.partition := by
      apply Nat.div_eq_of_lt_le
      · omega
      · exact within
    have := Nat.div_add_mod' range.last.toNat context.hzCache.partition
    rw [same] at this
    omega
  have length := Segments.block_length context.hzCache.partition
    (range.first.toNat / context.hzCache.partition) body
  rw [context.getBody_within store range _ found within exact_product]
  simp only [size]
  constructor
  · intro delivered
    split at delivered
    · rename_i fits
      have lengths := congrArg List.length (Option.some.inj (Except.ok.inj delivered))
      simp only [List.length_take, List.length_drop, List.extract] at lengths fits
      omega
    · cases delivered
  · intro aligned
    have origin : range.first.toNat = range.first.toNat / context.hzCache.partition *
        context.hzCache.partition := by omega
    rw [aligned, Nat.zero_add, ← origin, if_pos (by omega), List.extract, List.drop_zero,
      Segments.block_eq_take_drop, ← origin, List.take_take, Nat.sub_zero,
      Nat.min_eq_left (by omega)]

theorem getBody_eq_range_iff (bounded : body.length < 2 ^ 64) :
    context.getBody store range = .ok (some (body.extract range.first.toNat
        (min range.last.toNat (context.partitionEnd range)))) ↔
      context.partitionEnd range ≤ range.last.toNat ∨
        if context.partitionEnd range < 2 ^ 64 then
          range.first.toNat % context.hzCache.partition = 0
        else range.last.toNat = body.length := by
  have below := UInt64.lt_iff_toNat_lt.mp range.first_lt_last
  by_cases reaches : context.partitionEnd range ≤ range.last.toNat
  · rw [getBody_to_partition_end context store range headers body holds inside (Or.inl reaches),
      Nat.min_eq_left (Nat.le_trans reaches inside), Nat.min_eq_right reaches]
    simp [reaches]
  · rw [Nat.min_eq_left (Nat.le_of_not_le reaches), or_iff_right reaches]
    by_cases wraps : context.partitionEnd range < 2 ^ 64
    · rw [if_pos wraps]
      exact getBody_within_partition_iff context store range headers body holds inside
        (Nat.not_le.mp reaches) wraps
    · rw [if_neg wraps, getBody_to_partition_end context store range headers body holds inside
        (Or.inr (Nat.not_lt.mp wraps)), Nat.min_eq_right (by omega)]
      constructor
      · intro delivered
        have lengths := congrArg List.length (Option.some.inj (Except.ok.inj delivered))
        simp only [List.length_take, List.length_drop, List.extract] at lengths
        omega
      · intro whole
        rw [whole]

end Found

/-- A range read is exact if and only if the range reaches the end of the partition it
starts in, or starts on a partition border. (For a body of more than `2^63` bytes the end
of the partition may not fit in 64 bits; the code then reads on to the end of the body.) -/
theorem range_read_exact_iff (cache : HazelcastHttpCache) (hashKey : UInt64) (store : Store)
    (insert : Insert) (range : AdjustedByteRange)
    (few : insert.body.length / cache.partition + 1 < 2 ^ 31)
    (inside : range.last.toNat ≤ insert.body.length) :
    ∃ final, insert.run cache hashKey store = .ok final ∧
      let context := ((⟨cache, hashKey, none⟩ : HazelcastLookupContext).getHeaders final).1
      let first := range.first.toNat
      let last := range.last.toNat
      let border := (first / cache.partition + 1) * cache.partition
      (context.getBody final range = .ok (some (insert.body.extract first (min last border))) ↔
        border ≤ last ∨
          if border < 2 ^ 64 then first % cache.partition = 0 else last = insert.body.length) := by
  rcases insert.run_holds cache hashKey store few with ⟨final, ran, holds⟩
  refine ⟨final, ran, ?_⟩
  have context : (⟨cache, hashKey, none⟩ : HazelcastLookupContext).getHeaders final =
      (⟨cache, hashKey, some (UInt64.ofNat insert.body.length)⟩,
        some (some insert.headers, UInt64.ofNat insert.body.length)) := by
    have stored : cache.lookupHeader final hashKey =
        some ⟨some insert.headers, UInt64.ofNat insert.body.length⟩ := holds.header
    simp only [HazelcastLookupContext.getHeaders, stored]
  rw [context]
  exact getBody_eq_range_iff _ final range insert.headers insert.body holds inside insert.size_lt

theorem range_read_exact_on_border :
    let cache : HazelcastHttpCache := ⟨{ bodyPartitionSize := 4 }⟩
    let insert := Insert.single [] ⟨[10, 11, 12, 13, 14, 15], by decide⟩
    ∃ final, insert.run cache 17 Store.empty = .ok final ∧
      ((⟨cache, 17, none⟩ : HazelcastLookupContext).getHeaders final).1.getBody final
        ⟨4, 6, by decide⟩ = .ok (some [14, 15]) := by
  intro cache insert
  obtain ⟨final, ran, delivered⟩ := range_read_exact_iff cache 17 Store.empty insert
    ⟨4, 6, by decide⟩ (by decide) (by decide)
  refine ⟨final, ran, (delivered.mpr (by decide)).trans ?_⟩
  decide

theorem range_read_past_end :
    let cache : HazelcastHttpCache := ⟨{ bodyPartitionSize := 4 }⟩
    let insert := Insert.single [] ⟨[10, 11, 12, 13, 14, 15], by decide⟩
    let range : AdjustedByteRange := ⟨1, 2, by decide⟩
    ∃ final, insert.run cache 17 Store.empty = .ok final ∧
      let context := ((⟨cache, 17, none⟩ : HazelcastLookupContext).getHeaders final).1
      context.getBody final range = .ok (some [11, 12]) ∧
      context.getBody final range ≠
        .ok (some (insert.body.extract 1 (min 2 ((1 / cache.partition + 1) * cache.partition)))) := by
  intro cache insert range
  refine ⟨Store.empty.applyAll (responsePuts cache 17 [] [10, 11, 12, 13, 14, 15]), ?_, ?_, ?_⟩
  · exact insert.run_chunked cache 17 Store.empty (by decide)
  · decide
  · decide

end HazelcastCache
