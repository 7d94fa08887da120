import HazelcastCache.StoredResponse

/-! Inserts and lookups under different hash keys.

A body key is the decimal hash followed directly by the decimal partition index, so two
different hashes can meet in one key. -/

namespace HazelcastCache

open Library

variable (cache : HazelcastHttpCache) (hashKey : UInt64)

def Insert.bodyPuts (insert : Insert) (cache : HazelcastHttpCache) (steps : Nat) : Nat :=
  if insert.chunks = [] then 0 else min steps (insert.body.length / cache.partition + 1)

theorem Insert.lt_bodyPuts_iff (insert : Insert) (steps index : Nat) :
    index < insert.bodyPuts cache steps ↔
      insert.chunks ≠ [] ∧ index < steps ∧ index ≤ insert.body.length / cache.partition := by
  unfold Insert.bodyPuts
  split
  · rename_i headerOnly
    simp [headerOnly]
  · rename_i chunked
    simp only [Nat.lt_min, Nat.lt_succ_iff, ne_eq, chunked, not_false_eq_true, true_and]

theorem Insert.bodyPuts_eq_min (insert : Insert) (steps : Nat) :
    insert.bodyPuts cache steps = min steps (insert.partitions cache) := by
  unfold Insert.bodyPuts Insert.partitions
  split
  · exact (Nat.min_zero steps).symm
  · rfl

theorem Insert.bodyMap_take (insert : Insert) (store : Store) (steps : Nat) :
    (store.applyAll ((insert.log cache hashKey).take steps)).bodyMap = (store.applyAll
      (blockPuts cache hashKey insert.body 0 (insert.bodyPuts cache steps))).bodyMap := by
  rw [Insert.bodyPuts_eq_min]
  rcases Nat.lt_or_ge (insert.partitions cache) steps with finished | stopped
  · rw [Insert.log_take_all _ _ _ _ finished, Nat.min_eq_right (Nat.le_of_lt finished),
      Insert.log, Store.applyAll_append]
    rfl
  · rw [Insert.log_take _ _ _ _ stopped, Nat.min_eq_left stopped]

theorem Insert.headerMap_take_of_ne (insert : Insert) (other : UInt64) (store : Store)
    (steps : Nat) (different : hashKey ≠ other) :
    (store.applyAll ((insert.log cache hashKey).take steps)).headerMap (cache.headerKey other) =
      store.headerMap (cache.headerKey other) := by
  apply Store.headerMap_applyAll_of_notMem
  intro entry member
  have key := (insert.header_mem_log cache hashKey _ entry (List.mem_of_mem_take member)).1
  exact different (cache.headerKey_injective key).symm

/-- The key of a body put meets the key of a partition of another hash exactly when the
counter is not negative and the numerals overlap. -/
theorem orderKey_eq_bodyKey_iff (written read : UInt64) (different : written ≠ read)
    (index position : Nat) :
    cache.orderKey written index = cache.bodyKey read position ↔
      ∃ order : Nat, (Int32.ofNat index).toInt = order ∧
        (Decimal.Overlap written.toNat order read.toNat position ∨
          Decimal.Overlap read.toNat position written.toNat order) := by
  have numbers : written.toNat ≠ read.toNat := fun same => different (UInt64.toNat_inj.mp same)
  rw [HazelcastHttpCache.orderKey, HazelcastHttpCache.bodyKey, Prod.mk.injEq, and_iff_right rfl]
  change toString written.toNat ++ toString (Int32.ofNat index).toInt =
    toString read.toNat ++ toString position ↔ _
  cases (Int32.ofNat index).toInt with
  | ofNat order =>
      change toString written.toNat ++ toString order = _ ↔ _
      rw [Decimal.toString_append_eq_iff _ _ _ _ numbers]
      constructor
      · intro overlap
        exact ⟨order, rfl, overlap⟩
      · intro counted
        rcases counted with ⟨_, same, overlap⟩
        rwa [Int.ofNat.inj same]
  | negSucc magnitude =>
      constructor
      · intro same
        exact absurd same (Decimal.toString_append_negSucc_ne _ _ _ _)
      · intro counted
        rcases counted with ⟨_, same, _⟩
        cases same

def partitionStart (position : Nat) (addressable : position * cache.partition + 1 < 2 ^ 64) :
    AdjustedByteRange where
  first := UInt64.ofNat (position * cache.partition)
  last := UInt64.ofNat (position * cache.partition + 1)
  first_lt_last := by
    rw [UInt64.lt_iff_toNat_lt, UInt64.toNat_ofNat_of_lt' (Nat.lt_of_succ_lt addressable),
      UInt64.toNat_ofNat_of_lt' addressable]
    exact Nat.lt_succ_self _

theorem bodyKeyOf_partitionStart (context : HazelcastLookupContext) (position : Nat)
    (addressable : position * context.hzCache.partition + 1 < 2 ^ 64) :
    context.bodyKeyOf (partitionStart context.hzCache position addressable) =
      context.hzCache.bodyKey context.hashKey position := by
  rw [HazelcastLookupContext.bodyKeyOf, partitionStart,
    UInt64.toNat_ofNat_of_lt' (Nat.lt_of_succ_lt addressable),
    Nat.mul_div_cancel _ context.hzCache.partition_pos]

theorem index_addressable (range : AdjustedByteRange) :
    range.first.toNat / cache.partition * cache.partition + 1 < 2 ^ 64 := by
  have below := UInt64.lt_iff_toNat_lt.mp range.first_lt_last
  have floor := Nat.div_mul_le_self range.first.toNat cache.partition
  have bounded := range.last.toNat_lt
  omega

/-- An insert under one hash, complete or cut off after `steps` puts, leaves every lookup
under another hash unchanged if and only if no partition it has put and no partition a
lookup can address have overlapping numerals: one hash is the other followed by further
digits, and these digits followed by one index are the other index. -/
theorem other_lookup_unaffected_iff (cache : HazelcastHttpCache) (written read : UInt64)
    (different : written ≠ read) (insert : Insert) (steps : Nat) (total : Option UInt64) :
    ∃ puts, insert.puts cache written = .ok puts ∧
      let context : HazelcastLookupContext := ⟨cache, read, total⟩
      ((∀ store range,
          (context.getHeaders (store.applyAll (puts.take steps))).2 =
            (context.getHeaders store).2 ∧
          context.getBody (store.applyAll (puts.take steps)) range =
            context.getBody store range) ↔
        ∀ index order position : Nat, insert.chunks ≠ [] → index < steps →
          index ≤ insert.body.length / cache.partition → (Int32.ofNat index).toInt = order →
          position * cache.partition + 1 < 2 ^ 64 →
          ¬ Decimal.Overlap written.toNat order read.toNat position ∧
            ¬ Decimal.Overlap read.toNat position written.toNat order) := by
  refine ⟨_, insert.puts_eq_log cache written, ?_⟩
  have bodies := fun store => insert.bodyMap_take cache written store steps
  constructor
  · intro unaffected index order position chunked performed stored counter addressable
    rw [← not_or]
    intro overlap
    have keys := (orderKey_eq_bodyKey_iff cache written read different index position).mpr
      ⟨order, counter, overlap⟩
    -- On empty maps the lookup misses the partition before the insert and finds it after.
    have after := (unaffected Store.empty (partitionStart cache position addressable)).2
    have before : (⟨cache, read, total⟩ : HazelcastLookupContext).getBody Store.empty
        (partitionStart cache position addressable) = .ok none :=
      HazelcastLookupContext.getBody_missing _ _ _ rfl
    rw [before, HazelcastLookupContext.getBody_eq_abort_iff, bodies,
      bodyKeyOf_partitionStart ⟨cache, read, total⟩, ← keys, Store.bodyMap_applyAll,
      blockPuts_bodyRecords] at after
    obtain ⟨value, found, _⟩ := KeyedMap.writeAll_satisfies Store.empty.bodyMap
      ((List.range' 0 (insert.bodyPuts cache steps - 0)).map (fun index =>
        (cache.orderKey written index, (⟨Segments.block cache.partition index insert.body⟩ :
          HazelcastBodyEntry)))) (cache.orderKey written index) (fun _ => True)
      (fun _ _ _ => trivial) (Or.inr ⟨_, List.mem_map.mpr ⟨index, List.mem_range'.mpr
        ⟨index, (insert.lt_bodyPuts_iff cache steps index).mpr ⟨chunked, performed, stored⟩,
          by omega⟩, rfl⟩, rfl⟩)
    rw [found] at after
    cases after
  · intro apart store range
    constructor
    · rw [HazelcastLookupContext.getHeaders_result, HazelcastLookupContext.getHeaders_result]
      exact congrArg _
        (insert.headerMap_take_of_ne cache written read store steps different)
    · apply HazelcastLookupContext.getBody_congr
      rw [bodies]
      apply bodyMap_blockPuts_of_ne
      intro index performed same
      rcases (orderKey_eq_bodyKey_iff cache written read different index _).mp same.symm with
        ⟨order, counter, overlap⟩
      rcases (insert.lt_bodyPuts_iff cache steps index).mp performed with ⟨chunked, started, stored⟩
      have disjoint := apart index order _ chunked started stored counter
        (index_addressable cache range)
      exact overlap.elim disjoint.1 disjoint.2

theorem other_lookup_unaffected_short :
    let cache : HazelcastHttpCache := ⟨{ bodyPartitionSize := 1 }⟩
    let insert := Insert.single [] ⟨[5, 6, 7], by decide⟩
    let context : HazelcastLookupContext := ⟨cache, 11, none⟩
    ∃ puts, insert.puts cache 1 = .ok puts ∧
      ∀ store range,
        (context.getHeaders (store.applyAll (puts.take 5))).2 = (context.getHeaders store).2 ∧
        context.getBody (store.applyAll (puts.take 5)) range = context.getBody store range := by
  intro cache insert context
  rcases other_lookup_unaffected_iff cache 1 11 (by decide) insert 5 none with
    ⟨puts, emitted, unaffected⟩
  refine ⟨puts, emitted, unaffected.mpr ?_⟩
  intro index order position _ _ stored counter _
  have last : insert.body.length / cache.partition = 3 := by decide
  rw [last] at stored
  have small : order ≤ 3 := by
    have exact_counter : (Int32.ofNat index).toInt = index :=
      Int32.toInt_ofNat_of_lt (by omega)
    omega
  constructor
  · rintro ⟨_, middle, positive, _, tail⟩
    have digits : 10 ^ 1 ≤ 10 ^ Decimal.digitCount position :=
      Nat.pow_le_pow_right (by decide) (Decimal.digitCount_pos position)
    have shifted : 1 * 10 ^ Decimal.digitCount position ≤
        middle * 10 ^ Decimal.digitCount position := Nat.mul_le_mul_right _ positive
    omega
  · intro overlap
    exact absurd overlap.digitCount_lt (by decide)

/-- Partition 10 of hash 1 and partition 0 of hash 11 share the key `110`, so the byte
stored for hash 11 is replaced by a byte of the other response. -/
theorem other_lookup_overwritten :
    let cache : HazelcastHttpCache := ⟨{ bodyPartitionSize := 1 }⟩
    let victim := Insert.single [] ⟨[7], by decide⟩
    let insert := Insert.single [] ⟨[0, 1, 2, 3, 4, 5, 6, 7, 8, 9, 10], by decide⟩
    ∃ before after, victim.run cache 11 Store.empty = .ok before ∧
      insert.run cache 1 before = .ok after ∧
      let context : HazelcastLookupContext := ⟨cache, 11, none⟩
      context.getBody before ⟨0, 1, by decide⟩ = .ok (some [7]) ∧
      context.getBody after ⟨0, 1, by decide⟩ = .ok (some [10]) := by
  intro cache victim insert
  refine ⟨_, _, victim.run_chunked cache 11 Store.empty (by decide),
    insert.run_chunked cache 1 _ (by decide), ?_, ?_⟩
  · decide
  · decide

end HazelcastCache
