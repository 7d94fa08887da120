import HazelcastCache.StoredResponse

/-! The index of a partition: how the reader computes it, how the writer counts it, and how
many partitions there are. -/

namespace HazelcastCache

open Library

/-! The reader divides in 64 bits. -/

theorem HazelcastHttpCache.toInt_bodySizePerEntry (cache : HazelcastHttpCache) :
    (cache.bodySizePerEntry.toNat : Int) =
      if cache.hzConfig.bodyPartitionSize = 0 then 1024
      else cache.hzConfig.bodyPartitionSize.toInt % 2 ^ 64 := by
  unfold bodySizePerEntry
  split
  · rfl
  · generalize cache.hzConfig.bodyPartitionSize = setting
    have unsigned := UInt64.toNat_lt setting.toUInt64
    have signed : setting.toInt = (setting.toUInt64.toNat : Int).bmod (2 ^ 64) := by
      change setting.toBitVec.toInt = _
      exact BitVec.toInt_eq_toNat_bmod _
    calc
      (setting.toUInt64.toNat : Int) = (setting.toUInt64.toNat : Int) % (2 ^ 64 : Nat) :=
        (Int.emod_eq_of_lt (by omega) (by omega)).symm
      _ = (setting.toUInt64.toNat : Int).bmod (2 ^ 64) % (2 ^ 64 : Nat) := Int.bmod_emod.symm
      _ = setting.toInt % 2 ^ 64 := by rw [← signed]; rfl

theorem HazelcastLookupContext.partitionEnd_lt (context : HazelcastLookupContext)
    (range : AdjustedByteRange) (small : range.first.toNat < 2 ^ 63) :
    context.partitionEnd range < 2 ^ 64 :=
  context.hzCache.border_lt _ (Nat.lt_of_le_of_lt (Nat.div_mul_le_self _ _) small)

theorem HazelcastLookupContext.getBody_branch (context : HazelcastLookupContext) (store : Store)
    (range : AdjustedByteRange) (fits : context.partitionEnd range < 2 ^ 64)
    (body : HazelcastBodyEntry)
    (found : store.bodyMap (context.bodyKeyOf range) = some body) :
    context.getBody store range =
      if range.last.toNat < context.partitionEnd range then
        (copyBytes body.bodyBuffer (range.first % context.bodyPartitionSize)
          (range.last % context.bodyPartitionSize)).map some
      else
        (copyBytes body.bodyBuffer (range.first % context.bodyPartitionSize)
          (UInt64.ofNat body.bodyBuffer.length - range.first % context.bodyPartitionSize)).map
            some := by
  have branch := (context.last_lt_partitionEnd_iff range).trans (and_iff_left fits)
  simp only [getBody, lookupBody_bodyKeyOf, found, branch]

/-- `getBody` computes with 64-bit numbers what it would compute with unbounded ones, and takes
the branch that these would choose. -/
theorem index_arithmetic_exact (context : HazelcastLookupContext) (total : UInt64)
    (range : AdjustedByteRange) (inside : range.last ≤ total) (small : total.toNat < 2 ^ 63) :
    let setting := context.hzCache.hzConfig.bodyPartitionSize
    let size := context.bodyPartitionSize
    let bodyIndex := range.first / size
    (size.toNat : Int) = (if setting = 0 then 1024 else setting.toInt % 2 ^ 64) ∧ size ≠ 0 ∧
      ((bodyIndex + 1) * size).toNat = (bodyIndex.toNat + 1) * size.toNat ∧
      (range.last < (bodyIndex + 1) * size ↔
        range.last.toNat < (bodyIndex.toNat + 1) * size.toNat) ∧
      bodyIndex.toNat * size.toNat ≤ range.first.toNat ∧
      range.first.toNat < (bodyIndex.toNat + 1) * size.toNat ∧
      ∀ store body, store.bodyMap (context.bodyKeyOf range) = some body →
        context.getBody store range =
          if range.last.toNat < (bodyIndex.toNat + 1) * size.toNat then
            (copyBytes body.bodyBuffer (range.first % size) (range.last % size)).map some
          else
            (copyBytes body.bodyBuffer (range.first % size)
              (UInt64.ofNat body.bodyBuffer.length - range.first % size)).map some := by
  intro setting size bodyIndex
  have ordered := UInt64.lt_iff_toNat_lt.mp range.first_lt_last
  have bounded := UInt64.le_iff_toNat_le.mp inside
  have fits := context.partitionEnd_lt range (by omega)
  have index : bodyIndex.toNat = range.first.toNat / context.hzCache.partition :=
    UInt64.toNat_div _ _
  have reach : (bodyIndex.toNat + 1) * size.toNat = context.partitionEnd range := by
    rw [index]
    rfl
  have product : ((bodyIndex + 1) * size).toNat = context.partitionEnd range :=
    (context.toNat_partitionEnd range).trans (Nat.mod_eq_of_lt fits)
  have positive : 0 < size.toNat := context.hzCache.partition_pos
  refine ⟨context.hzCache.toInt_bodySizePerEntry, ?_, product.trans reach.symm, ?_, ?_, ?_, ?_⟩
  · intro zero
    rw [zero] at positive
    exact Nat.lt_irrefl 0 positive
  · rw [UInt64.lt_iff_toNat_lt, product, reach]
  · rw [index]
    exact Nat.div_mul_le_self _ _
  · rw [index, Nat.mul_comm]
    exact Nat.lt_mul_div_succ _ positive
  · intro store body found
    rw [reach]
    exact context.getBody_branch store range fits body found

theorem index_arithmetic_exact_negative :
    let context : HazelcastLookupContext := ⟨⟨{ bodyPartitionSize := -1 }⟩, 17, some 6⟩
    ((2 / context.bodyPartitionSize + 1) * context.bodyPartitionSize).toNat =
      18446744073709551615 := by
  intro context
  rcases index_arithmetic_exact context 6 ⟨2, 5, by decide⟩ (by decide) (by decide) with
    ⟨_, _, product, _⟩
  exact product.trans (by decide)

/-! The writer counts its flushes in a C++ `int`. -/

theorem orderKey_eq_bodyKey_self_iff (cache : HazelcastHttpCache) (hashKey : UInt64)
    (index : Nat) :
    cache.orderKey hashKey index = cache.bodyKey hashKey index ↔ index < 2 ^ 31 := by
  constructor
  · intro same
    have texts : toString hashKey.toNat ++ toString (Int32.ofNat index).toInt =
        toString hashKey.toNat ++ toString index := (Prod.mk.inj same).2
    have bounded := (Int32.ofNat index).toInt_lt
    cases counter : (Int32.ofNat index).toInt with
    | ofNat order =>
        rw [counter] at texts bounded
        have shown : toString order = toString index := (String.append_right_inj _).mp texts
        rw [← Decimal.toString_injective shown]
        exact Int.ofNat_lt.mp bounded
    | negSucc magnitude =>
        rw [counter] at texts
        exact absurd texts (Decimal.toString_append_negSucc_ne _ _ _ _)
  · exact orderKey_eq_bodyKey cache hashKey index

theorem Insert.log_getElem? (insert : Insert) (cache : HazelcastHttpCache) (hashKey : UInt64)
    (index : Nat) (inside : index < insert.partitions cache) :
    (insert.log cache hashKey)[index]? = some (.body (cache.orderKey hashKey index)
      ⟨Segments.block cache.partition index insert.body⟩) := by
  calc
    (insert.log cache hashKey)[index]? = ((insert.log cache hashKey).drop index)[0]? := by
      rw [List.getElem?_drop, Nat.add_zero]
    _ = some (blockPut cache hashKey insert.body index) := by
      rw [insert.log_drop cache hashKey index inside, List.getElem?_cons_zero]
    _ = _ := rfl

theorem readerKey_eq_bodyKey (cache : HazelcastHttpCache) (hashKey offset : UInt64)
    (index : Nat) (low : index * cache.partition ≤ offset.toNat)
    (high : offset.toNat < (index + 1) * cache.partition) :
    (cache.hzConfig.bodyMapName,
      toString hashKey ++ toString (offset / cache.bodySizePerEntry)) =
        cache.bodyKey hashKey index := by
  have quotient : (offset / cache.bodySizePerEntry).toNat = index := by
    rw [UInt64.toNat_div]
    exact Nat.div_eq_of_lt_le low high
  rw [HazelcastHttpCache.bodyKey, ← quotient]
  rfl

/-- The key of the put that stores the bytes from offset `index * P` on is the one under
which every offset of that partition is looked up, if and only if the `int` counter reaches
the index without overflow. The key is the one of `getBody`, which aborts exactly if nothing
lies under it. -/
theorem partition_key_agrees_iff (cache : HazelcastHttpCache) (hashKey : UInt64)
    (insert : Insert) (small : insert.body.length < 2 ^ 63) (index : Nat)
    (inside : index * cache.partition < insert.body.length) :
    ∃ puts key, insert.puts cache hashKey = .ok puts ∧
      puts[index]? = some (.body key ⟨insert.body.extract (index * cache.partition)
        (min ((index + 1) * cache.partition) insert.body.length)⟩) ∧
      ((∀ offset : UInt64, index * cache.partition ≤ offset.toNat →
          offset.toNat < (index + 1) * cache.partition →
          key = (cache.hzConfig.bodyMapName,
            toString hashKey ++ toString (offset / cache.bodySizePerEntry))) ↔
        index < 2 ^ 31) ∧
      ∀ (total : Option UInt64) (store : Store) (range : AdjustedByteRange),
        (⟨cache, hashKey, total⟩ : HazelcastLookupContext).bodyKeyOf range =
            (cache.hzConfig.bodyMapName,
              toString hashKey ++ toString (range.first / cache.bodySizePerEntry)) ∧
          ((⟨cache, hashKey, total⟩ : HazelcastLookupContext).getBody store range = .ok none ↔
            store.bodyMap (cache.hzConfig.bodyMapName,
              toString hashKey ++ toString (range.first / cache.bodySizePerEntry)) = none) := by
  refine ⟨insert.log cache hashKey, cache.orderKey hashKey index,
    insert.puts_eq_log cache hashKey, ?_, ?_, ?_⟩
  · rw [Segments.block_eq_extract_min]
    exact insert.log_getElem? cache hashKey index (insert.lt_partitions cache index inside)
  · rw [← orderKey_eq_bodyKey_self_iff cache hashKey index]
    constructor
    · intro agrees
      -- The partition's own first offset is one the reader can ask for.
      have start : (UInt64.ofNat (index * cache.partition)).toNat = index * cache.partition :=
        UInt64.toNat_ofNat_of_lt' (by simp only [UInt64.size]; omega)
      have next : index * cache.partition < (index + 1) * cache.partition := by
        rw [Nat.succ_mul]
        exact Nat.lt_add_of_pos_right cache.partition_pos
      rw [agrees (UInt64.ofNat (index * cache.partition)) (by omega) (by omega)]
      exact readerKey_eq_bodyKey cache hashKey _ index (by omega) (by omega)
    · intro same offset low high
      rw [same, readerKey_eq_bodyKey cache hashKey offset index low high]
  · intro total store range
    have asked := readerKey_eq_bodyKey cache hashKey range.first _
      (Nat.div_mul_le_self range.first.toNat cache.partition)
      (Nat.lt_div_mul_add cache.partition_pos |>.trans_eq (Nat.succ_mul _ _).symm)
    exact ⟨asked.symm, by rw [asked]; exact HazelcastLookupContext.getBody_eq_abort_iff _ _ _⟩

theorem partition_key_agrees_second :
    let cache : HazelcastHttpCache := ⟨{ bodyPartitionSize := 2 }⟩
    let insert := Insert.single [] ⟨[5, 6, 7, 8], by decide⟩
    ∃ puts key, insert.puts cache 17 = .ok puts ∧ puts[1]? = some (.body key ⟨[7, 8]⟩) ∧
      key = ("", "171") := by
  intro cache insert
  rcases partition_key_agrees_iff cache 17 insert (by decide) 1 (by decide) with
    ⟨puts, key, emitted, stored, agrees, _⟩
  have known := agrees.mpr (by decide) 3 (by decide) (by decide)
  exact ⟨puts, key, emitted, stored, known.trans (by decide)⟩

theorem partition_key_overflows :
    let cache : HazelcastHttpCache := ⟨{ bodyPartitionSize := 1 }⟩
    let insert := Insert.single [] ⟨List.replicate (2 ^ 31 + 1) 0,
      by rw [List.length_replicate]; decide⟩
    let offset : UInt64 := 2147483648
    ∃ puts, insert.puts cache 17 = .ok puts ∧
      2 ^ 31 * cache.partition < insert.body.length ∧ offset.toNat = 2 ^ 31 * cache.partition ∧
      puts[2 ^ 31]? = some (.body ("", "17-2147483648") ⟨[0]⟩) ∧
      ("", toString (17 : UInt64) ++ toString (offset / cache.bodySizePerEntry)) =
        ("", "172147483648") := by
  intro cache insert offset
  have size : cache.partition = 1 := by decide
  have body : insert.body = List.replicate (2 ^ 31 + 1) 0 := Insert.single_body _ _
  have inside : 2 ^ 31 * cache.partition < insert.body.length := by
    rw [size, body, List.length_replicate]
    decide
  have key : cache.orderKey 17 (2 ^ 31) = ("", "17-2147483648") := by decide
  have last : Segments.block cache.partition (2 ^ 31) insert.body = [0] := by
    rw [body, size, Segments.block_eq_take_drop, List.drop_replicate, List.take_replicate]
    rfl
  refine ⟨_, insert.puts_eq_log cache 17, inside, by decide, ?_, by decide⟩
  rw [insert.log_getElem? cache 17 _ (insert.lt_partitions cache _ inside), key, last]

/-! How many partitions the writer puts. -/

theorem Insert.bodyRecords_log (insert : Insert) (cache : HazelcastHttpCache) (hashKey : UInt64) :
    (insert.log cache hashKey).filterMap Put.bodyRecord =
      (List.range (insert.partitions cache)).map (fun index => (cache.orderKey hashKey index,
        ⟨Segments.block cache.partition index insert.body⟩)) := by
  rw [Insert.log, List.filterMap_append, blockPuts_bodyRecords, List.range_eq_range']
  exact List.append_nil _

/-- An insert puts as many partitions as the body takes up, and none of them is empty, if and
only if the body does not end on a partition border. There, and for an empty body, the end of
the stream flushes a buffer in which nothing is left. -/
theorem body_put_count_iff (cache : HazelcastHttpCache) (hashKey : UInt64) (insert : Insert)
    (chunked : insert.chunks ≠ []) (few : insert.body.length / cache.partition + 1 < 2 ^ 31) :
    ∃ puts, insert.puts cache hashKey = .ok puts ∧
      let records := puts.filterMap Put.bodyRecord
      let count := (insert.body.length + cache.partition - 1) / cache.partition
      ((records.map Prod.fst).Perm ((List.range count).map (cache.bodyKey hashKey)) ∧
          (∀ record ∈ records, record.2.bodyBuffer ≠ []) ↔
        ¬ cache.partition ∣ insert.body.length) := by
  refine ⟨insert.log cache hashKey, insert.puts_eq_log cache hashKey, ?_⟩
  have number : insert.partitions cache = insert.body.length / cache.partition + 1 :=
    if_neg chunked
  have ceiling := Segments.ceil_eq cache.partition insert.body.length cache.partition_pos
  rw [insert.bodyRecords_log cache hashKey, number, ceiling]
  dsimp only
  rw [List.map_map]
  constructor
  · intro exactly whole
    have lengths := exactly.1.length_eq
    simp [whole] at lengths
  · intro broken
    rw [if_neg broken]
    constructor
    · apply List.Perm.of_eq
      apply List.map_congr_left
      intro index member
      have bound := List.mem_range.mp member
      exact orderKey_eq_bodyKey cache hashKey index (by omega)
    · intro record member
      obtain ⟨index, bound, rfl⟩ := List.mem_map.mp member
      exact Segments.block_ne_nil _ index insert.body broken cache.partition_pos
        (Nat.lt_succ_iff.mp (List.mem_range.mp bound))

theorem body_put_count_documented :
    let cache : HazelcastHttpCache := ⟨{ bodyPartitionSize := 2097152 }⟩
    let insert := Insert.single [] ⟨List.replicate 5242880 0,
      by rw [List.length_replicate]; decide⟩
    ∃ puts, insert.puts cache 17 = .ok puts ∧
      ((puts.filterMap Put.bodyRecord).map Prod.fst).Perm [("", "170"), ("", "171"), ("", "172")] ∧
      ∀ record ∈ puts.filterMap Put.bodyRecord, record.2.bodyBuffer ≠ [] := by
  intro cache insert
  have size : cache.partition = 2097152 := by decide
  have length : insert.body.length = 5242880 := by
    rw [Insert.single_body]
    exact List.length_replicate
  rcases body_put_count_iff cache 17 insert (by intro none; cases none)
    (by rw [size, length]; decide) with ⟨puts, emitted, counted⟩
  obtain ⟨keys, filled⟩ := counted.mpr (by rw [size, length]; decide)
  rw [size, length] at keys
  exact ⟨puts, emitted, keys, filled⟩

theorem body_put_count_on_border :
    let cache : HazelcastHttpCache := ⟨{ bodyPartitionSize := 2 }⟩
    let insert : Insert := ⟨[], [⟨[5, 6, 7], by decide⟩, ⟨[8], by decide⟩], by decide⟩
    ∃ puts, insert.puts cache 17 = .ok puts ∧
      puts.filterMap Put.bodyRecord =
        [(("", "170"), ⟨[5, 6]⟩), (("", "171"), ⟨[7, 8]⟩), (("", "172"), ⟨[]⟩)] ∧
      (insert.body.length + cache.partition - 1) / cache.partition = 2 :=
  ⟨_, rfl, by decide, by decide⟩

end HazelcastCache
