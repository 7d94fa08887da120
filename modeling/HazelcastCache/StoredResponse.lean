import HazelcastCache.Layout

/-! The maps after an insert: the entries it writes and the entries it leaves alone. -/

namespace HazelcastCache

open Library

variable (cache : HazelcastHttpCache) (hashKey : UInt64)

/-- The key of the `index`-th body put, with the `int` counter the insert context keeps. -/
def HazelcastHttpCache.orderKey (index : Nat) : String × String :=
  (cache.hzConfig.bodyMapName, toString hashKey ++ toString (Int32.ofNat index))

theorem orderKey_eq_bodyKey (index : Nat) (small : index < 2 ^ 31) :
    cache.orderKey hashKey index = cache.bodyKey hashKey index := by
  have counter : toString (Int32.ofNat index) = toString index := by
    change toString (Int32.ofNat index).toInt = _
    rw [Int32.toInt_ofNat_of_lt small]
    rfl
  rw [HazelcastHttpCache.orderKey, HazelcastHttpCache.bodyKey, counter]

theorem blockPuts_bodyRecords (body : Bytes) (first last : Nat) :
    (blockPuts cache hashKey body first last).filterMap Put.bodyRecord =
      (List.range' first (last - first)).map (fun index => (cache.orderKey hashKey index,
        ⟨Segments.block cache.partition index body⟩)) := by
  rw [blockPuts, List.filterMap_map, ← List.filterMap_eq_map]
  rfl

theorem blockPuts_headerRecords (body : Bytes) (first last : Nat) :
    (blockPuts cache hashKey body first last).filterMap Put.headerRecord = [] := by
  rw [blockPuts, List.filterMap_map, List.filterMap_eq_nil_iff]
  intro index _
  rfl

theorem headerMap_blockPuts (store : Store) (body : Bytes) (first last : Nat) :
    (store.applyAll (blockPuts cache hashKey body first last)).headerMap = store.headerMap := by
  rw [Store.headerMap_applyAll, blockPuts_headerRecords, KeyedMap.writeAll_nil]

theorem bodyMap_blockPuts (store : Store) (body : Bytes) (last index : Nat)
    (inside : index < last) (few : last ≤ 2 ^ 31) :
    (store.applyAll (blockPuts cache hashKey body 0 last)).bodyMap (cache.bodyKey hashKey index) =
      some ⟨Segments.block cache.partition index body⟩ := by
  rw [Store.bodyMap_applyAll, blockPuts_bodyRecords]
  apply KeyedMap.writeAll_of_agree
  · intro record member same
    rcases List.mem_map.mp member with ⟨other, otherMember, rfl⟩
    rcases List.mem_range'.mp otherMember with ⟨offset, bound, rfl⟩
    rw [orderKey_eq_bodyKey cache hashKey _ (by omega)] at same
    rw [cache.bodyKey_injective hashKey same]
  · refine ⟨_, List.mem_map.mpr ⟨index, ?_, rfl⟩, orderKey_eq_bodyKey cache hashKey _ (by omega)⟩
    exact List.mem_range'.mpr ⟨index, by omega, by omega⟩

theorem bodyMap_blockPuts_of_ne (store : Store) (body : Bytes) (last : Nat)
    (key : String × String) (outside : ∀ index < last, key ≠ cache.orderKey hashKey index) :
    (store.applyAll (blockPuts cache hashKey body 0 last)).bodyMap key = store.bodyMap key := by
  rw [Store.bodyMap_applyAll, blockPuts_bodyRecords]
  apply KeyedMap.writeAll_of_forall_ne
  intro record member same
  rcases List.mem_map.mp member with ⟨other, otherMember, rfl⟩
  rcases List.mem_range'.mp otherMember with ⟨offset, bound, rfl⟩
  exact outside _ (by omega) same.symm

theorem headerMap_headerPut (store : Store) (headers : HeaderMapImpl) (size : Nat) :
    (store.apply (headerPut cache hashKey headers size)).headerMap (cache.headerKey hashKey) =
      some ⟨some headers, UInt64.ofNat size⟩ :=
  KeyedMap.write_self store.headerMap (cache.headerKey hashKey, _)

theorem headerMap_headerPut_of_ne (store : Store) (headers : HeaderMapImpl) (size : Nat)
    (key : String × Int64) (other : key ≠ cache.headerKey hashKey) :
    (store.apply (headerPut cache hashKey headers size)).headerMap key = store.headerMap key :=
  KeyedMap.write_of_ne store.headerMap (cache.headerKey hashKey, _) key other.symm

theorem Insert.body_mem_log (insert : Insert) (index : Nat) (entry : HazelcastBodyEntry)
    (few : insert.body.length / cache.partition + 1 < 2 ^ 31)
    (member : .body (cache.bodyKey hashKey index) entry ∈ insert.log cache hashKey) :
    entry = ⟨Segments.block cache.partition index insert.body⟩ := by
  have count := insert.partitions_le cache
  rcases (insert.mem_log cache hashKey _).mp member with ⟨order, bound, same⟩ | same
  · rcases Put.body.inj same with ⟨keys, rfl⟩
    have key : cache.bodyKey hashKey index = cache.bodyKey hashKey order :=
      keys.trans (orderKey_eq_bodyKey cache hashKey order (by omega))
    rw [cache.bodyKey_injective hashKey key]
  · cases same

theorem Insert.header_mem_log (insert : Insert) (key : String × Int64)
    (entry : HazelcastHeaderEntry) (member : .header key entry ∈ insert.log cache hashKey) :
    key = cache.headerKey hashKey ∧
      entry = ⟨some insert.headers, UInt64.ofNat insert.body.length⟩ := by
  rcases (insert.mem_log cache hashKey _).mp member with ⟨order, bound, same⟩ | same
  · cases same
  · exact Put.header.inj same

theorem Insert.headerMap_log (insert : Insert) (store : Store) :
    (store.applyAll (insert.log cache hashKey)).headerMap (cache.headerKey hashKey) =
      some ⟨some insert.headers, UInt64.ofNat insert.body.length⟩ := by
  rw [Insert.log, Store.applyAll_append, Store.applyAll_cons, Store.applyAll_nil]
  exact headerMap_headerPut cache hashKey _ insert.headers insert.body.length

/-- The abstract content of the cache for one hash: a response, laid out over the maps. -/
structure Holds (store : Store) (headers : HeaderMapImpl) (body : Bytes) : Prop where
  header : store.headerMap (cache.headerKey hashKey) =
    some ⟨some headers, UInt64.ofNat body.length⟩
  partitions : ∀ index, index * cache.partition < body.length →
    store.bodyMap (cache.bodyKey hashKey index) =
      some ⟨Segments.block cache.partition index body⟩

theorem index_le_of_mul_lt (index size : Nat) (inside : index * cache.partition < size) :
    index ≤ size / cache.partition :=
  (Nat.le_div_iff_mul_le cache.partition_pos).mpr (Nat.le_of_lt inside)

theorem length_le_partitions (size : Nat) :
    size ≤ (size / cache.partition + 1) * cache.partition := by
  rw [Nat.mul_comm]
  exact Nat.le_of_lt (Nat.lt_mul_div_succ size cache.partition_pos)

theorem holds_responsePuts (store : Store) (headers : HeaderMapImpl) (body : Bytes)
    (few : body.length / cache.partition + 1 < 2 ^ 31) :
    Holds cache hashKey (store.applyAll (responsePuts cache hashKey headers body))
      headers body := by
  rw [responsePuts, Store.applyAll_append]
  constructor
  · exact headerMap_headerPut cache hashKey _ headers body.length
  · intro index inside
    have bound := index_le_of_mul_lt cache index body.length inside
    exact bodyMap_blockPuts cache hashKey store body _ index (by omega) (by omega)

/-- The maps after a complete insert. -/
def Insert.run (insert : Insert) (cache : HazelcastHttpCache) (hashKey : UInt64)
    (store : Store) : Except Fault Store :=
  (insert.puts cache hashKey).map store.applyAll

theorem Insert.run_chunked (insert : Insert) (store : Store) (chunked : insert.chunks ≠ []) :
    insert.run cache hashKey store =
      .ok (store.applyAll (responsePuts cache hashKey insert.headers insert.body)) := by
  rw [Insert.run, Insert.puts_eq, if_neg chunked]
  rfl

theorem Insert.run_holds (insert : Insert) (store : Store)
    (few : insert.body.length / cache.partition + 1 < 2 ^ 31) :
    ∃ final, insert.run cache hashKey store = .ok final ∧
      Holds cache hashKey final insert.headers insert.body := by
  refine ⟨store.applyAll (insert.log cache hashKey), ?_, insert.headerMap_log cache hashKey store,
    fun index inside => ?_⟩
  · rw [Insert.run, Insert.puts_eq_log]
    rfl
  · have count := insert.partitions_le cache
    rw [Insert.log, Store.applyAll_append]
    exact bodyMap_blockPuts cache hashKey store insert.body _ index
      (insert.lt_partitions cache index inside) (by omega)

def Insert.single (headers : HeaderMapImpl) (body : Buffer) : Insert where
  headers := headers
  chunks := [body]
  size_lt := by simpa using body.length_lt

theorem Insert.single_body (headers : HeaderMapImpl) (body : Buffer) :
    (Insert.single headers body).body = body.bytes := by
  simp [Insert.single, Insert.body]

/-- The maps after an insert do not depend on how the body was cut into chunks: they are
those after a single call with the whole body, and nothing but the partitions up to
`n / P` and the header of this hash changes. -/
theorem insert_independent_of_chunking (cache : HazelcastHttpCache) (hashKey : UInt64)
    (store : Store) (insert : Insert) (body : Buffer) (chunked : insert.chunks ≠ [])
    (whole : insert.body = body.bytes)
    (few : body.bytes.length / cache.partition + 1 < 2 ^ 31) :
    ∃ final, insert.run cache hashKey store = .ok final ∧
      (Insert.single insert.headers body).run cache hashKey store = .ok final ∧
      (∀ index, index * cache.partition < body.bytes.length →
        final.bodyMap (cache.bodyKey hashKey index) =
          some ⟨body.bytes.extract (index * cache.partition)
            (min ((index + 1) * cache.partition) body.bytes.length)⟩) ∧
      final.headerMap (cache.headerKey hashKey) = some ⟨some insert.headers, body.length⟩ ∧
      (∀ key, (∀ index ≤ body.bytes.length / cache.partition, key ≠ cache.bodyKey hashKey index) →
        final.bodyMap key = store.bodyMap key) ∧
      (∀ key, key ≠ cache.headerKey hashKey → final.headerMap key = store.headerMap key) := by
  have holds := holds_responsePuts cache hashKey store insert.headers body.bytes few
  refine ⟨store.applyAll (responsePuts cache hashKey insert.headers body.bytes),
    ?_, ?_, ?_, holds.header, ?_, ?_⟩
  · rw [insert.run_chunked cache hashKey store chunked, whole]
  · rw [Insert.run_chunked cache hashKey _ store (by simp [Insert.single]), Insert.single_body]
    rfl
  · intro index inside
    rw [holds.partitions index inside, Segments.block_eq_extract_min]
  · intro key outside
    rw [responsePuts, Store.applyAll_append]
    apply bodyMap_blockPuts_of_ne cache hashKey store
    intro index bound
    rw [orderKey_eq_bodyKey cache hashKey index (by omega)]
    exact outside index (by omega)
  · intro key other
    rw [responsePuts, Store.applyAll_append, ← headerMap_blockPuts cache hashKey store body.bytes 0
      (body.bytes.length / cache.partition + 1)]
    exact headerMap_headerPut_of_ne cache hashKey _ insert.headers _ key other

theorem insert_independent_of_chunking_streaming :
    let cache : HazelcastHttpCache := ⟨{ bodyPartitionSize := 4 }⟩
    let insert : Insert := ⟨[], [⟨[72, 101, 108], by decide⟩, ⟨[108, 111, 33], by decide⟩], by decide⟩
    let body : Buffer := ⟨[72, 101, 108, 108, 111, 33], by decide⟩
    ∃ final, insert.run cache 17 Store.empty = .ok final ∧
      (Insert.single [] body).run cache 17 Store.empty = .ok final ∧
      final.bodyMap ("", "171") = some ⟨[111, 33]⟩ := by
  intro cache insert body
  rcases insert_independent_of_chunking cache 17
    Store.empty insert body (by decide) rfl (by decide) with
    ⟨final, streamed, single, partitions, _⟩
  exact ⟨final, streamed, single, partitions 1 (by decide)⟩

end HazelcastCache
