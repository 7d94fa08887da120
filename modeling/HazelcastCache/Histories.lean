import HazelcastCache.Library.SegmentedCache
import HazelcastCache.Maps
import HazelcastCache.Reading

/-! Histories of complete operations on one cache, against the segmented cache they implement. -/

namespace HazelcastCache

open Library SegmentedCache

/-- What happens to the cache and its maps, one after the other. A lookup is read to its end. -/
inductive CacheEvent where
  | insert (hashKey : UInt64) (insert : Insert)
  | evictHeader (hashKey : UInt64)
  | evictBody (hashKey : UInt64) (index : Nat)
  | clearMaps
  | lookup (hashKey : UInt64)

def HazelcastLookupContext.gets (context : HazelcastLookupContext) (store : Store) : Nat :=
  match (context.getHeaders store).2 with
  | none => 1
  | some (_, total) => total.toNat / context.hzCache.partition + 2

/-- `getHeaders` and then the caller's loop, with no other activity. -/
def HazelcastLookupContext.read (context : HazelcastLookupContext) (store : Store) : Reader :=
  (Reader.step context store)^[context.gets store] .idle

variable (cache : HazelcastHttpCache)

/-- The results of the lookups of a history. -/
def observe : Store → List CacheEvent → Except Fault (List Reader)
  | _, [] => .ok []
  | store, .insert hashKey insert :: events => do
      let store ← insert.run cache hashKey store
      observe store events
  | store, .evictHeader hashKey :: events =>
      observe (store.evictHeader (cache.headerKey hashKey)) events
  | store, .evictBody hashKey index :: events =>
      observe (store.evictBody (cache.bodyKey hashKey index)) events
  | store, .clearMaps :: events => observe (Runs.run Store.perform store cache.clearMaps) events
  | store, .lookup hashKey :: events => do
      let later ← observe store events
      .ok ((HazelcastLookupContext.read ⟨cache, hashKey, none⟩ store) :: later)

/-- What an event means for the segmented cache: the segments are the partitions. -/
def CacheEvent.meaning : CacheEvent → Event UInt64 (HeaderMapImpl × UInt64) Bytes
  | .insert hashKey response => .store hashKey
      (response.headers, UInt64.ofNat response.body.length)
      (Segments.blocks cache.partition response.body)
  | .evictHeader hashKey => .drop hashKey
  | .evictBody hashKey index => .lose hashKey index
  | .clearMaps => .clear
  | .lookup hashKey => .ask hashKey

def readerOf : Answer (HeaderMapImpl × UInt64) Bytes → Reader
  | .absent => .missed
  | .whole info segments => .complete (some info.1) info.2 segments.flatten
  | .cut info front => .aborted (some info.1) info.2 front.flatten

/-- The maps hold this item under the hash: its header, and all partitions but the lost. -/
structure HoldsItem (hashKey : UInt64) (store : Store)
    (item : Item (HeaderMapImpl × UInt64) Bytes) (body : Bytes) : Prop where
  bounded : body.length < 2 ^ 64
  size : item.info.2 = UInt64.ofNat body.length
  segments : item.segments = Segments.blocks cache.partition body
  header : store.headerMap (cache.headerKey hashKey) =
    some ⟨some item.info.1, UInt64.ofNat body.length⟩
  partitions : ∀ index, index * cache.partition < body.length →
    store.bodyMap (cache.bodyKey hashKey index) =
      if item.lost index then none else some ⟨Segments.block cache.partition index body⟩

def HoldsState (hashKey : UInt64) (store : Store) :
    Option (Item (HeaderMapImpl × UInt64) Bytes) → Prop
  | none => store.headerMap (cache.headerKey hashKey) = none
  | some item => ∃ body, HoldsItem cache hashKey store item body

/-- Hashes whose partitions never share a key. -/
def HazelcastHttpCache.Apart (hashes : Set UInt64) : Prop :=
  ∀ first ∈ hashes, ∀ second ∈ hashes, first ≠ second → ∀ index position,
    cache.bodyKey first index ≠ cache.bodyKey second position

theorem HazelcastHttpCache.apart_of_digitCount (hashes : Set UInt64) (width : Nat)
    (same : ∀ hashKey ∈ hashes, Decimal.digitCount hashKey.toNat = width) :
    cache.Apart hashes := by
  intro first here second there different index position keys
  refine Decimal.toString_append_ne_of_digitCount_eq first.toNat index second.toNat position ?_ ?_
    (Prod.mk.inj keys).2
  · exact fun numbers => different (UInt64.toNat_inj.mp numbers)
  · rw [same first here, same second there]

section Lookup

variable {cache} {hashKey : UInt64} {store : Store}

theorem Reader.step_iterate_finished (context : HazelcastLookupContext) (reader : Reader)
    (finished : reader.Finished) (count : Nat) :
    (Reader.step context store)^[count] reader = reader := by
  apply Function.iterate_fixed
  cases reader with
  | idle => exact finished.elim
  | reading headers total delivered => exact finished.elim
  | missed => rfl
  | complete headers total delivered => rfl
  | aborted headers total delivered => rfl
  | faulted fault => rfl

theorem HoldsItem.iterate {item : Item (HeaderMapImpl × UInt64) Bytes} {body : Bytes}
    (holds : HoldsItem cache hashKey store item body) (index : Nat) (intact : index ≤ item.intact) :
    (Reader.step ⟨cache, hashKey, none⟩ store)^[index + 1] .idle =
      Reader.upTo cache.partition item.info.1 body index := by
  induction index with
  | zero => exact Reader.step_idle ⟨cache, hashKey, none⟩ store _ body holds.bounded holds.header
  | succ index ih =>
      have present := item.lost_of_lt_intact index intact
      have bound := item.intact_le
      have inside : index * cache.partition < body.length := by
        rw [← Segments.lt_length_blocks_iff _ _ _ cache.partition_pos, ← holds.segments]
        omega
      have found := holds.partitions index inside
      rw [present, if_neg (by decide)] at found
      rw [Function.iterate_succ_apply', ih (by omega)]
      exact Reader.step_upTo ⟨cache, hashKey, none⟩ store _ body holds.bounded index inside _ found
        (serves_block _ _ index)

theorem HoldsItem.iterate_end {item : Item (HeaderMapImpl × UInt64) Bytes} {body : Bytes}
    (holds : HoldsItem cache hashKey store item body) (gets : Nat)
    (enough : body.length / cache.partition + 2 ≤ gets) :
    (Reader.step ⟨cache, hashKey, none⟩ store)^[gets] .idle = readerOf item.answer := by
  have walked := holds.iterate item.intact (Nat.le_refl _)
  have front := Segments.flatten_take_blocks cache.partition item.intact body
    (by rw [← holds.segments]; exact item.intact_le)
  have count : item.segments.length ≤ body.length / cache.partition + 1 := by
    rw [holds.segments, Segments.blocks, List.length_map, List.length_range,
      Segments.ceil_eq _ _ cache.partition_pos]
    split <;> omega
  have bound := item.intact_le
  rw [Item.answer]
  by_cases whole : item.intact = item.segments.length
  · have covered : body.length ≤ item.intact * cache.partition := by
      rw [whole, holds.segments]
      exact Segments.length_le_blocks _ body cache.partition_pos
    obtain ⟨rest, rfl⟩ : ∃ rest, gets = rest + (item.intact + 1) :=
      ⟨gets - (item.intact + 1), by omega⟩
    rw [Function.iterate_add_apply, walked, Reader.upTo_of_le _ _ _ _ covered,
      Reader.step_iterate_finished _ (.complete _ _ _) trivial, if_pos whole, readerOf, holds.size,
      holds.segments, Segments.flatten_blocks _ body cache.partition_pos]
  · have cut : item.intact < item.segments.length := Nat.lt_of_le_of_ne bound whole
    have inside : item.intact * cache.partition < body.length := by
      rwa [← Segments.lt_length_blocks_iff _ _ _ cache.partition_pos, ← holds.segments]
    have missing := holds.partitions item.intact inside
    rw [item.lost_intact cut, if_pos rfl] at missing
    obtain ⟨rest, rfl⟩ : ∃ rest, gets = rest + (item.intact + 1 + 1) :=
      ⟨gets - (item.intact + 1 + 1), by omega⟩
    rw [Function.iterate_add_apply, Function.iterate_succ_apply', walked,
      Reader.step_upTo_missing ⟨cache, hashKey, none⟩ store _ body holds.bounded _ inside missing,
      Reader.step_iterate_finished _ (.aborted _ _ _) trivial, if_neg whole, readerOf, holds.size,
      holds.segments, front]

theorem HoldsState.read {state : SegmentedCache.Cache UInt64 (HeaderMapImpl × UInt64) Bytes}
    (holds : HoldsState cache hashKey store (state hashKey)) :
    HazelcastLookupContext.read ⟨cache, hashKey, none⟩ store = readerOf (state.answer hashKey) := by
  unfold HazelcastLookupContext.read HazelcastLookupContext.gets SegmentedCache.Cache.answer
  cases found : state hashKey with
  | none =>
      rw [found] at holds
      have missing : store.headerMap (cache.headerKey hashKey) = none := holds
      rw [HazelcastLookupContext.getHeaders_result, missing]
      change Reader.idle.step _ store = _
      simp [Reader.step, HazelcastLookupContext.getHeaders_result, missing, readerOf]
  | some item =>
      rw [found] at holds
      obtain ⟨body, holds⟩ := holds
      have total : (UInt64.ofNat body.length).toNat = body.length :=
        UInt64.toNat_ofNat_of_lt' holds.bounded
      rw [HazelcastLookupContext.getHeaders_result, holds.header]
      apply holds.iterate_end
      change _ ≤ (UInt64.ofNat body.length).toNat / cache.partition + 2
      rw [total]

end Lookup

section Steps

variable {cache} {hashKey : UInt64} {store : Store}
  {state : Option (Item (HeaderMapImpl × UInt64) Bytes)}

theorem HoldsState.congr (holds : HoldsState cache hashKey store state) (other : Store)
    (header : other.headerMap (cache.headerKey hashKey) =
      store.headerMap (cache.headerKey hashKey))
    (bodies : ∀ index, other.bodyMap (cache.bodyKey hashKey index) =
      store.bodyMap (cache.bodyKey hashKey index)) :
    HoldsState cache hashKey other state := by
  cases state with
  | none => exact header.trans holds
  | some item =>
      obtain ⟨body, holds⟩ := holds
      exact ⟨body, holds.bounded, holds.size, holds.segments, header.trans holds.header,
        fun index inside => (bodies index).trans (holds.partitions index inside)⟩

end Steps

def Mirrored (hashes : Set UInt64) (store : Store)
    (state : SegmentedCache.Cache UInt64 (HeaderMapImpl × UInt64) Bytes) : Prop :=
  ∀ hashKey ∈ hashes, HoldsState cache hashKey store (state hashKey)

theorem mirrored_clearMaps (hashes : Set UInt64) (store : Store)
    (state : SegmentedCache.Cache UInt64 (HeaderMapImpl × UInt64) Bytes) :
    Mirrored cache hashes (Runs.run Store.perform store cache.clearMaps)
      (state.step .clear) := by
  intro other member
  change Store.headerMap _ _ = none
  simp [HazelcastHttpCache.clearMaps, Store.perform, Store.clear, HazelcastHttpCache.headerKey]

section Events

variable {cache} {hashes : Set UInt64} (apart : cache.Apart hashes) {store : Store}
  {state : SegmentedCache.Cache UInt64 (HeaderMapImpl × UInt64) Bytes}
  (mirrored : Mirrored cache hashes store state)

include mirrored

theorem Mirrored.evictHeader (hashKey : UInt64) :
    Mirrored cache hashes (store.evictHeader (cache.headerKey hashKey))
      (state.step (.drop hashKey)) := by
  intro other member
  simp only [Cache.step]
  by_cases same : other = hashKey
  · subst same
    rw [Function.update_self]
    exact KeyedMap.remove_self store.headerMap _
  · rw [Function.update_of_ne same]
    exact (mirrored other member).congr _ (KeyedMap.remove_of_ne store.headerMap _ _
      (fun keys => same (cache.headerKey_injective keys).symm)) (fun _ => rfl)

include apart

theorem Mirrored.evictBody (hashKey : UInt64) (here : hashKey ∈ hashes) (index : Nat) :
    Mirrored cache hashes (store.evictBody (cache.bodyKey hashKey index))
      (state.step (.lose hashKey index)) := by
  intro other member
  simp only [Cache.step]
  by_cases same : other = hashKey
  · subst same
    rw [Function.update_self]
    have holds := mirrored other member
    cases found : state other with
    | none =>
        rw [found] at holds
        exact holds
    | some item =>
        rw [found] at holds
        obtain ⟨body, holds⟩ := holds
        refine ⟨body, holds.bounded, holds.size, holds.segments, holds.header, ?_⟩
        intro position inside
        by_cases lost : position = index
        · subst lost
          simp [Store.evictBody]
        · have keys : cache.bodyKey other index ≠ cache.bodyKey other position :=
            fun alike => lost (cache.bodyKey_injective other alike).symm
          simpa [Store.evictBody, KeyedMap.remove_of_ne _ _ _ keys, Function.update_of_ne lost]
            using holds.partitions position inside
  · rw [Function.update_of_ne same]
    exact (mirrored other member).congr _ rfl (fun position => KeyedMap.remove_of_ne store.bodyMap _
      _ (apart hashKey here other member (Ne.symm same) index position))

theorem Mirrored.insert (hashKey : UInt64) (here : hashKey ∈ hashes) (response : Insert)
    (few : response.body.length / cache.partition + 1 < 2 ^ 31) :
    ∃ final, response.run cache hashKey store = .ok final ∧
      Mirrored cache hashes final
        (state.step (CacheEvent.meaning cache (.insert hashKey response))) := by
  obtain ⟨final, ran, holds⟩ := response.run_holds cache hashKey store few
  refine ⟨final, ran, ?_⟩
  have log : final = store.applyAll (response.log cache hashKey) := by
    rw [Insert.run, Insert.puts_eq_log] at ran
    exact (Except.ok.inj ran).symm
  intro other member
  simp only [Cache.step, CacheEvent.meaning]
  by_cases same : other = hashKey
  · subst same
    rw [Function.update_self]
    exact ⟨response.body, response.size_lt, rfl, rfl, holds.header, fun index inside => by
      simpa using holds.partitions index inside⟩
  · rw [Function.update_of_ne same, log]
    apply (mirrored other member).congr
    · apply Store.headerMap_applyAll_of_notMem
      intro entry written
      have key := (response.header_mem_log cache hashKey _ entry written).1
      exact same (cache.headerKey_injective key)
    · intro position
      apply Store.bodyMap_applyAll_of_notMem
      intro entry written
      have count := response.partitions_le cache
      rcases (response.mem_log cache hashKey _).mp written with ⟨order, bound, put⟩ | put
      · have key := (Put.body.inj put).1.trans
          (orderKey_eq_bodyKey cache hashKey order (by omega))
        exact apart hashKey here other member (Ne.symm same) order position key.symm
      · cases put

end Events

/-- The event is about one of these hashes, and the response of an insert has fewer than `2^31`
partitions. -/
def CacheEvent.Within (hashes : Set UInt64) : CacheEvent → Prop
  | .insert hashKey response =>
      hashKey ∈ hashes ∧ response.body.length / cache.partition + 1 < 2 ^ 31
  | .evictHeader hashKey => hashKey ∈ hashes
  | .evictBody hashKey _ => hashKey ∈ hashes
  | .clearMaps => True
  | .lookup hashKey => hashKey ∈ hashes

theorem observe_mirrored (hashes : Set UInt64) (apart : cache.Apart hashes)
    (events : List CacheEvent) (within : ∀ event ∈ events, event.Within cache hashes)
    (store : Store) (state : SegmentedCache.Cache UInt64 (HeaderMapImpl × UInt64) Bytes)
    (mirrored : Mirrored cache hashes store state) :
    observe cache store events =
      .ok ((state.answers (events.map (CacheEvent.meaning cache))).map readerOf) := by
  induction events generalizing store state with
  | nil => rfl
  | cons event events ih =>
      have later := ih (fun next member => within next (List.mem_cons_of_mem _ member))
      have now := within event List.mem_cons_self
      cases event with
      | insert hashKey response =>
          obtain ⟨final, ran, kept⟩ := mirrored.insert apart hashKey now.1 response now.2
          rw [observe, ran]
          exact later final _ kept
      | evictHeader hashKey => exact later _ _ (mirrored.evictHeader hashKey)
      | evictBody hashKey index => exact later _ _ (mirrored.evictBody apart hashKey now index)
      | clearMaps => exact later _ _ (mirrored_clearMaps cache hashes store state)
      | lookup hashKey =>
          rw [observe, later store state mirrored, (mirrored hashKey now).read]
          rfl

/-- The cache implements the segmented cache. For hashes whose partitions never share a key,
and from maps without a header under any of them, every history of complete inserts, evictions
of single entries, `clearMaps` calls and lookups runs without a fault, and each lookup sees
exactly what the segmented cache answers: the response inserted last, the part of it before
the first evicted partition, or a miss after its header was evicted or cleared. -/
theorem histories_refine_segmented_cache (cache : HazelcastHttpCache) (hashes : Set UInt64)
    (apart : cache.Apart hashes) (store : Store)
    (absent : ∀ hashKey ∈ hashes, store.headerMap (cache.headerKey hashKey) = none)
    (events : List CacheEvent) (within : ∀ event ∈ events, event.Within cache hashes) :
    observe cache store events =
      .ok ((SegmentedCache.Cache.answers (fun _ => none)
        (events.map (CacheEvent.meaning cache))).map readerOf) :=
  observe_mirrored cache hashes apart events within store (fun _ => none) absent

theorem histories_refine_segmented_cache_evicted :
    let cache : HazelcastHttpCache := ⟨{ bodyPartitionSize := 2 }⟩
    observe cache Store.empty
        [.insert 17 (Insert.single [] ⟨[1, 2, 3], by decide⟩),
          .insert 42 (Insert.single [] ⟨[9], by decide⟩), .evictBody 17 1, .lookup 17, .lookup 42,
          .clearMaps, .lookup 42] =
      .ok [.aborted (some []) 3 [1, 2], .complete (some []) 1 [9], .missed] := by
  intro cache
  have apart : cache.Apart {17, 42} := by
    apply cache.apart_of_digitCount _ 2
    intro hashKey member
    rcases member with rfl | rfl
    · decide
    · decide
  refine (histories_refine_segmented_cache cache {17, 42} apart Store.empty (fun _ _ => rfl) _
    ?_).trans ?_
  · simp [CacheEvent.Within]
    decide
  · decide

end HazelcastCache
