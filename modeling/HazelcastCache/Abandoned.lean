import HazelcastCache.Concurrent

/-! An insert over a cached response that stops before its header put. -/

namespace HazelcastCache

open Library

section Overwritten

variable (cache : HazelcastHttpCache) (oldBody newBody : Bytes) (steps : Nat)
  (covered : min (steps * cache.partition) oldBody.length ≤ newBody.length)
  (reach : steps * cache.partition ≤ newBody.length ∨ oldBody.length ≤ 2 ^ 63)
  (bounded : newBody.length < 2 ^ 64)

include covered reach bounded in
theorem serves_overlay (index : Nat) (early : index < steps)
    (inside : index * cache.partition < oldBody.length) :
    Serves cache.partition (Segments.overlay (steps * cache.partition) newBody oldBody) index
      (Segments.block cache.partition index newBody) := by
  have border : (index + 1) * cache.partition ≤ steps * cache.partition :=
    Nat.mul_le_mul_right _ early
  have next : (index + 1) * cache.partition = index * cache.partition + cache.partition :=
    Nat.succ_mul _ _
  have size := Segments.length_overlay (steps * cache.partition) newBody oldBody covered
  constructor
  · intro full
    rw [size] at full
    rw [Segments.block_eq_take_drop, Segments.block_eq_take_drop,
      Segments.take_drop_overlay _ _ _ _ _ covered (by omega) (by omega)]
  · intro short
    rw [size] at short ⊢
    constructor
    · rw [Segments.block_eq_take_drop, List.take_take, Nat.min_eq_left (by omega),
        ← Segments.take_drop_overlay (steps * cache.partition) _ _ newBody oldBody covered
          (by omega) (by omega), List.take_of_length_le]
      rw [List.length_drop, size]
    · left
      rcases reach with full | small
      · omega
      · exact cache.border_lt index (by omega)

variable (hashKey : UInt64) (store : Store) (headers : HeaderMapImpl)
  (holds : Holds cache hashKey store headers oldBody) (few : steps ≤ 2 ^ 31)

include holds few

theorem bodyMap_not_overwritten (index : Nat) (late : steps ≤ index)
    (inside : index * cache.partition < oldBody.length) :
    (store.applyAll (blockPuts cache hashKey newBody 0 steps)).bodyMap
      (cache.bodyKey hashKey index) = some ⟨Segments.block cache.partition index oldBody⟩ := by
  rw [bodyMap_blockPuts_of_ne, holds.partitions index inside]
  intro order bound same
  rw [orderKey_eq_bodyKey cache hashKey order (by omega)] at same
  have := cache.bodyKey_injective hashKey same
  omega

include covered reach bounded

theorem serving_overlay :
    Serving cache hashKey (store.applyAll (blockPuts cache hashKey newBody 0 steps)) headers
      (Segments.overlay (steps * cache.partition) newBody oldBody) where
  header := by
    rw [headerMap_blockPuts, Segments.length_overlay _ _ _ covered]
    exact holds.header
  partitions index inside := by
    rw [Segments.length_overlay _ _ _ covered] at inside
    rcases Nat.lt_or_ge index steps with early | late
    · exact ⟨_, bodyMap_blockPuts cache hashKey store newBody steps index early few,
        serves_overlay cache oldBody newBody steps covered reach bounded index early inside⟩
    · refine ⟨_, bodyMap_not_overwritten cache oldBody newBody steps hashKey store headers holds few
        index late inside, ?_⟩
      have rest := Segments.drop_overlay (steps * cache.partition) (index * cache.partition) newBody
        oldBody covered (Nat.mul_le_mul_right _ late)
      have same : Segments.block cache.partition index oldBody = Segments.block cache.partition
          index (Segments.overlay (steps * cache.partition) newBody oldBody) := by
        calc
          Segments.block cache.partition index oldBody =
              (oldBody.drop (index * cache.partition)).take cache.partition :=
            Segments.block_eq_take_drop _ _ _
          _ = ((Segments.overlay (steps * cache.partition) newBody oldBody).drop
              (index * cache.partition)).take cache.partition := by rw [rest]
          _ = Segments.block cache.partition index
              (Segments.overlay (steps * cache.partition) newBody oldBody) :=
            (Segments.block_eq_take_drop _ _ _).symm
      rw [same]
      exact serves_block _ _ index

end Overwritten

/-- The response already cached, and the one whose insert is given up. -/
def oldAndNew (old new : Insert) : Bool → Insert
  | false => old
  | true => new

section Lookup

variable (context : HazelcastLookupContext) (store : Store) (old new : Insert)
  (holds : Holds context.hzCache context.hashKey store old.headers old.body) (steps : Nat)

include holds

theorem header_after_abandoned :
    (store.applyAll (blockPuts context.hzCache context.hashKey new.body 0 steps)).headerMap
      (context.hzCache.headerKey context.hashKey) =
        some ⟨some old.headers, UInt64.ofNat old.body.length⟩ := by
  rw [headerMap_blockPuts]
  exact holds.header

theorem lookup_after_abandoned (few : steps ≤ 2 ^ 31) (gets : Nat) :
    Reader.Sourced (oldAndNew old new) false ((Reader.step context (store.applyAll
      (blockPuts context.hzCache context.hashKey new.body 0 steps)))^[gets + 1] .idle) := by
  induction gets with
  | zero =>
      have header := header_after_abandoned context store old new holds steps
      have nothing : Patched (oldAndNew old new) [] :=
        fun position inside => absurd inside (Nat.not_lt_zero _)
      rw [Function.iterate_one, Reader.step_idle context _ old.headers old.body old.size_lt header,
        ← Reader.resume_take context old.headers old.body old.size_lt 0, Nat.zero_mul,
        List.take_zero]
      exact .resume (oldAndNew old new) false [] nothing
  | succ gets ih =>
      rw [Function.iterate_succ_apply']
      apply ih.step
      intro index inside
      rcases Nat.lt_or_ge index steps with early | late
      · exact ⟨true, bodyMap_blockPuts context.hzCache context.hashKey store new.body steps index
          early few⟩
      · exact ⟨false, bodyMap_not_overwritten context.hzCache old.body new.body steps
          context.hashKey store old.headers holds few index late inside⟩

end Lookup

/-- An insert over a cached response writes over it in place. If it stops before its header
put, a lookup still returns the old headers and size, and is given bytes of the two bodies as
long as no call reads beyond the partition it has found. Where all partitions it has put are
full, or its body is no shorter than the old one, no call does: the lookup comes to an end with
the bytes put so far in front of the rest of the old body. -/
theorem abandoned_overwrite_shows_through (context : HazelcastLookupContext) (prior : Store)
    (old new : Insert) (fewOld : old.body.length / context.hzCache.partition + 1 < 2 ^ 31)
    (fewNew : new.body.length / context.hzCache.partition + 1 < 2 ^ 31) (steps : Nat) :
    ∃ store newPuts, old.run context.hzCache context.hashKey prior = .ok store ∧
      new.puts context.hzCache context.hashKey = .ok newPuts ∧
      (steps < newPuts.length →
        let left := store.applyAll (newPuts.take steps)
        let delivered := Segments.overlay (steps * context.hzCache.partition) new.body old.body
        (context.getHeaders left).2 = some (some old.headers, UInt64.ofNat old.body.length) ∧
        (∀ gets, Reader.Sourced (oldAndNew old new) false
          ((Reader.step context left)^[gets + 1] .idle)) ∧
        (steps * context.hzCache.partition ≤ new.body.length ∨
            old.body.length ≤ new.body.length ∧ old.body.length ≤ 2 ^ 63 →
          (Reader.step context left)^[old.body.length / context.hzCache.partition + 2] .idle =
            .complete (some old.headers) (UInt64.ofNat old.body.length) delivered) ∧
        (delivered = old.body ↔
          new.body.take (min (steps * context.hzCache.partition) old.body.length) =
            old.body.take (steps * context.hzCache.partition))) := by
  rcases old.run_holds context.hzCache context.hashKey prior fewOld with ⟨store, stored, holds⟩
  refine ⟨store, _, stored, new.puts_eq_log context.hzCache context.hashKey, ?_⟩
  intro stopped left delivered
  have count := new.partitions_le context.hzCache
  rw [Insert.log_length, Nat.lt_succ_iff] at stopped
  have few : steps ≤ 2 ^ 31 := by omega
  have stoppedLog : left = store.applyAll
      (blockPuts context.hzCache context.hashKey new.body 0 steps) := by
    rw [← new.log_take context.hzCache context.hashKey steps stopped]
  rw [stoppedLog]
  refine ⟨?_, lookup_after_abandoned context store old new holds steps few, ?_,
    Segments.overlay_eq_self_iff _ _ _⟩
  · rw [HazelcastLookupContext.getHeaders_result,
      header_after_abandoned context store old new holds steps]
    rfl
  intro front
  have covered : min (steps * context.hzCache.partition) old.body.length ≤ new.body.length := by
    omega
  have size := Segments.length_overlay _ _ _ covered
  have read := (serving_overlay context.hzCache old.body new.body steps covered (by omega)
    new.size_lt context.hashKey store old.headers holds few).read (size ▸ old.size_lt)
  rwa [size] at read

theorem abandoned_overwrite_shows_through_once :
    let context : HazelcastLookupContext := ⟨⟨{ bodyPartitionSize := 1 }⟩, 17, none⟩
    let old : Insert := ⟨[⟨[65], [66]⟩], [⟨[1, 2], by decide⟩], by decide⟩
    let new : Insert := ⟨[], [⟨[3, 4], by decide⟩], by decide⟩
    ∃ store newPuts, old.run context.hzCache 17 Store.empty = .ok store ∧
      new.puts context.hzCache 17 = .ok newPuts ∧
      (Reader.step context (store.applyAll (newPuts.take 1)))^[4] .idle =
        .complete (some [⟨[65], [66]⟩]) 2 [3, 2] := by
  intro context old new
  rcases abandoned_overwrite_shows_through context
    Store.empty old new (by decide) (by decide) 1 with ⟨store, newPuts, stored, emitted, outcome⟩
  have length : (new.puts context.hzCache 17).map List.length = .ok 4 := by decide
  rw [emitted] at length
  refine ⟨store, newPuts, stored, emitted, ?_⟩
  have read := (outcome (by rw [Except.ok.inj length]; decide)).2.2.1 (by decide)
  have rounds : old.body.length / context.hzCache.partition + 2 = 4 := by decide
  have bytes : Segments.overlay (1 * context.hzCache.partition) new.body old.body = [3, 2] := by
    decide
  rw [rounds, bytes] at read
  exact read

/-- The loop ends with bytes of the abandoned response among those of the cached one. -/
theorem abandoned_overwrite_corrupts :
    let context : HazelcastLookupContext := ⟨⟨{ bodyPartitionSize := 1 }⟩, 17, none⟩
    let old : Insert := ⟨[⟨[65], [66]⟩], [⟨[1, 2], by decide⟩], by decide⟩
    let new : Insert := ⟨[], [⟨[3, 4], by decide⟩], by decide⟩
    ∃ store newPuts, old.run context.hzCache 17 Store.empty = .ok store ∧
      new.puts context.hzCache 17 = .ok newPuts ∧ 1 < newPuts.length ∧
      ∃ delivered, (Reader.step context (store.applyAll (newPuts.take 1)))^[3] .idle =
          .complete (some old.headers) 2 delivered ∧
        delivered ≠ old.body ∧ delivered = [3, 2] := by
  intro context old new
  refine ⟨_, _, old.run_chunked context.hzCache 17 Store.empty (by decide),
    new.puts_eq_log context.hzCache 17, ?_, [3, 2], ?_, ?_, rfl⟩
  · decide
  · decide
  · decide

end HazelcastCache
