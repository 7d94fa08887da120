import HazelcastCache.Layout

/-! The fields of an insert context while a body arrives, between the calls of `insertBody` and
inside its loop. -/

namespace HazelcastCache

open Library

namespace HazelcastInsertContext

def insertOpen (context : HazelcastInsertContext) :
    List Buffer → Except Fault (HazelcastInsertContext × List Put)
  | [] => .ok (context, [])
  | chunk :: chunks => do
      let (context, puts) ← context.insertBody chunk false
      let (context, later) ← insertOpen context chunks
      .ok (context, puts ++ later)

/-- What the fields say about each other between two calls, after the bytes `taken` have
arrived and the bytes `flushed` have been put. -/
structure Consistent (context : HazelcastInsertContext) (taken flushed : Bytes) : Prop where
  available_pos : 1 ≤ context.availableBufferBytes
  available_le : context.availableBufferBytes ≤ context.bodyPartitionSize
  buffer : context.bufferVector.length =
    context.bodyPartitionSize.toNat - context.availableBufferBytes.toNat
  total : (context.totalBodySize.toNat : Int) =
    context.bodyPartitionSize.toNat * context.bodyOrder.toInt
  bytes : flushed ++ context.bufferVector = taken

/-- The states in which the loop of `insertBody` tests its condition. -/
inductive LoopHead (chunk : Buffer) (start : HazelcastInsertContext) :
    HazelcastInsertContext → ChunkCursor → Prop
  | enter : LoopHead chunk start start ⟨0, chunk.length⟩
  | again {context next : HazelcastInsertContext} {cursor nextCursor : ChunkCursor}
      {puts : List Put} (head : LoopHead chunk start context cursor)
      (unfinished : cursor.remainingChunkSize ≠ 0)
      (iterated : context.insertBodyIteration chunk cursor = .ok (next, nextCursor, puts)) :
      LoopHead chunk start next nextCursor

/-- How much the next iteration copies, in either branch. -/
def copySize (context : HazelcastInsertContext) (cursor : ChunkCursor) : UInt64 :=
  if context.availableBufferBytes ≤ cursor.remainingChunkSize then context.availableBufferBytes
  else cursor.remainingChunkSize

/-- What an iteration of the loop relies on. The fields with `assert` in their names are the
three `ASSERT`s of the source. -/
structure SafeIteration (context : HazelcastInsertContext) (chunk : Buffer)
    (cursor : ChunkCursor) : Prop where
  covered : cursor.localChunkIndex.toNat + cursor.remainingChunkSize.toNat = chunk.bytes.length
  assert_index : cursor.localChunkIndex ≤ chunk.length
  assert_remaining : 0 < cursor.remainingChunkSize
  source : cursor.localChunkIndex.toNat + (context.copySize cursor).toNat ≤ chunk.bytes.length
  available_le : context.availableBufferBytes ≤ context.bodyPartitionSize
  offset : (context.bodyPartitionSize - context.availableBufferBytes).toNat =
    context.bufferVector.length
  destination : context.bufferVector.length + (context.copySize cursor).toNat =
    (resize context.bufferVector
      (UInt64.ofNat context.bufferVector.length + context.copySize cursor)).length
  assert_filled : context.availableBufferBytes ≤ cursor.remainingChunkSize →
    ∃ filled index, context.copyIntoLocalBuffer cursor.localChunkIndex
        context.availableBufferBytes chunk = .ok (filled, index) ∧
      filled.bufferVector.length = context.bodyPartitionSize.toNat
  remaining_le : context.copySize cursor ≤ cursor.remainingChunkSize
  room : context.copySize cursor ≤ context.availableBufferBytes
  progress : ∃ next nextCursor puts,
    context.insertBodyIteration chunk cursor = .ok (next, nextCursor, puts) ∧
      nextCursor.remainingChunkSize < cursor.remainingChunkSize

end HazelcastInsertContext

def flushedBytes (puts : List Put) : Bytes :=
  (puts.filterMap Put.bodyRecord).flatMap (fun record => record.2.bodyBuffer)

section Absorb

variable (cache : HazelcastHttpCache) (hashKey : UInt64) (header : HazelcastHeaderEntry)
  (taken : Bytes)

theorem flushedBytes_numberedPuts (order count : Nat) :
    flushedBytes (numberedPuts cache hashKey order taken 0 count) =
      taken.take (count * cache.partition) := by
  have entries : flushedBytes (numberedPuts cache hashKey order taken 0 count) =
      (List.range count).flatMap (fun index => Segments.block cache.partition index taken) := by
    simp [flushedBytes, numberedPuts, numberedPut, List.filterMap_map, List.range_eq_range',
      HazelcastHttpCache.insertBody, Put.bodyRecord, Function.comp_def, List.flatMap_map]
  rw [entries, Segments.flatMap_block]

theorem insertOpen_absorbed (chunks : List Buffer) :
    (absorbed cache hashKey 0 0 header taken).insertOpen chunks =
      let arrived := taken ++ chunks.flatMap Buffer.bytes
      .ok (absorbed cache hashKey 0 0 header arrived, blockPuts cache hashKey arrived
        (taken.length / cache.partition) (arrived.length / cache.partition)) := by
  induction chunks generalizing taken with
  | nil => simp [HazelcastInsertContext.insertOpen, blockPuts]
  | cons chunk chunks ih =>
      have first := insertBody_absorbed cache hashKey header taken chunk
      have later := ih (taken ++ chunk.bytes)
      have bytes : taken ++ chunk.bytes ++ chunks.flatMap Buffer.bytes =
          taken ++ (chunk :: chunks).flatMap Buffer.bytes := by
        rw [List.append_assoc, ← List.flatMap_cons]
      rw [← bytes, HazelcastInsertContext.insertOpen, first]
      simp only [bind, Except.bind]
      rw [later]
      dsimp only
      rw [blockPuts_resume]
      exact Nat.div_le_div_right (List.sublist_append_left _ _).length_le

theorem consistent_absorbed (small : taken.length < 2 ^ 63)
    (few : taken.length / cache.partition < 2 ^ 31) :
    (absorbed cache hashKey 0 0 header taken).Consistent taken
      (taken.take (taken.length / cache.partition * cache.partition)) := by
  have available := absorbed_available cache hashKey 0 0 header taken
  have left := Nat.mod_lt taken.length cache.partition_pos
  have floor := Nat.div_mul_le_self taken.length cache.partition
  constructor
  case available_pos =>
    rw [UInt64.le_iff_toNat_le, available]
    exact Nat.sub_pos_of_lt left
  case available_le =>
    rw [UInt64.le_iff_toNat_le, available]
    exact Nat.sub_le _ _
  case buffer =>
    rw [absorbed_buffer_length, available]
    change _ = cache.partition - _
    omega
  case total =>
    have counted : (absorbed cache hashKey 0 0 header taken).totalBodySize.toNat =
        taken.length / cache.partition * cache.partition :=
      UInt64.toNat_ofNat_of_lt' (by simp only [UInt64.size]; omega)
    have order : (absorbed cache hashKey 0 0 header taken).bodyOrder.toInt =
        (taken.length / cache.partition : Nat) := Int32.toInt_ofNat_of_lt few
    rw [counted, order, Int.natCast_mul, Int.mul_comm]
    rfl
  case bytes => exact List.take_append_drop _ _

section Loop

variable (chunk : Buffer) (cursor : HazelcastInsertContext.ChunkCursor)
  (covered : cursor.localChunkIndex.toNat + cursor.remainingChunkSize.toNat = chunk.bytes.length)

theorem toNat_copySize :
    ((absorbed cache hashKey 0 0 header taken).copySize cursor).toNat =
      min (cache.partition - taken.length % cache.partition) cursor.remainingChunkSize.toNat := by
  have available := absorbed_available cache hashKey 0 0 header taken
  unfold HazelcastInsertContext.copySize
  split
  · rename_i fills
    rw [UInt64.le_iff_toNat_le] at fills
    omega
  · rename_i short
    rw [UInt64.le_iff_toNat_le] at short
    omega

include covered

theorem iteration_absorbed (unfinished : cursor.remainingChunkSize ≠ 0) :
    ∃ size : UInt64, 0 < size ∧ size ≤ cursor.remainingChunkSize ∧
      ∃ puts, (absorbed cache hashKey 0 0 header taken).insertBodyIteration chunk cursor =
        .ok (absorbed cache hashKey 0 0 header
            (taken ++ (chunk.bytes.drop cursor.localChunkIndex.toNat).take size.toNat),
          ⟨cursor.localChunkIndex + size, cursor.remainingChunkSize - size⟩, puts) := by
  have available := absorbed_available cache hashKey 0 0 header taken
  have left := Nat.mod_lt taken.length cache.partition_pos
  rcases Nat.lt_or_ge cursor.remainingChunkSize.toNat
      (cache.partition - taken.length % cache.partition) with short | fills
  · refine ⟨cursor.remainingChunkSize, UInt64.pos_iff_ne_zero.mpr unfinished, UInt64.le_refl _,
      [], ?_⟩
    rw [insertBodyIteration_rest cache hashKey 0 0 header taken chunk _ _ covered short,
      List.take_of_length_le (by rw [List.length_drop]; omega), UInt64.sub_self]
  · refine ⟨(absorbed cache hashKey 0 0 header taken).availableBufferBytes, ?_, ?_, _,
      insertBodyIteration_fill cache hashKey 0 0 header taken chunk _ _ covered fills⟩
    · rw [UInt64.lt_iff_toNat_lt, available]
      exact Nat.sub_pos_of_lt left
    · rw [UInt64.le_iff_toNat_le, available]
      exact fills

theorem safeIteration_absorbed (unfinished : cursor.remainingChunkSize ≠ 0) :
    (absorbed cache hashKey 0 0 header taken).SafeIteration chunk cursor := by
  have available := absorbed_available cache hashKey 0 0 header taken
  have buffered := absorbed_buffer_length cache hashKey 0 0 header taken
  have size := toNat_copySize cache hashKey header taken cursor
  have left := Nat.mod_lt taken.length cache.partition_pos
  have width := cache.partition_lt
  constructor
  case covered => exact covered
  case assert_index =>
    rw [UInt64.le_iff_toNat_le, Buffer.toNat_length]
    omega
  case assert_remaining => exact UInt64.pos_iff_ne_zero.mpr unfinished
  case source => omega
  case available_le =>
    rw [UInt64.le_iff_toNat_le, available]
    exact Nat.sub_le _ _
  case offset => rw [absorbed_bufferSize, buffered]
  case destination =>
    have grown : (UInt64.ofNat (absorbed cache hashKey 0 0 header taken).bufferVector.length +
        (absorbed cache hashKey 0 0 header taken).copySize cursor).toNat =
        taken.length % cache.partition +
          ((absorbed cache hashKey 0 0 header taken).copySize cursor).toNat := by
      rw [buffered, UInt64.toNat_add,
        UInt64.toNat_ofNat_of_lt' (by simp only [UInt64.size]; omega), Nat.mod_eq_of_lt (by omega)]
    rw [resize, List.length_append, List.length_take, List.length_replicate, grown, buffered]
    omega
  case assert_filled =>
    intro fills
    rw [UInt64.le_iff_toNat_le] at fills
    refine ⟨_, _, copyIntoLocalBuffer_absorbed cache hashKey 0 0 header taken chunk _ _ (by omega)
      (by omega), ?_⟩
    rw [List.length_append, List.length_take, List.length_drop, buffered]
    change _ = cache.partition
    omega
  case remaining_le =>
    rw [UInt64.le_iff_toNat_le]
    omega
  case room =>
    rw [UInt64.le_iff_toNat_le]
    omega
  case progress =>
    rcases iteration_absorbed cache hashKey header taken chunk cursor covered unfinished with
      ⟨copied, positive, inside, puts, iterated⟩
    refine ⟨_, _, puts, iterated, ?_⟩
    rw [UInt64.lt_iff_toNat_lt] at positive ⊢
    rw [UInt64.toNat_sub_of_le _ _ inside]
    rw [UInt64.le_iff_toNat_le] at inside
    change 0 < _ at positive
    omega

omit covered

theorem loopHead_absorbed (context : HazelcastInsertContext)
    (head : HazelcastInsertContext.LoopHead chunk (absorbed cache hashKey 0 0 header taken) context
      cursor) :
    context = absorbed cache hashKey 0 0 header
        (taken ++ chunk.bytes.take cursor.localChunkIndex.toNat) ∧
      cursor.localChunkIndex.toNat + cursor.remainingChunkSize.toNat = chunk.bytes.length := by
  induction head with
  | enter =>
      constructor
      · simp
      · simp
  | again head unfinished iterated ih =>
      rename_i previous next cursor nextCursor puts
      obtain ⟨rfl, covered⟩ := ih
      rcases iteration_absorbed cache hashKey header _ chunk cursor covered unfinished with
        ⟨size, _, inside, _, result⟩
      rw [iterated] at result
      cases result
      have bound := chunk.length_lt
      have ordered := UInt64.le_iff_toNat_le.mp inside
      have indexNext : (cursor.localChunkIndex + size).toNat =
          cursor.localChunkIndex.toNat + size.toNat := by
        rw [UInt64.toNat_add, Nat.mod_eq_of_lt (by omega)]
      rw [indexNext, UInt64.toNat_sub_of_le _ _ inside]
      constructor
      · rw [List.append_assoc, ← List.take_add]
      · omega

end Loop

end Absorb

theorem makeInsertContext_absorbed (cache : HazelcastHttpCache)
    (lookupContext : HazelcastLookupContext) (header : HazelcastHeaderEntry) :
    { cache.makeInsertContext lookupContext with header := header } =
      absorbed cache lookupContext.hashKey 0 0 header [] := by
  simp [HazelcastHttpCache.makeInsertContext, absorbed, ofNat_partition]

/-- Whatever the setting and whatever has arrived: after every call the buffer and the
counters agree, and the next call never leaves the chunk, the buffer or the unsigned range in
any of its iterations, each of which makes the rest of the chunk smaller. The header is the
one that `insertHeaders` may have set before. -/
theorem insert_context_invariant (cache : HazelcastHttpCache)
    (lookupContext : HazelcastLookupContext) (header : HazelcastHeaderEntry)
    (chunks : List Buffer) (small : (chunks.flatMap Buffer.bytes).length < 2 ^ 63) :
    ∃ context puts,
      { cache.makeInsertContext lookupContext with header := header }.insertOpen chunks =
        .ok (context, puts) ∧
      context.hzCache = cache ∧
      (puts.length < 2 ^ 31 →
        context.Consistent (chunks.flatMap Buffer.bytes) (flushedBytes puts)) ∧
      ∀ chunk state cursor,
        HazelcastInsertContext.LoopHead chunk context state cursor →
        cursor.remainingChunkSize ≠ 0 → state.SafeIteration chunk cursor := by
  have calls := insertOpen_absorbed cache lookupContext.hashKey header [] chunks
  rw [List.nil_append, List.length_nil, Nat.zero_div] at calls
  rw [makeInsertContext_absorbed]
  refine ⟨_, _, calls, rfl, ?_, ?_⟩
  · intro few
    rw [blockPuts_length] at few
    rw [← numberedPuts_zero, flushedBytes_numberedPuts]
    exact consistent_absorbed cache lookupContext.hashKey header _ small few
  · intro chunk state cursor head unfinished
    rcases loopHead_absorbed cache lookupContext.hashKey header _ chunk cursor state head with
      ⟨rfl, covered⟩
    exact safeIteration_absorbed cache lookupContext.hashKey header _ chunk cursor covered
      unfinished

theorem insert_context_invariant_two_calls :
    let cache : HazelcastHttpCache := ⟨{ bodyPartitionSize := 2 }⟩
    let chunks : List Buffer := [⟨[5, 6, 7], by decide⟩, ⟨[8, 9], by decide⟩]
    ∃ context puts,
      (cache.makeInsertContext ⟨cache, 17, none⟩).insertOpen chunks = .ok (context, puts) ∧
      context.Consistent [5, 6, 7, 8, 9] (flushedBytes puts) := by
  intro cache chunks
  rcases insert_context_invariant cache ⟨cache, 17, none⟩ ⟨none, 0⟩ chunks (by decide) with
    ⟨context, puts, called, _, consistent, _⟩
  have emitted : (cache.makeInsertContext ⟨cache, 17, none⟩).insertOpen chunks =
    .ok (context, puts) := called
  have count : ((cache.makeInsertContext ⟨cache, 17, none⟩).insertOpen chunks).map
    (fun result => result.2.length) = .ok 2 := by decide
  rw [emitted] at count
  have two : puts.length = 2 := Except.ok.inj count
  exact ⟨context, puts, emitted, consistent (by rw [two]; decide)⟩

end HazelcastCache
