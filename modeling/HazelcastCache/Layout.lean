import HazelcastCache.InsertContext
import Mathlib.Data.List.Range

/-! What an insert puts into the maps, whatever the chunking of its body. -/

namespace HazelcastCache

open Library

variable (cache : HazelcastHttpCache) (hashKey : UInt64)

/-- The put of partition `index` of a body after `order` other body puts; the counter in its
key is a C++ `int`. -/
def numberedPut (order : Nat) (body : Bytes) (index : Nat) : Put :=
  cache.insertBody (toString hashKey ++ toString (Int32.ofNat (index + order)))
    ⟨Segments.block cache.partition index body⟩

def numberedPuts (order : Nat) (body : Bytes) (first last : Nat) : List Put :=
  (List.range' first (last - first)).map (numberedPut cache hashKey order body)

def blockPut (body : Bytes) (index : Nat) : Put :=
  cache.insertBody (toString hashKey ++ toString (Int32.ofNat index))
    ⟨Segments.block cache.partition index body⟩

def blockPuts (body : Bytes) (first last : Nat) : List Put :=
  (List.range' first (last - first)).map (blockPut cache hashKey body)

def headerPut (headers : HeaderMapImpl) (size : Nat) : Put :=
  cache.insertHeader hashKey ⟨some headers, UInt64.ofNat size⟩

theorem numberedPuts_zero (body : Bytes) (first last : Nat) :
    numberedPuts cache hashKey 0 body first last = blockPuts cache hashKey body first last := rfl

theorem numberedPuts_append (order : Nat) (body : Bytes) (first middle last : Nat)
    (hfirst : first ≤ middle) (hlast : middle ≤ last) :
    numberedPuts cache hashKey order body first middle ++
        numberedPuts cache hashKey order body middle last =
      numberedPuts cache hashKey order body first last := by
  have start : first + (middle - first) = middle := by omega
  have count : last - first = (middle - first) + (last - middle) := by omega
  rw [numberedPuts, numberedPuts, numberedPuts, ← List.map_append, count,
    ← List.range'_append_1, start]

theorem blockPuts_succ (body : Bytes) (first last : Nat) (ordered : first ≤ last) :
    blockPuts cache hashKey body first (last + 1) =
      blockPuts cache hashKey body first last ++ [blockPut cache hashKey body last] := by
  rw [← numberedPuts_zero, ← numberedPuts_append cache hashKey 0 body first last (last + 1) ordered
    (by omega), numberedPuts_zero, numberedPuts_zero]
  simp [blockPuts]

theorem blockPuts_take (body : Bytes) (last steps : Nat) :
    (blockPuts cache hashKey body 0 last).take steps =
      blockPuts cache hashKey body 0 (min steps last) := by
  rw [blockPuts, blockPuts, ← List.map_take, Nat.sub_zero, Nat.sub_zero]
  rcases Nat.le_total last steps with all | some
  · rw [List.take_range'_of_length_le all, Nat.min_eq_right all]
  · rw [List.take_range'_of_length_ge some, Nat.min_eq_left some]

theorem blockPuts_length (body : Bytes) (last : Nat) :
    (blockPuts cache hashKey body 0 last).length = last := by
  simp [blockPuts]

theorem numberedPuts_extend (order : Nat) (front back : Bytes) (first last : Nat)
    (full : last * cache.partition ≤ front.length) :
    numberedPuts cache hashKey order (front ++ back) first last =
      numberedPuts cache hashKey order front first last := by
  apply List.map_congr_left
  intro index member
  rcases List.mem_range'.mp member with ⟨offset, hoffset, rfl⟩
  have inside : (first + 1 * offset + 1) * cache.partition ≤ front.length :=
    Nat.le_trans (Nat.mul_le_mul_right _ (by omega)) full
  rw [numberedPut, numberedPut, Segments.block_append _ _ front back inside]

theorem numberedPuts_resume (order : Nat) (front middle back : Bytes) (last : Nat)
    (reached : (front ++ middle).length / cache.partition ≤ last) :
    numberedPuts cache hashKey order (front ++ middle) (front.length / cache.partition)
        ((front ++ middle).length / cache.partition) ++
      numberedPuts cache hashKey order (front ++ middle ++ back)
        ((front ++ middle).length / cache.partition) last =
      numberedPuts cache hashKey order (front ++ middle ++ back)
        (front.length / cache.partition) last := by
  have grown : front.length ≤ (front ++ middle).length := (List.sublist_append_left _ _).length_le
  rw [← numberedPuts_extend cache hashKey order (front ++ middle) back _ _
    (Nat.div_mul_le_self _ _)]
  exact numberedPuts_append cache hashKey order _ _ _ _ (Nat.div_le_div_right grown) reached

theorem blockPuts_resume (front middle back : Bytes) (last : Nat)
    (reached : (front ++ middle).length / cache.partition ≤ last) :
    blockPuts cache hashKey (front ++ middle) (front.length / cache.partition)
        ((front ++ middle).length / cache.partition) ++
      blockPuts cache hashKey (front ++ middle ++ back)
        ((front ++ middle).length / cache.partition) last =
      blockPuts cache hashKey (front ++ middle ++ back) (front.length / cache.partition) last :=
  numberedPuts_resume cache hashKey 0 front middle back last reached

/-- The context after it has made `order` body puts with `total` bytes and then taken in `taken`:
the full partitions of it are gone, the rest is in the buffer. -/
def absorbed (order total : Nat) (header : HazelcastHeaderEntry) (taken : Bytes) : HazelcastInsertContext where
  hzCache := cache
  header := header
  bodyOrder := Int32.ofNat (taken.length / cache.partition + order)
  hashKey := hashKey
  availableBufferBytes := UInt64.ofNat (cache.partition - taken.length % cache.partition)
  totalBodySize := UInt64.ofNat (taken.length / cache.partition * cache.partition + total)
  bufferVector := taken.drop (taken.length / cache.partition * cache.partition)

section Absorb

variable (order total : Nat) (header : HazelcastHeaderEntry) (taken : Bytes) (chunk : Buffer)

theorem absorbed_buffer_length :
    (absorbed cache hashKey order total header taken).bufferVector.length =
      taken.length % cache.partition := by
  simp only [absorbed, List.length_drop]
  have := Nat.div_add_mod' taken.length cache.partition
  omega

theorem absorbed_available :
    (absorbed cache hashKey order total header taken).availableBufferBytes.toNat =
      cache.partition - taken.length % cache.partition := by
  have bound := cache.partition_lt
  exact UInt64.toNat_ofNat_of_lt' (Nat.lt_of_le_of_lt (Nat.sub_le _ _) bound)

theorem absorbed_bufferSize :
    ((absorbed cache hashKey order total header taken).bodyPartitionSize -
      (absorbed cache hashKey order total header taken).availableBufferBytes).toNat =
      taken.length % cache.partition := by
  have small := Nat.mod_lt taken.length cache.partition_pos
  have ordered : (absorbed cache hashKey order total header taken).availableBufferBytes ≤
      (absorbed cache hashKey order total header taken).bodyPartitionSize := by
    rw [UInt64.le_iff_toNat_le, absorbed_available]
    exact Nat.sub_le _ _
  rw [UInt64.toNat_sub_of_le _ _ ordered, absorbed_available]
  change cache.partition - (cache.partition - taken.length % cache.partition) = _
  omega

theorem copyIntoLocalBuffer_absorbed (index size : UInt64)
    (inChunk : index.toNat + size.toNat ≤ chunk.bytes.length)
    (inBuffer : taken.length % cache.partition + size.toNat ≤ cache.partition) :
    (absorbed cache hashKey order total header taken).copyIntoLocalBuffer index size chunk =
      .ok ({ absorbed cache hashKey order total header taken with
        bufferVector := (absorbed cache hashKey order total header taken).bufferVector ++
          (chunk.bytes.drop index.toNat).take size.toNat }, index + size) := by
  have length := absorbed_buffer_length cache hashKey order total header taken
  have bound := cache.partition_lt
  have grown : (UInt64.ofNat (absorbed cache hashKey order total header taken).bufferVector.length +
      size).toNat = taken.length % cache.partition + size.toNat := by
    rw [length, UInt64.toNat_add, UInt64.toNat_ofNat_of_lt' (by simp only [UInt64.size]; omega),
      Nat.mod_eq_of_lt (by omega)]
  have resized : resize (absorbed cache hashKey order total header taken).bufferVector
      (UInt64.ofNat (absorbed cache hashKey order total header taken).bufferVector.length + size) =
      (absorbed cache hashKey order total header taken).bufferVector ++ List.replicate size.toNat 0 := by
    rw [resize, grown, length, List.take_of_length_le (by omega), Nat.add_sub_cancel_left]
  have past : ((absorbed cache hashKey order total header taken).bufferVector ++
      List.replicate size.toNat 0).length = taken.length % cache.partition + size.toNat := by
    rw [List.length_append, List.length_replicate, length]
  have offset := absorbed_bufferSize cache hashKey order total header taken
  rw [HazelcastInsertContext.copyIntoLocalBuffer, resized, copyOut, offset,
    if_pos ⟨inChunk, Nat.le_of_eq past.symm⟩, ← past, List.drop_length, List.append_nil, ← length,
    List.take_left, List.extract, Nat.add_sub_cancel_left]
  rfl

theorem ofNat_partition : UInt64.ofNat cache.partition = cache.bodySizePerEntry :=
  UInt64.ofNat_toNat

theorem buffer_append_eq_block (piece : Bytes)
    (fits : taken.length % cache.partition + piece.length ≤ cache.partition) :
    (absorbed cache hashKey order total header taken).bufferVector ++ piece =
      Segments.block cache.partition (taken.length / cache.partition) (taken ++ piece) := by
  have split := Nat.div_add_mod' taken.length cache.partition
  rw [Segments.block_eq_drop, List.drop_append_of_le_length (by omega)]
  · rfl
  · rw [List.length_append, Nat.succ_mul]
    omega

/-- A filled buffer is flushed as the next full partition. -/
theorem flushBuffer_filled (piece : Bytes)
    (fills : taken.length % cache.partition + piece.length = cache.partition) :
    { absorbed cache hashKey order total header taken with
        bufferVector := (absorbed cache hashKey order total header taken).bufferVector ++ piece
        availableBufferBytes := 0 }.flushBuffer =
      (absorbed cache hashKey order total header (taken ++ piece),
        numberedPut cache hashKey order (taken ++ piece) (taken.length / cache.partition)) := by
  have grown := Segments.length_append_filled cache.partition taken piece fills
  have quotient : (taken ++ piece).length / cache.partition =
      taken.length / cache.partition + 1 := by
    rw [grown, Nat.mul_div_cancel _ cache.partition_pos]
  have remainder : (taken ++ piece).length % cache.partition = 0 := by
    rw [grown, Nat.mul_mod_left]
  have sizeSum : UInt64.ofNat (taken.length / cache.partition * cache.partition + total) +
      cache.bodySizePerEntry =
      UInt64.ofNat ((taken.length / cache.partition + 1) * cache.partition + total) := by
    rw [Nat.succ_mul, Nat.add_right_comm, UInt64.ofNat_add (_ + total), ofNat_partition]
  have nextOrder : Int32.ofNat (taken.length / cache.partition + order) + 1 =
      Int32.ofNat (taken.length / cache.partition + 1 + order) := by
    rw [Nat.add_right_comm]
    exact (Int32.ofNat_add _ _).symm
  rw [HazelcastInsertContext.flushBuffer,
    buffer_append_eq_block cache hashKey order total header taken piece (Nat.le_of_eq fills)]
  apply Prod.ext
  · simp only [absorbed, quotient, remainder, HazelcastInsertContext.bodyPartitionSize,
      UInt64.sub_zero, sizeSum, nextOrder, Nat.sub_zero, ofNat_partition]
    rw [List.drop_of_length_le (Nat.le_of_eq grown)]
  · rfl

theorem insertBodyIteration_fill (index remaining : UInt64)
    (inChunk : index.toNat + remaining.toNat = chunk.bytes.length)
    (fills : cache.partition - taken.length % cache.partition ≤ remaining.toNat) :
    (absorbed cache hashKey order total header taken).insertBodyIteration chunk ⟨index, remaining⟩ =
      let size := (absorbed cache hashKey order total header taken).availableBufferBytes
      let next := taken ++ (chunk.bytes.drop index.toNat).take size.toNat
      .ok (absorbed cache hashKey order total header next, ⟨index + size, remaining - size⟩,
        [numberedPut cache hashKey order next (taken.length / cache.partition)]) := by
  have available := absorbed_available cache hashKey order total header taken
  have small := Nat.mod_lt taken.length cache.partition_pos
  have branch : (absorbed cache hashKey order total header taken).availableBufferBytes ≤ remaining := by
    rw [UInt64.le_iff_toNat_le, available]
    exact fills
  have copied := copyIntoLocalBuffer_absorbed cache hashKey order total header taken chunk index
    (absorbed cache hashKey order total header taken).availableBufferBytes (by omega) (by omega)
  have flushed := flushBuffer_filled cache hashKey order total header taken
    ((chunk.bytes.drop index.toNat).take
      (absorbed cache hashKey order total header taken).availableBufferBytes.toNat)
    (by simp only [List.length_take, List.length_drop]; omega)
  rw [HazelcastInsertContext.insertBodyIteration, if_pos branch, copied]
  simp only [bind, Except.bind]
  rw [flushed]

theorem insertBodyIteration_rest (index remaining : UInt64)
    (inChunk : index.toNat + remaining.toNat = chunk.bytes.length)
    (short : remaining.toNat < cache.partition - taken.length % cache.partition) :
    (absorbed cache hashKey order total header taken).insertBodyIteration chunk ⟨index, remaining⟩ =
      .ok (absorbed cache hashKey order total header (taken ++ chunk.bytes.drop index.toNat),
        ⟨index + remaining, 0⟩, []) := by
  have available := absorbed_available cache hashKey order total header taken
  have bound := cache.partition_lt
  have small := Nat.mod_lt taken.length cache.partition_pos
  have branch : ¬ (absorbed cache hashKey order total header taken).availableBufferBytes ≤ remaining := by
    rw [UInt64.le_iff_toNat_le, available]
    omega
  have copied := copyIntoLocalBuffer_absorbed cache hashKey order total header taken chunk index remaining
    (by omega) (by omega)
  have rest : (chunk.bytes.drop index.toNat).length = remaining.toNat := by
    rw [List.length_drop]
    omega
  rcases Segments.length_append_short cache.partition taken
    (chunk.bytes.drop index.toNat) (by omega) with ⟨quotient, remainder⟩
  have left : (absorbed cache hashKey order total header taken).availableBufferBytes - remaining =
      UInt64.ofNat (cache.partition - (taken.length % cache.partition + remaining.toNat)) := by
    apply UInt64.toNat_inj.mp
    rw [UInt64.toNat_sub_of_le _ _ (by rw [UInt64.le_iff_toNat_le, available]; omega), available,
      UInt64.toNat_ofNat_of_lt' (by simp only [UInt64.size]; omega)]
    omega
  rw [HazelcastInsertContext.insertBodyIteration, if_neg branch, copied]
  simp only [bind, Except.bind]
  rw [left, List.take_of_length_le (Nat.le_of_eq rest)]
  simp only [absorbed, quotient, remainder, rest]
  rw [List.drop_append_of_le_length (Nat.div_mul_le_self _ _)]

end Absorb

theorem insertBodyLoop_done (order total : Nat) (header : HazelcastHeaderEntry) (taken : Bytes) (chunk : Buffer)
    (fuel : Nat) (index remaining : UInt64)
    (inChunk : index.toNat + remaining.toNat = chunk.bytes.length) (done : remaining = 0) :
    HazelcastInsertContext.insertBodyLoop chunk fuel (absorbed cache hashKey order total header taken)
        ⟨index, remaining⟩ =
      .ok (absorbed cache hashKey order total header (taken ++ chunk.bytes.drop index.toNat),
        numberedPuts cache hashKey order (taken ++ chunk.bytes.drop index.toNat)
          (taken.length / cache.partition)
          ((taken ++ chunk.bytes.drop index.toNat).length / cache.partition)) := by
  subst done
  have consumed : chunk.bytes.drop index.toNat = [] := by
    apply List.drop_of_length_le
    rw [← inChunk]
    exact Nat.le_refl _
  rw [consumed, List.append_nil, numberedPuts, Nat.sub_self]
  cases fuel <;> rfl

/-- The loop takes in the rest of the chunk and puts exactly the partitions it completes. -/
theorem insertBodyLoop_absorbed (order total : Nat) (header : HazelcastHeaderEntry) (taken : Bytes)
    (chunk : Buffer) (fuel : Nat) (index remaining : UInt64)
    (inChunk : index.toNat + remaining.toNat = chunk.bytes.length)
    (enough : remaining.toNat ≤ fuel) :
    HazelcastInsertContext.insertBodyLoop chunk fuel (absorbed cache hashKey order total header taken)
        ⟨index, remaining⟩ =
      .ok (absorbed cache hashKey order total header (taken ++ chunk.bytes.drop index.toNat),
        numberedPuts cache hashKey order (taken ++ chunk.bytes.drop index.toNat)
          (taken.length / cache.partition)
          ((taken ++ chunk.bytes.drop index.toNat).length / cache.partition)) := by
  induction fuel generalizing taken index remaining with
  | zero =>
      exact insertBodyLoop_done cache hashKey order total header taken chunk 0 index remaining inChunk
        (UInt64.toNat_inj.mp (Nat.le_zero.mp enough))
  | succ fuel ih =>
      by_cases done : remaining = 0
      · exact insertBodyLoop_done cache hashKey order total header taken chunk _ index remaining inChunk done
      rw [HazelcastInsertContext.insertBodyLoop, if_neg done]
      have chunkBound := chunk.length_lt
      have small := Nat.mod_lt taken.length cache.partition_pos
      by_cases fills : cache.partition - taken.length % cache.partition ≤ remaining.toNat
      · have available := absorbed_available cache hashKey order total header taken
        have ordered : (absorbed cache hashKey order total header taken).availableBufferBytes ≤ remaining := by
          rw [UInt64.le_iff_toNat_le, available]
          exact fills
        have remainingNext := UInt64.toNat_sub_of_le _ _ ordered
        have indexNext : (index + (absorbed cache hashKey order total header taken).availableBufferBytes).toNat =
            index.toNat + (absorbed cache hashKey order total header taken).availableBufferBytes.toNat := by
          rw [UInt64.toNat_add, Nat.mod_eq_of_lt (by omega)]
        rw [insertBodyIteration_fill cache hashKey order total header taken chunk index remaining inChunk fills]
        generalize (absorbed cache hashKey order total header taken).availableBufferBytes = size at *
        -- The bytes split into the piece that fills the buffer and the rest of the chunk.
        have bytes : taken ++ (chunk.bytes.drop index.toNat).take size.toNat ++
            chunk.bytes.drop (index + size).toNat = taken ++ chunk.bytes.drop index.toNat := by
          rw [List.append_assoc, indexNext, ← List.drop_drop, List.take_append_drop]
        have later := ih (taken ++ (chunk.bytes.drop index.toNat).take size.toNat) (index + size)
          (remaining - size) (by omega) (by omega)
        have nextLength : (taken ++ (chunk.bytes.drop index.toNat).take size.toNat).length =
            (taken.length / cache.partition + 1) * cache.partition := by
          apply Segments.length_append_filled
          rw [List.length_take, List.length_drop]
          omega
        have completed : (taken ++ (chunk.bytes.drop index.toNat).take size.toNat).length /
            cache.partition = taken.length / cache.partition + 1 := by
          rw [nextLength, Nat.mul_div_cancel _ cache.partition_pos]
        have firstPut : [numberedPut cache hashKey order (taken ++ (chunk.bytes.drop index.toNat).take
            size.toNat) (taken.length / cache.partition)] =
            numberedPuts cache hashKey order (taken ++ (chunk.bytes.drop index.toNat).take size.toNat)
              (taken.length / cache.partition) ((taken ++ (chunk.bytes.drop index.toNat).take
                size.toNat).length / cache.partition) := by
          rw [completed]
          simp [numberedPuts]
        simp only [bind, Except.bind]
        rw [later, firstPut, ← bytes]
        dsimp only
        rw [numberedPuts_resume]
        exact Nat.div_le_div_right (List.sublist_append_left _ _).length_le
      · rw [insertBodyIteration_rest cache hashKey order total header taken chunk index remaining inChunk
          (Nat.not_le.mp fills)]
        -- No partition is completed, so nothing is put.
        have quotient := (Segments.length_append_short cache.partition taken
          (chunk.bytes.drop index.toNat) (by rw [List.length_drop]; omega)).1
        have indexNext : (index + remaining).toNat = chunk.bytes.length := by
          rw [UInt64.toNat_add, inChunk, Nat.mod_eq_of_lt chunkBound]
        have later := ih (taken ++ chunk.bytes.drop index.toNat) (index + remaining) 0
          (by rw [indexNext]; rfl) (Nat.zero_le _)
        rw [indexNext, List.drop_length, List.append_nil] at later
        simp only [bind, Except.bind]
        rw [later, quotient]
        rfl

theorem insertBody_absorbed (header : HazelcastHeaderEntry) (taken : Bytes) (chunk : Buffer) :
    (absorbed cache hashKey 0 0 header taken).insertBody chunk false =
      .ok (absorbed cache hashKey 0 0 header (taken ++ chunk.bytes),
        blockPuts cache hashKey (taken ++ chunk.bytes) (taken.length / cache.partition)
          ((taken ++ chunk.bytes).length / cache.partition)) := by
  have looped := insertBodyLoop_absorbed cache hashKey 0 0 header taken chunk
    (chunk.bytes.length + 1) 0 chunk.length (by simp) (by simp)
  rw [HazelcastInsertContext.insertBody, looped]
  rfl

theorem flushBuffer_absorbed (header : HazelcastHeaderEntry) (body : Bytes) :
    (absorbed cache hashKey 0 0 header body).flushBuffer.2 =
      blockPut cache hashKey body (body.length / cache.partition) := by
  have small := Nat.mod_lt body.length cache.partition_pos
  have lastBlock := buffer_append_eq_block cache hashKey 0 0 header body []
    (by simpa using Nat.le_of_lt small)
  rw [List.append_nil, List.append_nil] at lastBlock
  rw [HazelcastInsertContext.flushBuffer, lastBlock]
  rfl

theorem flushHeader_absorbed (headers : HeaderMapImpl) (oldSize : UInt64) (body : Bytes) :
    (absorbed cache hashKey 0 0 ⟨some headers, oldSize⟩ body).flushBuffer.1.flushHeader.2 =
      headerPut cache hashKey headers body.length := by
  have split := Nat.div_add_mod' body.length cache.partition
  have counted : (absorbed cache hashKey 0 0 ⟨some headers, oldSize⟩ body).totalBodySize +
      ((absorbed cache hashKey 0 0 ⟨some headers, oldSize⟩ body).bodyPartitionSize -
        (absorbed cache hashKey 0 0 ⟨some headers, oldSize⟩ body).availableBufferBytes) =
      UInt64.ofNat body.length := by
    rw [← UInt64.ofNat_toNat (x := _ - _), absorbed_bufferSize]
    change UInt64.ofNat _ + _ = _
    rw [← UInt64.ofNat_add, Nat.add_zero, split]
  rw [HazelcastInsertContext.flushHeader, HazelcastInsertContext.flushBuffer, counted]
  rfl

theorem insertBody_absorbed_end (headers : HeaderMapImpl) (oldSize : UInt64) (taken : Bytes)
    (chunk : Buffer) :
    ∃ context, (absorbed cache hashKey 0 0 ⟨some headers, oldSize⟩ taken).insertBody chunk true =
      .ok (context, blockPuts cache hashKey (taken ++ chunk.bytes)
          (taken.length / cache.partition) ((taken ++ chunk.bytes).length / cache.partition + 1) ++
        [headerPut cache hashKey headers (taken ++ chunk.bytes).length]) := by
  have looped := insertBodyLoop_absorbed cache hashKey 0 0 ⟨some headers, oldSize⟩ taken chunk
    (chunk.bytes.length + 1) 0 chunk.length (by simp) (by simp)
  have grown : taken.length / cache.partition ≤
      (taken ++ chunk.bytes).length / cache.partition := by
    apply Nat.div_le_div_right
    rw [List.length_append]
    exact Nat.le_add_right _ _
  refine ⟨(absorbed cache hashKey 0 0 ⟨some headers, oldSize⟩
    (taken ++ chunk.bytes)).flushBuffer.1.flushHeader.1, ?_⟩
  rw [HazelcastInsertContext.insertBody, looped,
    blockPuts_succ _ _ _ _ _ grown, List.append_assoc, ← flushBuffer_absorbed cache hashKey
      ⟨some headers, oldSize⟩, ← flushHeader_absorbed cache hashKey headers oldSize]
  rfl

theorem insertBodies_absorbed (headers : HeaderMapImpl) (oldSize : UInt64) (taken : Bytes)
    (chunks : List Buffer) (nonempty : chunks ≠ []) :
    ∃ context, (absorbed cache hashKey 0 0 ⟨some headers, oldSize⟩ taken).insertBodies chunks =
      .ok (context, blockPuts cache hashKey (taken ++ chunks.flatMap Buffer.bytes)
          (taken.length / cache.partition)
          ((taken ++ chunks.flatMap Buffer.bytes).length / cache.partition + 1) ++
        [headerPut cache hashKey headers (taken ++ chunks.flatMap Buffer.bytes).length]) := by
  induction chunks generalizing taken with
  | nil => exact absurd rfl nonempty
  | cons chunk rest ih =>
      cases rest with
      | nil =>
          rw [List.flatMap_cons, List.flatMap_nil, List.append_nil]
          exact insertBody_absorbed_end cache hashKey headers oldSize taken chunk
      | cons second rest =>
          rcases ih (taken ++ chunk.bytes) (by simp) with ⟨context, later⟩
          have first := insertBody_absorbed cache hashKey ⟨some headers, oldSize⟩ taken chunk
          have bytes : taken ++ chunk.bytes ++ (second :: rest).flatMap Buffer.bytes =
              taken ++ (chunk :: second :: rest).flatMap Buffer.bytes := by
            rw [List.append_assoc, ← List.flatMap_cons]
          rw [← bytes, HazelcastInsertContext.insertBodies, first]
          · refine ⟨context, ?_⟩
            simp only [bind, Except.bind]
            rw [later]
            dsimp only
            rw [← List.append_assoc, blockPuts_resume]
            exact Nat.le_succ_of_le
              (Nat.div_le_div_right (List.sublist_append_left _ _).length_le)
          · intro empty
            cases empty

/-- The puts of a complete insert, described without reference to its chunks. -/
def responsePuts (headers : HeaderMapImpl) (body : Bytes) : List Put :=
  blockPuts cache hashKey body 0 (body.length / cache.partition + 1) ++
    [headerPut cache hashKey headers body.length]

theorem insertHeaders_absorbed (headers : HeaderMapImpl) :
    (cache.makeInsertContext ⟨cache, hashKey, none⟩).insertHeaders headers false =
      (absorbed cache hashKey 0 0 ⟨some headers, 0⟩ [], []) := by
  have size := ofNat_partition cache
  simp [HazelcastHttpCache.makeInsertContext, HazelcastInsertContext.insertHeaders, absorbed, size]

/-- An insert never faults. It puts every partition of the body in order and the header
last; a header-only insert puts just the header. -/
theorem Insert.puts_eq (insert : Insert) :
    insert.puts cache hashKey = .ok (if insert.chunks = []
      then [headerPut cache hashKey insert.headers 0]
      else responsePuts cache hashKey insert.headers insert.body) := by
  unfold Insert.puts
  split
  · rename_i headerOnly
    rw [if_pos headerOnly]
    rfl
  · rename_i chunked
    rcases insertBodies_absorbed cache hashKey insert.headers 0 []
      insert.chunks chunked with ⟨context, later⟩
    rw [if_neg chunked]
    simp only [insertHeaders_absorbed, bind, Except.bind, later, List.nil_append,
      List.length_nil, Nat.zero_div]
    rfl

/-! Both kinds of insert in one form: some partitions, then the header. -/

def Insert.partitions (insert : Insert) (cache : HazelcastHttpCache) : Nat :=
  if insert.chunks = [] then 0 else insert.body.length / cache.partition + 1

def Insert.log (insert : Insert) (cache : HazelcastHttpCache) (hashKey : UInt64) : List Put :=
  blockPuts cache hashKey insert.body 0 (insert.partitions cache) ++
    [headerPut cache hashKey insert.headers insert.body.length]

theorem Insert.puts_eq_log (insert : Insert) :
    insert.puts cache hashKey = .ok (insert.log cache hashKey) := by
  rw [Insert.puts_eq, Insert.log, Insert.partitions]
  by_cases headerOnly : insert.chunks = []
  · rw [if_pos headerOnly, if_pos headerOnly, Insert.body, headerOnly]
    rfl
  · rw [if_neg headerOnly, if_neg headerOnly, responsePuts]

theorem Insert.eq_log_of_puts (insert : Insert) (puts : List Put)
    (emitted : insert.puts cache hashKey = .ok puts) : puts = insert.log cache hashKey := by
  rw [insert.puts_eq_log] at emitted
  exact (Except.ok.inj emitted).symm

theorem eq_logs_of_puts {Writer : Type} (inserts : Writer → Insert) (cache : HazelcastHttpCache)
    (hashOf : Writer → UInt64) (puts : Writer → List Put)
    (emitted : ∀ writer, (inserts writer).puts cache (hashOf writer) = .ok (puts writer)) :
    puts = fun writer => (inserts writer).log cache (hashOf writer) := by
  funext writer
  exact Insert.eq_log_of_puts cache (hashOf writer) (inserts writer) (puts writer)
    (emitted writer)

theorem Insert.partitions_le (insert : Insert) :
    insert.partitions cache ≤ insert.body.length / cache.partition + 1 := by
  unfold Insert.partitions
  split
  · exact Nat.zero_le _
  · exact Nat.le_refl _

theorem Insert.lt_partitions (insert : Insert) (index : Nat)
    (inside : index * cache.partition < insert.body.length) :
    index < insert.partitions cache := by
  have chunked : insert.chunks ≠ [] := by
    intro headerOnly
    rw [Insert.body, headerOnly] at inside
    exact Nat.not_lt_zero _ inside
  rw [Insert.partitions, if_neg chunked, Nat.lt_succ_iff]
  exact (Nat.le_div_iff_mul_le cache.partition_pos).mpr (Nat.le_of_lt inside)

theorem Insert.log_length (insert : Insert) :
    (insert.log cache hashKey).length = insert.partitions cache + 1 := by
  rw [Insert.log, List.length_append, blockPuts_length, List.length_singleton]

/-- An insert stopped before its header put has put partitions only. -/
theorem Insert.log_take (insert : Insert) (steps : Nat)
    (stopped : steps ≤ insert.partitions cache) :
    (insert.log cache hashKey).take steps = blockPuts cache hashKey insert.body 0 steps := by
  rw [Insert.log, List.take_append_of_le_length (by rwa [blockPuts_length]), blockPuts_take,
    Nat.min_eq_left stopped]

theorem Insert.log_take_all (insert : Insert) (steps : Nat)
    (finished : insert.partitions cache < steps) :
    (insert.log cache hashKey).take steps = insert.log cache hashKey := by
  apply List.take_of_length_le
  rw [Insert.log_length]
  exact finished

theorem Insert.mem_log (insert : Insert) (put : Put) :
    put ∈ insert.log cache hashKey ↔
      (∃ index < insert.partitions cache, put = blockPut cache hashKey insert.body index) ∨
        put = headerPut cache hashKey insert.headers insert.body.length := by
  simp only [Insert.log, List.mem_append, List.mem_singleton, blockPuts, List.mem_map,
    List.mem_range'_1]
  constructor
  · intro member
    rcases member with ⟨index, ⟨_, bound⟩, rfl⟩ | rfl
    · exact Or.inl ⟨index, by omega, rfl⟩
    · exact Or.inr rfl
  · intro known
    rcases known with ⟨index, bound, rfl⟩ | rfl
    · exact Or.inl ⟨index, ⟨Nat.zero_le _, by omega⟩, rfl⟩
    · exact Or.inr rfl

theorem Insert.log_drop (insert : Insert) (index : Nat) (inside : index < insert.partitions cache) :
    (insert.log cache hashKey).drop index =
      blockPut cache hashKey insert.body index :: (insert.log cache hashKey).drop (index + 1) := by
  have bound : index < (insert.log cache hashKey).length := by
    rw [Insert.log_length]
    omega
  rw [List.drop_eq_getElem_cons bound]
  congr 1
  simp only [Insert.log]
  rw [List.getElem_append_left (by rwa [blockPuts_length])]
  simp [blockPuts]

theorem Insert.log_drop_header (insert : Insert) :
    (insert.log cache hashKey).drop (insert.partitions cache) =
      [headerPut cache hashKey insert.headers insert.body.length] := by
  rw [Insert.log, List.drop_left' (blockPuts_length _ _ _ _)]

end HazelcastCache
