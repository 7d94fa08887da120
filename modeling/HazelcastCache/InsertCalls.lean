import HazelcastCache.BufferInvariant
import HazelcastCache.StoredResponse

/-! Any sequence of calls on one insert context, with `end_stream` on any of them. -/

namespace HazelcastCache

open Library

inductive InsertCall where
  | headers (responseHeaders : HeaderMapImpl) (endStream : Bool)
  | body (chunk : Buffer) (endStream : Bool)
  deriving DecidableEq, Repr

def InsertCall.bytes : InsertCall → Bytes
  | .headers _ _ => []
  | .body chunk _ => chunk.bytes

/-- The headers of the header entries that the calls put, from the headers given before. -/
def endings : Option HeaderMapImpl → List InsertCall → List (Option HeaderMapImpl)
  | _, [] => []
  | _, .headers responseHeaders endStream :: calls =>
      (if endStream then [some responseHeaders] else []) ++ endings (some responseHeaders) calls
  | given, .body _ endStream :: calls =>
      (if endStream then [given] else []) ++ endings given calls

/-- `writeData` of such an entry follows a null pointer. -/
def Put.headless : Put → Bool
  | .header _ entry => entry.headerMapPtr.isNone
  | .body _ _ => false

namespace HazelcastInsertContext

/-- Each put serializes its entry at once. -/
def posted (result : HazelcastInsertContext × List Put) :
    Except Fault (HazelcastInsertContext × List Put) :=
  if result.2.any Put.headless then .error .nullDereference else .ok result

def call (context : HazelcastInsertContext) :
    InsertCall → Except Fault (HazelcastInsertContext × List Put)
  | .headers responseHeaders endStream => posted (context.insertHeaders responseHeaders endStream)
  | .body chunk endStream => context.insertBody chunk endStream >>= posted

def callAll (context : HazelcastInsertContext) :
    List InsertCall → Except Fault (HazelcastInsertContext × List Put)
  | [] => .ok (context, [])
  | call :: calls => do
      let (context, puts) ← context.call call
      let (context, later) ← callAll context calls
      .ok (context, puts ++ later)

end HazelcastInsertContext

def bodyCount (puts : List Put) : Nat := (puts.filterMap Put.bodyRecord).length

def headersPut (puts : List Put) : List (Option HeaderMapImpl) :=
  (puts.filterMap Put.headerRecord).map (fun record => record.2.headerMapPtr)

/-- The puts of one insert context, after `order` body entries with `total` bytes. Body entries
are numbered one after the other and none exceeds a partition; a header entry records how many
bytes the body entries before it hold. -/
def Ledger (cache : HazelcastHttpCache) (hashKey : UInt64) : Nat → Nat → List Put → Prop
  | _, _, [] => True
  | order, total, .body key entry :: puts =>
      key = cache.orderKey hashKey order ∧ entry.bodyBuffer.length ≤ cache.partition ∧
        Ledger cache hashKey (order + 1) (total + entry.bodyBuffer.length) puts
  | order, total, .header key entry :: puts =>
      key = cache.headerKey hashKey ∧ entry.totalBodySize = UInt64.ofNat total ∧
        Ledger cache hashKey order total puts

section Lists

variable (first second : List Put)

@[simp] theorem flushedBytes_append :
    flushedBytes (first ++ second) = flushedBytes first ++ flushedBytes second := by
  simp [flushedBytes]

@[simp] theorem bodyCount_append :
    bodyCount (first ++ second) = bodyCount first + bodyCount second := by
  simp [bodyCount]

@[simp] theorem headersPut_append :
    headersPut (first ++ second) = headersPut first ++ headersPut second := by
  simp [headersPut]

@[simp] theorem flushedBytes_nil : flushedBytes [] = [] := rfl

variable (puts : List Put)

@[simp] theorem flushedBytes_body (key : String × String) (entry : HazelcastBodyEntry) :
    flushedBytes (.body key entry :: puts) = entry.bodyBuffer ++ flushedBytes puts := rfl

@[simp] theorem flushedBytes_header (key : String × Int64) (entry : HazelcastHeaderEntry) :
    flushedBytes (.header key entry :: puts) = flushedBytes puts := rfl

@[simp] theorem bodyCount_body (key : String × String) (entry : HazelcastBodyEntry) :
    bodyCount (.body key entry :: puts) = bodyCount puts + 1 := rfl

theorem any_headless_iff : puts.any Put.headless = true ↔ none ∈ headersPut puts := by
  induction puts with
  | nil => simp [headersPut]
  | cons put puts ih =>
      cases put with
      | header key entry =>
          obtain ⟨headerMapPtr, totalBodySize⟩ := entry
          cases headerMapPtr with
          | none => simp [Put.headless, headersPut, Put.headerRecord]
          | some headers => simpa [Put.headless, headersPut, Put.headerRecord] using ih
      | body key entry => simpa [Put.headless, headersPut, Put.headerRecord] using ih

variable {cache : HazelcastHttpCache} {hashKey : UInt64} {first second}

theorem Ledger.append {order total : Nat} (front : Ledger cache hashKey order total first)
    (back : Ledger cache hashKey (order + bodyCount first)
      (total + (flushedBytes first).length) second) :
    Ledger cache hashKey order total (first ++ second) := by
  induction first generalizing order total with
  | nil => exact back
  | cons put first ih =>
      cases put with
      | body key entry =>
          obtain ⟨named, fits, rest⟩ := front
          refine ⟨named, fits, ih rest ?_⟩
          rwa [Nat.add_assoc, Nat.add_comm 1, ← bodyCount_body, Nat.add_assoc, ← List.length_append,
            ← flushedBytes_body]
      | header key entry =>
          obtain ⟨named, counted, rest⟩ := front
          exact ⟨named, counted, ih rest back⟩

end Lists

/-- The state of an insert context between two calls: what it has put is counted, and what it
holds back is less than a partition. -/
structure Progress (cache : HazelcastHttpCache) where
  header : HazelcastHeaderEntry
  order : Nat
  total : Nat
  buffer : Bytes
  short : buffer.length < cache.partition

namespace Progress

variable {cache : HazelcastHttpCache} (hashKey : UInt64)

def context (progress : Progress cache) : HazelcastInsertContext where
  hzCache := cache
  header := progress.header
  bodyOrder := Int32.ofNat progress.order
  hashKey := hashKey
  availableBufferBytes := UInt64.ofNat (cache.partition - progress.buffer.length)
  totalBodySize := UInt64.ofNat progress.total
  bufferVector := progress.buffer

/-- The state after the bytes `arrived` have come in and `puts` have been made. -/
structure Posted (before : Progress cache) (arrived : Bytes) (after : Progress cache)
    (puts : List Put) : Prop where
  ledger : Ledger cache hashKey before.order before.total puts
  order : after.order = before.order + bodyCount puts
  total : after.total = before.total + (flushedBytes puts).length
  bytes : flushedBytes puts ++ after.buffer = before.buffer ++ arrived

variable {hashKey}

theorem Posted.refl (progress : Progress cache) : Posted hashKey progress [] progress [] where
  ledger := trivial
  order := rfl
  total := rfl
  bytes := (List.append_nil _).symm

theorem Posted.trans {start middle final : Progress cache} {early late : Bytes}
    {first second : List Put} (front : Posted hashKey start early middle first)
    (back : Posted hashKey middle late final second) :
    Posted hashKey start (early ++ late) final (first ++ second) where
  ledger := by
    apply front.ledger.append
    rw [← front.order, ← front.total]
    exact back.ledger
  order := by rw [back.order, front.order, bodyCount_append, Nat.add_assoc]
  total := by
    rw [back.total, front.total, flushedBytes_append, List.length_append, Nat.add_assoc]
  bytes := by
    rw [flushedBytes_append, List.append_assoc, back.bytes, ← List.append_assoc, front.bytes,
      List.append_assoc]

section Copy

variable (hashKey) (progress : Progress cache)

theorem context_eq :
    progress.context hashKey =
      absorbed cache hashKey progress.order progress.total progress.header progress.buffer := by
  simp only [context, absorbed, Nat.mod_eq_of_lt progress.short, Nat.div_eq_of_lt progress.short,
    Nat.zero_mul, Nat.zero_add, List.drop_zero]

theorem bufferSize :
    cache.bodySizePerEntry - (progress.context hashKey).availableBufferBytes =
      UInt64.ofNat progress.buffer.length := by
  have size := absorbed_bufferSize cache hashKey progress.order progress.total progress.header
    progress.buffer
  rw [← context_eq, Nat.mod_eq_of_lt progress.short] at size
  rw [← size, UInt64.ofNat_toNat]
  rfl

theorem flushBuffer_context :
    ∃ after : Progress cache, after.header = progress.header ∧ after.buffer = [] ∧
      (progress.context hashKey).flushBuffer = (after.context hashKey,
        .body (cache.orderKey hashKey progress.order) ⟨progress.buffer⟩) ∧
      Posted hashKey progress [] after
        [.body (cache.orderKey hashKey progress.order) ⟨progress.buffer⟩] := by
  refine ⟨⟨progress.header, progress.order + 1, progress.total + progress.buffer.length, [],
    cache.partition_pos⟩, rfl, rfl, ?_, ?_⟩
  · rw [HazelcastInsertContext.flushBuffer]
    have size : (progress.context hashKey).bodyPartitionSize -
        (progress.context hashKey).availableBufferBytes = UInt64.ofNat progress.buffer.length :=
      progress.bufferSize hashKey
    rw [size]
    simp only [context, List.length_nil, Nat.sub_zero, ofNat_partition, Int32.ofNat_add,
      UInt64.ofNat_add, HazelcastInsertContext.bodyPartitionSize]
    rfl
  · constructor
    · exact ⟨rfl, Nat.le_of_lt progress.short, trivial⟩
    · rfl
    · simp
    · simp

end Copy

section Body

variable (hashKey) (progress : Progress cache)

theorem ledger_numberedPuts (order : Nat) (body : Bytes) (count first total : Nat)
    (full : (first + count) * cache.partition ≤ body.length) :
    Ledger cache hashKey (first + order) total
      ((List.range' first count).map (numberedPut cache hashKey order body)) := by
  induction count generalizing first total with
  | zero => trivial
  | succ count ih =>
      have length : (Segments.block cache.partition first body).length = cache.partition := by
        apply Segments.block_length_full
        exact Nat.le_trans (Nat.mul_le_mul_right _ (by omega)) full
      refine ⟨rfl, Nat.le_of_eq length, ?_⟩
      rw [Nat.add_right_comm]
      exact ih (first + 1) _ (by rwa [Nat.add_assoc, Nat.add_comm 1])

theorem insertBodyLoop_posted (chunk : Buffer) :
    ∃ after : Progress cache, ∃ puts, after.header = progress.header ∧ headersPut puts = [] ∧
      HazelcastInsertContext.insertBodyLoop chunk (chunk.bytes.length + 1)
        (progress.context hashKey) ⟨0, chunk.length⟩ = .ok (after.context hashKey, puts) ∧
      Posted hashKey progress chunk.bytes after puts := by
  have looped := insertBodyLoop_absorbed cache hashKey progress.order progress.total
    progress.header progress.buffer chunk (chunk.bytes.length + 1) 0 chunk.length (by simp) (by simp)
  have start : (0 : UInt64).toNat = 0 := rfl
  rw [start, List.drop_zero, Nat.div_eq_of_lt progress.short, ← context_eq] at looped
  generalize arrived : progress.buffer ++ chunk.bytes = taken at *
  have buffered := absorbed_buffer_length cache hashKey progress.order progress.total
    progress.header taken
  have small := Nat.mod_lt taken.length cache.partition_pos
  refine ⟨⟨progress.header, taken.length / cache.partition + progress.order,
    taken.length / cache.partition * cache.partition + progress.total,
    taken.drop (taken.length / cache.partition * cache.partition), buffered.trans_lt small⟩,
    numberedPuts cache hashKey progress.order taken 0 (taken.length / cache.partition),
    rfl, ?_, ?_, ?_⟩
  · simp [headersPut, numberedPuts, numberedPut, HazelcastHttpCache.insertBody, Put.headerRecord,
      List.filterMap_map, Function.comp_def]
  · rw [looped]
    simp only [context, absorbed]
    change (taken.drop (taken.length / cache.partition * cache.partition)).length = _ at buffered
    rw [buffered]
  · have floor := Nat.div_mul_le_self taken.length cache.partition
    constructor
    · have ledger := ledger_numberedPuts hashKey progress.order taken
        (taken.length / cache.partition) 0 progress.total (by rwa [Nat.zero_add])
      rwa [Nat.zero_add] at ledger
    · simp [bodyCount, numberedPuts, numberedPut, HazelcastHttpCache.insertBody, Put.bodyRecord,
        List.filterMap_map, Function.comp_def, Nat.add_comm]
    · rw [flushedBytes_numberedPuts, List.length_take_of_le floor]
      exact Nat.add_comm _ _
    · rw [flushedBytes_numberedPuts, List.take_append_drop, arrived]

end Body

section Calls

variable (hashKey) (progress : Progress cache)

/-- The header entry counts what has been put, whatever is still buffered. -/
theorem flushHeader_posted :
    ∃ after : Progress cache, ∃ put, after.header.headerMapPtr = progress.header.headerMapPtr ∧
      after.buffer = progress.buffer ∧ headersPut [put] = [progress.header.headerMapPtr] ∧
      (progress.context hashKey).flushHeader = (after.context hashKey, put) ∧
      Posted hashKey progress [] after [put] := by
  refine ⟨{ progress with header := ⟨progress.header.headerMapPtr, UInt64.ofNat progress.total⟩ },
    .header (cache.headerKey hashKey) ⟨progress.header.headerMapPtr, UInt64.ofNat progress.total⟩,
    rfl, rfl, rfl, rfl, ?_⟩
  constructor
  · exact ⟨rfl, rfl, trivial⟩
  · rfl
  · rfl
  · simp

theorem insertHeaders_posted (responseHeaders : HeaderMapImpl) (endStream : Bool) :
    ∃ after : Progress cache, ∃ puts,
      (progress.context hashKey).insertHeaders responseHeaders endStream =
        (after.context hashKey, puts) ∧
      Posted hashKey progress [] after puts ∧
      ∀ calls, endings progress.header.headerMapPtr (.headers responseHeaders endStream :: calls) =
        headersPut puts ++ endings after.header.headerMapPtr calls := by
  have given : Posted hashKey progress [] { progress with
      header := ⟨some responseHeaders, progress.header.totalBodySize⟩ } [] :=
    ⟨trivial, rfl, rfl, (List.append_nil _).symm⟩
  cases endStream with
  | false => exact ⟨_, [], rfl, given, fun calls => rfl⟩
  | true =>
      obtain ⟨after, put, same, _, headers, flushed, posted⟩ := flushHeader_posted hashKey
        { progress with header := ⟨some responseHeaders, progress.header.totalBodySize⟩ }
      refine ⟨after, [put], ?_, given.trans posted, ?_⟩
      · change Prod.mk (HazelcastInsertContext.flushHeader _).1
          [(HazelcastInsertContext.flushHeader _).2] = _
        exact congrArg (fun result => Prod.mk result.1 [result.2]) flushed
      · intro calls
        rw [headers, same]
        rfl

theorem insertBody_posted (chunk : Buffer) (endStream : Bool) :
    ∃ after : Progress cache, ∃ puts,
      (progress.context hashKey).insertBody chunk endStream = .ok (after.context hashKey, puts) ∧
      Posted hashKey progress chunk.bytes after puts ∧
      ∀ calls, endings progress.header.headerMapPtr (.body chunk endStream :: calls) =
        headersPut puts ++ endings after.header.headerMapPtr calls := by
  obtain ⟨middle, puts, sameHeader, noHeaders, looped, arrived⟩ :=
    insertBodyLoop_posted hashKey progress chunk
  cases endStream with
  | false =>
      refine ⟨middle, puts, ?_, arrived, ?_⟩
      · rw [HazelcastInsertContext.insertBody, looped]
        rfl
      · intro calls
        rw [noHeaders, sameHeader]
        rfl
  | true =>
      obtain ⟨emptied, emptiedHeader, _, flushed, lastBody⟩ := flushBuffer_context hashKey middle
      obtain ⟨after, put, same, _, headers, published, header⟩ :=
        flushHeader_posted hashKey emptied
      refine ⟨after, puts ++ ([.body (cache.orderKey hashKey middle.order) ⟨middle.buffer⟩] ++
        [put]), ?_, ?_, ?_⟩
      · rw [HazelcastInsertContext.insertBody, looped]
        simp only [bind, Except.bind]
        rw [flushed]
        simp only
        rw [published]
        rfl
      · have all := arrived.trans (lastBody.trans header)
        rwa [List.append_nil, List.append_nil] at all
      · intro calls
        rw [headersPut_append, headersPut_append, headers, noHeaders, same, emptiedHeader,
          sameHeader]
        rfl

theorem call_posted (call : InsertCall) :
    ∃ after : Progress cache, ∃ puts,
      (progress.context hashKey).call call =
        HazelcastInsertContext.posted (after.context hashKey, puts) ∧
      Posted hashKey progress call.bytes after puts ∧
      ∀ calls, endings progress.header.headerMapPtr (call :: calls) =
        headersPut puts ++ endings after.header.headerMapPtr calls := by
  cases call with
  | headers responseHeaders endStream =>
      obtain ⟨after, puts, called, rest⟩ :=
        insertHeaders_posted hashKey progress responseHeaders endStream
      exact ⟨after, puts, congrArg HazelcastInsertContext.posted called, rest⟩
  | body chunk endStream =>
      obtain ⟨after, puts, called, rest⟩ := insertBody_posted hashKey progress chunk endStream
      refine ⟨after, puts, ?_, rest⟩
      rw [HazelcastInsertContext.call, called]
      rfl

theorem callAll_posted (calls : List InsertCall) :
    (none ∈ endings progress.header.headerMapPtr calls →
      (progress.context hashKey).callAll calls = .error .nullDereference) ∧
    (none ∉ endings progress.header.headerMapPtr calls →
      ∃ after : Progress cache, ∃ puts,
        (progress.context hashKey).callAll calls = .ok (after.context hashKey, puts) ∧
        Posted hashKey progress (calls.flatMap InsertCall.bytes) after puts ∧
        headersPut puts = endings progress.header.headerMapPtr calls) := by
  induction calls generalizing progress with
  | nil =>
      constructor
      · intro absent
        cases absent
      · exact fun _ => ⟨progress, [], rfl, .refl progress, rfl⟩
  | cons call calls ih =>
      obtain ⟨middle, puts, called, posted, headers⟩ := call_posted hashKey progress call
      obtain ⟨failsLater, worksLater⟩ := ih middle
      rw [headers, List.mem_append, HazelcastInsertContext.callAll, called,
        HazelcastInsertContext.posted]
      by_cases headless : none ∈ headersPut puts
      · rw [if_pos ((any_headless_iff puts).mpr headless)]
        exact ⟨fun _ => rfl, fun known => absurd (Or.inl headless) known⟩
      · rw [if_neg (fun found => headless ((any_headless_iff puts).mp found))]
        simp only [headless, false_or, bind, Except.bind]
        constructor
        · intro later
          rw [failsLater later]
        · intro known
          obtain ⟨after, later, calledLater, postedLater, headersLater⟩ := worksLater known
          refine ⟨after, puts ++ later, ?_, posted.trans postedLater, ?_⟩
          · rw [calledLater]
          · rw [headersPut_append, headersLater]

end Calls

end Progress

/-- An insert context never loses, repeats or reorders a byte and never leaves a chunk or its
buffer, whatever calls are made on it. However many bytes arrive in however many chunks, and
whichever calls carry `end_stream`: what the body entries hold, in the order of their puts,
followed by what the buffer holds back, is what has arrived. The entries are numbered without a
gap, none exceeds a partition, and each header entry carries the headers given last and counts
exactly the bytes in the body entries put before it, modulo `2^64`. The one exception is a
stream that ends before any headers were given: serializing its header entry follows a null
pointer. -/
theorem insert_calls_accounted (cache : HazelcastHttpCache)
    (lookupContext : HazelcastLookupContext) (calls : List InsertCall) :
    (none ∈ endings none calls →
      (cache.makeInsertContext lookupContext).callAll calls = .error .nullDereference) ∧
    (none ∉ endings none calls → ∃ context puts,
      (cache.makeInsertContext lookupContext).callAll calls = .ok (context, puts) ∧
      flushedBytes puts ++ context.bufferVector = calls.flatMap InsertCall.bytes ∧
      context.bufferVector.length < cache.partition ∧
      Ledger cache lookupContext.hashKey 0 0 puts ∧
      headersPut puts = endings none calls) := by
  have start : cache.makeInsertContext lookupContext =
      Progress.context lookupContext.hashKey ⟨⟨none, 0⟩, 0, 0, [], cache.partition_pos⟩ := by
    simp [HazelcastHttpCache.makeInsertContext, Progress.context, ofNat_partition]
  obtain ⟨fails, works⟩ := Progress.callAll_posted lookupContext.hashKey
    ⟨⟨none, 0⟩, 0, 0, [], cache.partition_pos⟩ calls
  rw [start]
  refine ⟨fails, fun known => ?_⟩
  obtain ⟨after, puts, called, posted, headers⟩ := works known
  exact ⟨_, puts, called, posted.bytes, after.short, posted.ledger, headers⟩

theorem insert_calls_accounted_restarted :
    let cache : HazelcastHttpCache := ⟨{ bodyPartitionSize := 2 }⟩
    let calls : List InsertCall :=
      [.body ⟨[5, 6, 7], by decide⟩ false, .headers [] true, .body ⟨[8], by decide⟩ true]
    ∃ context puts, (cache.makeInsertContext ⟨cache, 17, none⟩).callAll calls =
        .ok (context, puts) ∧
      flushedBytes puts ++ context.bufferVector = [5, 6, 7, 8] ∧
      puts = [.body (cache.bodyKey 17 0) ⟨[5, 6]⟩, .header (cache.headerKey 17) ⟨some [], 2⟩,
        .body (cache.bodyKey 17 1) ⟨[7, 8]⟩, .body (cache.bodyKey 17 2) ⟨[]⟩,
        .header (cache.headerKey 17) ⟨some [], 4⟩] := by
  intro cache calls
  obtain ⟨context, puts, called, bytes, _⟩ :=
    (insert_calls_accounted cache ⟨cache, 17, none⟩ calls).2 (by decide)
  have emitted : ((cache.makeInsertContext ⟨cache, 17, none⟩).callAll calls).map Prod.snd =
      .ok [.body (cache.bodyKey 17 0) ⟨[5, 6]⟩, .header (cache.headerKey 17) ⟨some [], 2⟩,
        .body (cache.bodyKey 17 1) ⟨[7, 8]⟩, .body (cache.bodyKey 17 2) ⟨[]⟩,
        .header (cache.headerKey 17) ⟨some [], 4⟩] := by
    decide
  rw [called] at emitted
  exact ⟨context, puts, called, bytes, Except.ok.inj emitted⟩

end HazelcastCache
