import HazelcastCache.LookupContext

/-! `HazelcastInsertContext`: buffering a response and putting it into the maps.

An insert context only ever puts, so each method returns the puts it makes, in order,
with the next state of the context. The callback that asks the filter for the next chunk
is left out. -/

namespace HazelcastCache

open Library

/-- `bodyPartitionSize` is a reference to the cache's field. `header` has no meaningful
size before `flushHeader`. -/
structure HazelcastInsertContext where
  hzCache : HazelcastHttpCache
  header : HazelcastHeaderEntry
  bodyOrder : Int32
  hashKey : UInt64
  availableBufferBytes : UInt64
  totalBodySize : UInt64
  bufferVector : Bytes
  deriving DecidableEq, Repr

def HazelcastHttpCache.makeInsertContext (cache : HazelcastHttpCache)
    (lookupContext : HazelcastLookupContext) : HazelcastInsertContext where
  hzCache := cache
  header := ⟨none, 0⟩
  bodyOrder := 0
  hashKey := lookupContext.hashKey
  availableBufferBytes := cache.bodySizePerEntry
  totalBodySize := 0
  bufferVector := []

def resize (vector : Bytes) (size : UInt64) : Bytes :=
  vector.take size.toNat ++ List.replicate (size.toNat - vector.length) 0

/-- `Buffer::Instance::copyOut` into `vector.data() + offset`. -/
def copyOut (source : Buffer) (start size : UInt64) (vector : Bytes) (offset : UInt64) :
    Except Fault Bytes :=
  if start.toNat + size.toNat ≤ source.bytes.length ∧
      offset.toNat + size.toNat ≤ vector.length then
    .ok (vector.take offset.toNat ++
      source.bytes.extract start.toNat (start.toNat + size.toNat) ++
      vector.drop (offset.toNat + size.toNat))
  else .error .outOfBounds

namespace HazelcastInsertContext

def bodyPartitionSize (context : HazelcastInsertContext) : UInt64 :=
  context.hzCache.bodySizePerEntry

/-- The second component is the new value of the index passed by reference. -/
def copyIntoLocalBuffer (context : HazelcastInsertContext) (index size : UInt64)
    (source : Buffer) : Except Fault (HazelcastInsertContext × UInt64) := do
  let bufferSize := context.bodyPartitionSize - context.availableBufferBytes
  let resized := resize context.bufferVector
    (UInt64.ofNat context.bufferVector.length + size)
  let copied ← copyOut source index size resized bufferSize
  .ok ({ context with bufferVector := copied }, index + size)

def flushBuffer (context : HazelcastInsertContext) : HazelcastInsertContext × Put :=
  let bufferSize := context.bodyPartitionSize - context.availableBufferBytes
  ({ context with
      totalBodySize := context.totalBodySize + bufferSize
      bufferVector := []
      bodyOrder := context.bodyOrder + 1
      availableBufferBytes := context.bodyPartitionSize },
    context.hzCache.insertBody (toString context.hashKey ++ toString context.bodyOrder)
      ⟨context.bufferVector⟩)

def flushHeader (context : HazelcastInsertContext) : HazelcastInsertContext × Put :=
  let header := { context.header with totalBodySize := context.totalBodySize }
  ({ context with header := header }, context.hzCache.insertHeader context.hashKey header)

def insertHeaders (context : HazelcastInsertContext) (responseHeaders : HeaderMapImpl)
    (endStream : Bool) : HazelcastInsertContext × List Put :=
  let context := { context with
    header := { context.header with headerMapPtr := some responseHeaders } }
  if endStream then
    let (context, put) := context.flushHeader
    (context, [put])
  else (context, [])

/-- The local variables of `insertBody` between two iterations. -/
structure ChunkCursor where
  localChunkIndex : UInt64
  remainingChunkSize : UInt64
  deriving DecidableEq, Repr

def insertBodyIteration (context : HazelcastInsertContext) (chunk : Buffer)
    (cursor : ChunkCursor) :
    Except Fault (HazelcastInsertContext × ChunkCursor × List Put) :=
  if context.availableBufferBytes ≤ cursor.remainingChunkSize then do
    let (context, index) ← context.copyIntoLocalBuffer cursor.localChunkIndex
      context.availableBufferBytes chunk
    let remaining := cursor.remainingChunkSize - context.availableBufferBytes
    let (context, put) := { context with availableBufferBytes := 0 }.flushBuffer
    .ok (context, ⟨index, remaining⟩, [put])
  else do
    let (context, index) ← context.copyIntoLocalBuffer cursor.localChunkIndex
      cursor.remainingChunkSize chunk
    let available := context.availableBufferBytes - cursor.remainingChunkSize
    .ok ({ context with availableBufferBytes := available }, ⟨index, 0⟩, [])

def insertBodyLoop (chunk : Buffer) :
    Nat → HazelcastInsertContext → ChunkCursor →
      Except Fault (HazelcastInsertContext × List Put)
  | 0, context, cursor =>
      if cursor.remainingChunkSize = 0 then .ok (context, []) else .error .endlessLoop
  | fuel + 1, context, cursor =>
      if cursor.remainingChunkSize = 0 then .ok (context, [])
      else do
        let (context, cursor, puts) ← context.insertBodyIteration chunk cursor
        let (context, later) ← insertBodyLoop chunk fuel context cursor
        .ok (context, puts ++ later)

/-- Every iteration but the first copies at least one byte if the partition size is
positive, so a loop that outlasts the chunk's length plus one never ends. -/
def insertBody (context : HazelcastInsertContext) (chunk : Buffer) (endStream : Bool) :
    Except Fault (HazelcastInsertContext × List Put) := do
  let (context, puts) ← insertBodyLoop chunk (chunk.bytes.length + 1) context
    ⟨0, chunk.length⟩
  if endStream then
    -- The header goes last, when the total body size is known.
    let (context, lastBody) := context.flushBuffer
    let (context, header) := context.flushHeader
    .ok (context, puts ++ [lastBody, header])
  else .ok (context, puts)

def insertBodies (context : HazelcastInsertContext) :
    List Buffer → Except Fault (HazelcastInsertContext × List Put)
  | [] => .ok (context, [])
  | [chunk] => context.insertBody chunk true
  | chunk :: chunks => do
      let (context, puts) ← context.insertBody chunk false
      let (context, later) ← insertBodies context chunks
      .ok (context, puts ++ later)

end HazelcastInsertContext

/-- What a filter hands to one insert context. Without chunks the response is header-only
and `insertHeaders` ends the stream. The body size fits the `uint64_t` that records it. -/
structure Insert where
  headers : HeaderMapImpl
  chunks : List Buffer
  size_lt : (chunks.flatMap Buffer.bytes).length < 2 ^ 64

def Insert.body (insert : Insert) : Bytes := insert.chunks.flatMap Buffer.bytes

/-- All puts of a complete insert under `hashKey`, in order. -/
def Insert.puts (insert : Insert) (cache : HazelcastHttpCache) (hashKey : UInt64) :
    Except Fault (List Put) :=
  let context := cache.makeInsertContext ⟨cache, hashKey, none⟩
  match insert.chunks with
  | [] => .ok (context.insertHeaders insert.headers true).2
  | chunks => do
      let (context, puts) := context.insertHeaders insert.headers false
      let (_, later) ← context.insertBodies chunks
      .ok (puts ++ later)

end HazelcastCache
