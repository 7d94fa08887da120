import HazelcastCache.Entries
import HazelcastCache.Library.Codec

/-! How the entries are written to the client's stream and read back. -/

namespace HazelcastCache

open Library Codec

/-- What can stop `readData` or `writeData`: an exception of the client, with its source and
message, or a null pointer that the entry follows. -/
inductive StreamError where
  | exception (source message : String)
  | nullDereference
  deriving DecidableEq, Repr

/-- The scalar operations of `ObjectDataOutput` and `ObjectDataInput`, whose code is in the
client library. -/
structure DataStream where
  writeInt : Int32 → Bytes
  writeLong : Int64 → Bytes
  writeChar : UInt8 → Bytes
  writeByte : UInt8 → Bytes
  readInt : Decoder UInt8 StreamError Int32
  readLong : Decoder UInt8 StreamError Int64
  readChar : Decoder UInt8 StreamError UInt8
  readByte : Decoder UInt8 StreamError UInt8

structure DataStream.Lawful (stream : DataStream) : Prop where
  int : ∀ value, Reads stream.readInt (stream.writeInt value) value
  long : ∀ value, Reads stream.readLong (stream.writeLong value) value
  char : ∀ value, Reads stream.readChar (stream.writeChar value) value
  byte : ∀ value, Reads stream.readByte (stream.writeByte value) value

def nullArray : Int32 := -1

namespace DataStream

variable (stream : DataStream) {T : Type}

/-- `DataOutput::writeArray`; `none` is a null pointer. The length is cast to `int32_t`. -/
def writeArray (write : T → Bytes) (data : Option (List T)) : Bytes :=
  let len : Int32 := match data with
    | none => nullArray
    | some values => Int32.ofNat values.length
  stream.writeInt len ++
    if 0 < len then ((data.getD []).take len.toNatClampNeg).flatMap write else []

def readArray (read : Decoder UInt8 StreamError T) :
    Decoder UInt8 StreamError (Option (List T)) := do
  let len ← stream.readInt
  if len = nullArray then pure none
  else if len = 0 then pure (some [])
  else if len < 0 then
    throw (.exception "DataInput::readArray"
      ("Incorrect negative array size found in the byte stream. The size is: " ++ toString len))
  else do
    let values ← repeated read len.toNatClampNeg
    pure (some values)

def writeCharArray (data : Option Bytes) : Bytes := stream.writeArray stream.writeChar data

def readCharArray : Decoder UInt8 StreamError (Option Bytes) := stream.readArray stream.readChar

def writeByteArray (data : Option Bytes) : Bytes := stream.writeArray stream.writeByte data

def readByteArray : Decoder UInt8 StreamError (Option Bytes) := stream.readArray stream.readByte

theorem reads_array (lawful : stream.Lawful) (write : T → Bytes)
    (read : Decoder UInt8 StreamError T) (each : ∀ value, Reads read (write value) value)
    (values : List T) (short : values.length < 2 ^ 31) :
    Reads (stream.readArray read) (stream.writeArray write (some values)) (some values) := by
  have number := Int32.toInt_ofNat_of_lt short
  have count := Int32.toNatClampNeg_ofNat_of_lt short
  have notNull : Int32.ofNat values.length ≠ nullArray := by
    intro same
    rw [same] at number
    have negative : nullArray.toInt = -1 := by decide
    omega
  apply (lawful.int _).bind
  rw [if_neg notNull]
  cases values with
  | nil => exact reads_pure (some [])
  | cons value values =>
      have positive : 0 < Int32.ofNat (value :: values).length := by
        rw [Int32.lt_iff_toInt_lt, number]
        change (0 : Int) < _
        simp
      have nonzero : Int32.ofNat (value :: values).length ≠ 0 := fun zero => by
        rw [zero] at positive
        exact absurd positive (by decide)
      have notNegative : ¬ Int32.ofNat (value :: values).length < 0 := by
        rw [Int32.lt_iff_toInt_lt] at positive ⊢
        omega
      rw [if_neg nonzero, if_neg notNegative, if_pos positive, count, Option.getD_some,
        List.take_length]
      exact (reads_repeated read write (value :: values) (fun next _ => each next)).map some

end DataStream

section Entries

variable (stream : DataStream)

def follow {T : Type} : Option T → Decoder UInt8 StreamError T
  | none => throw .nullDereference
  | some value => pure value

def writeHeader (header : HeaderField) : Bytes :=
  stream.writeCharArray (some header.key) ++ stream.writeCharArray (some header.value)

def HazelcastHeaderEntry.writeData (entry : HazelcastHeaderEntry) : Except StreamError Bytes :=
  match entry.headerMapPtr with
  | none => .error .nullDereference
  | some headers => .ok (stream.writeInt (Int32.ofNat headers.length) ++
      (headers.flatMap (writeHeader stream) ++ stream.writeLong entry.totalBodySize.toInt64))

def readHeaders : Nat → HeaderMapImpl → Decoder UInt8 StreamError HeaderMapImpl
  | 0, headers => pure headers
  | count + 1, headers => do
      let keyPtr ← stream.readCharArray
      let key ← follow keyPtr
      let valuePtr ← stream.readCharArray
      let value ← follow valuePtr
      readHeaders count (headers ++ [⟨key, value⟩])

/-- A count that is not positive skips the loop. -/
def HazelcastHeaderEntry.readData : Decoder UInt8 StreamError HazelcastHeaderEntry := do
  let headersSize ← stream.readInt
  let headers ← readHeaders stream headersSize.toNatClampNeg []
  let totalBodySize ← stream.readLong
  pure ⟨some headers, totalBodySize.toUInt64⟩

def HazelcastBodyEntry.writeData (entry : HazelcastBodyEntry) : Bytes :=
  stream.writeByteArray (some entry.bodyBuffer)

def HazelcastBodyEntry.readData : Decoder UInt8 StreamError HazelcastBodyEntry := do
  let bufferPtr ← stream.readByteArray
  let buffer ← follow bufferPtr
  pure ⟨buffer⟩

/-- The entry has its headers, and no size in it overflows an `int32_t`. -/
structure HazelcastHeaderEntry.Storable (entry : HazelcastHeaderEntry) : Prop where
  headers : entry.headerMapPtr.isSome
  few : ∀ headers, entry.headerMapPtr = some headers → headers.length < 2 ^ 31
  short : ∀ headers, entry.headerMapPtr = some headers → ∀ header ∈ headers,
    header.key.length < 2 ^ 31 ∧ header.value.length < 2 ^ 31

variable {stream} (lawful : stream.Lawful)

include lawful

theorem reads_charArray (bytes : Bytes) (short : bytes.length < 2 ^ 31) :
    Reads stream.readCharArray (stream.writeCharArray (some bytes)) (some bytes) :=
  stream.reads_array lawful stream.writeChar stream.readChar lawful.char bytes short

theorem reads_headers (headers done : HeaderMapImpl)
    (short : ∀ header ∈ headers, header.key.length < 2 ^ 31 ∧ header.value.length < 2 ^ 31) :
    Reads (readHeaders stream headers.length done) (headers.flatMap (writeHeader stream))
      (done ++ headers) := by
  induction headers generalizing done with
  | nil =>
      rw [List.append_nil]
      exact reads_pure done
  | cons header headers ih =>
      rcases short header List.mem_cons_self with ⟨shortKey, shortValue⟩
      have later := ih (done ++ [header]) (fun next member =>
        short next (List.mem_cons_of_mem _ member))
      rw [List.append_assoc, List.singleton_append] at later
      have key := reads_charArray lawful header.key shortKey
      have value := reads_charArray lawful header.value shortValue
      rw [List.flatMap_cons, writeHeader, List.append_assoc]
      exact key.bind ((reads_pure header.key).bind
        (value.bind ((reads_pure header.value).bind later)))

theorem reads_headerEntry (headers : HeaderMapImpl) (totalBodySize : UInt64)
    (few : headers.length < 2 ^ 31)
    (short : ∀ header ∈ headers, header.key.length < 2 ^ 31 ∧ header.value.length < 2 ^ 31) :
    ∃ bytes, HazelcastHeaderEntry.writeData stream ⟨some headers, totalBodySize⟩ = .ok bytes ∧
      Reads (HazelcastHeaderEntry.readData stream) bytes ⟨some headers, totalBodySize⟩ := by
  have size := (lawful.long totalBodySize.toInt64).map
    (fun size => (⟨some headers, size.toUInt64⟩ : HazelcastHeaderEntry))
  refine ⟨_, rfl, (lawful.int _).bind ?_⟩
  rw [Int32.toNatClampNeg_ofNat_of_lt few]
  exact (reads_headers lawful headers [] short).bind size

end Entries

/-- Header entries survive serialization: `readData` gives back what `writeData` was given and
leaves the rest of the stream unread, so no two entries are written alike. -/
theorem header_entry_round_trip (stream : DataStream) (lawful : stream.Lawful) :
    (∀ entry : HazelcastHeaderEntry, entry.Storable →
      ∃ bytes, entry.writeData stream = .ok bytes ∧
        ∀ rest, (HazelcastHeaderEntry.readData stream).run (bytes ++ rest) = .ok (entry, rest)) ∧
    ∀ first second : HazelcastHeaderEntry, first.Storable → second.Storable →
      first.writeData stream = second.writeData stream → first = second := by
  have read : ∀ entry : HazelcastHeaderEntry, entry.Storable →
      ∃ bytes, entry.writeData stream = .ok bytes ∧
        Reads (HazelcastHeaderEntry.readData stream) bytes entry := by
    intro entry storable
    cases entry with
    | mk headerMapPtr totalBodySize =>
        rcases Option.isSome_iff_exists.mp storable.headers with ⟨headers, rfl⟩
        exact reads_headerEntry lawful headers totalBodySize (storable.few headers rfl)
          (storable.short headers rfl)
  refine ⟨read, ?_⟩
  intro first second storable otherStorable same
  rcases read first storable with ⟨bytes, written, reads⟩
  rcases read second otherStorable with ⟨otherBytes, otherWritten, otherReads⟩
  have alike : bytes = otherBytes := by
    apply Except.ok.inj (ε := StreamError)
    calc
      .ok bytes = first.writeData stream := written.symm
      _ = second.writeData stream := same
      _ = .ok otherBytes := otherWritten
  rw [← alike] at otherReads
  exact reads.unique otherReads

/-- The client's stream in network byte order, with two bytes for a `char`. -/
def bigEndianStream : DataStream where
  writeInt value := bigEndian 4 value.toUInt32.toNat
  writeLong value := bigEndian 8 value.toUInt64.toNat
  writeChar value := bigEndian 2 ((if value < 128 then 0 else 255) * 256 + value.toNat)
  writeByte value := bigEndian 1 value.toNat
  readInt := word 4 endOfInput >>= fun value => pure (UInt32.ofNat value).toInt32
  readLong := word 8 endOfInput >>= fun value => pure (UInt64.ofNat value).toInt64
  readChar := word 2 endOfInput >>= fun value => pure (UInt8.ofNat value)
  readByte := word 1 endOfInput >>= fun value => pure (UInt8.ofNat value)
where
  endOfInput : StreamError := .exception "DataInput::checkAvailable" "end of input"

theorem bigEndianStream_lawful : bigEndianStream.Lawful where
  int value := by
    have reads := (reads_word 4 value.toUInt32.toNat bigEndianStream.endOfInput
      value.toUInt32.toNat_lt).map (fun value => (UInt32.ofNat value).toInt32)
    rwa [UInt32.ofNat_toNat, Int32.toInt32_toUInt32] at reads
  long value := by
    have reads := (reads_word 8 value.toUInt64.toNat bigEndianStream.endOfInput
      value.toUInt64.toNat_lt).map (fun value => (UInt64.ofNat value).toInt64)
    rwa [UInt64.ofNat_toNat, Int64.toInt64_toUInt64] at reads
  char value := by
    have low := value.toNat_lt
    have high : (if value < 128 then 0 else 255) ≤ 255 := by split <;> decide
    have reads := (reads_word 2 ((if value < 128 then 0 else 255) * 256 + value.toNat)
      bigEndianStream.endOfInput (by omega)).map UInt8.ofNat
    have kept : UInt8.ofNat ((if value < 128 then 0 else 255) * 256 + value.toNat) = value := by
      rw [← UInt8.toNat_inj, UInt8.toNat_ofNat']
      omega
    rwa [kept] at reads
  byte value := by
    have reads := (reads_word 1 value.toNat bigEndianStream.endOfInput value.toNat_lt).map
      UInt8.ofNat
    rwa [UInt8.ofNat_toNat] at reads

theorem header_entry_round_trip_repeated :
    let entry : HazelcastHeaderEntry :=
      ⟨some [⟨[97], [98, 200]⟩, ⟨[97], []⟩], 18446744073709551615⟩
    entry.Storable ∧ ∃ bytes, entry.writeData bigEndianStream = .ok bytes ∧
      ∀ rest, (HazelcastHeaderEntry.readData bigEndianStream).run (bytes ++ rest) =
        .ok (entry, rest) := by
  intro entry
  have storable : entry.Storable := by
    refine ⟨rfl, ?_, ?_⟩
    · intro headers same
      cases same
      decide
    · intro headers same
      cases same
      decide
  exact ⟨storable, (header_entry_round_trip bigEndianStream bigEndianStream_lawful).1 entry
    storable⟩

/-! The copy constructor that the client needs for its Near Cache. -/

def HazelcastHeaderEntry.addViaMove (entry : HazelcastHeaderEntry) (header : HeaderField) :
    Except Fault HazelcastHeaderEntry :=
  match entry.headerMapPtr with
  | none => .error .nullDereference
  | some headers => .ok { entry with headerMapPtr := some (headers ++ [header]) }

/-- The new entry's pointer is null when the iteration over the other entry begins. -/
def HazelcastHeaderEntry.copy (other : HazelcastHeaderEntry) :
    Except Fault HazelcastHeaderEntry :=
  match other.headerMapPtr with
  | none => .error .nullDereference
  | some headers =>
      headers.foldlM (fun entry header => entry.addViaMove ⟨header.key, header.value⟩)
        ⟨none, other.totalBodySize⟩

/-- A copy of a header entry never has its headers: with any header the constructor follows
its own null pointer, and with none the copy is left without a map, so that writing it fails. -/
theorem header_copy_unfaithful (stream : DataStream) (headers : HeaderMapImpl)
    (totalBodySize : UInt64) :
    let entry : HazelcastHeaderEntry := ⟨some headers, totalBodySize⟩
    entry.copy = (if headers = [] then .ok ⟨none, totalBodySize⟩ else .error .nullDereference) ∧
      ¬ ∃ copy, entry.copy = .ok copy ∧ copy.headerMapPtr = entry.headerMapPtr ∧
        copy.totalBodySize = entry.totalBodySize ∧
        copy.writeData stream = entry.writeData stream := by
  intro entry
  cases headers with
  | nil =>
      refine ⟨rfl, ?_⟩
      intro faithful
      rcases faithful with ⟨copy, copied, same, _⟩
      cases copied
      cases same
  | cons header headers =>
      refine ⟨rfl, ?_⟩
      intro faithful
      rcases faithful with ⟨copy, copied, _⟩
      cases copied

theorem header_copy_dereferences_null :
    let entry : HazelcastHeaderEntry := ⟨some [⟨[97], [98]⟩], 3⟩
    entry.copy = .error .nullDereference ∧ (∃ bytes, entry.writeData bigEndianStream = .ok bytes) :=
  ⟨rfl, _, rfl⟩

end HazelcastCache
