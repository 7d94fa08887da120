import HazelcastCache.PartitionRoundTrip

/-! Entries and keys as the `Data` values that the client exchanges with the cluster.

A value is written as a partition hash, the id of its serializer and what that serializer
writes; for an entry of the cache these are the ids of its factory and its class and the bytes
of `writeData`. Reading goes by these ids: the type that the caller asks for decides nothing as
long as the factory is known. -/

namespace HazelcastCache

open Library Codec

abbrev Data := Bytes

inductive EntryKind where
  | body
  | header
  deriving DecidableEq, Repr

inductive CacheEntry where
  | body (entry : HazelcastBodyEntry)
  | header (entry : HazelcastHeaderEntry)
  deriving DecidableEq, Repr

def CacheEntry.kind : CacheEntry → EntryKind
  | .body _ => .body
  | .header _ => .header

def hazelcastBodyTypeId : Int32 := 100

def hazelcastHeaderTypeId : Int32 := 101

def hazelcastEntrySerializerFactoryId : Int32 := 1000

def EntryKind.getClassId : EntryKind → Int32
  | .body => hazelcastBodyTypeId
  | .header => hazelcastHeaderTypeId

/-- The class of the new object, or `none` for a null pointer. -/
def HazelcastCacheEntrySerializableFactory.create (classId : Int32) : Option EntryKind :=
  if classId = hazelcastBodyTypeId then some .body
  else if classId = hazelcastHeaderTypeId then some .header
  else none

def dataSerializableFactories (factoryId : Int32) : Option (Int32 → Option EntryKind) :=
  if factoryId = hazelcastEntrySerializerFactoryId then
    some HazelcastCacheEntrySerializableFactory.create
  else none

/-- What can come of reading an object: the stream fails, or the pointer that is returned leads
to an object of another class. -/
inductive ObjectError where
  | stream (error : StreamError)
  | wrongClass
  deriving DecidableEq, Repr

def constantTypeData : Int32 := -2

def constantTypeLong : Int32 := -8

def constantTypeString : Int32 := -11

/-- The parts of the client's serialization whose code is in its library: the accessors of
`Data`, what `DataSerializer::write` puts before the object's own bytes, the check with which
its reading begins, the serializers of the two key types, and all that reads a value with the
serializer of another type. -/
structure SerializationService extends DataStream where
  getType : Data → Int32
  isNullData : Data → Bool
  writeIdentification : Int32 → Int32 → Bytes
  checkIfIdentifiedDataSerializable : Decoder UInt8 StreamError Unit
  writeLongKey : Int64 → Bytes
  writeStringKey : String → Bytes
  readOther : EntryKind → Int32 → Data → Except ObjectError (Option CacheEntry)

section Entries

variable (stream : DataStream)

def CacheEntry.writeData : CacheEntry → Except StreamError Bytes
  | .body entry => .ok (entry.writeData stream)
  | .header entry => entry.writeData stream

def EntryKind.readData : EntryKind → Decoder UInt8 StreamError CacheEntry
  | .body => HazelcastBodyEntry.readData stream >>= fun entry => pure (.body entry)
  | .header => HazelcastHeaderEntry.readData stream >>= fun entry => pure (.header entry)

end Entries

namespace SerializationService

variable (service : SerializationService)

/-- `toData` of a value whose serializer has the given id and writes `payload`. No entry and
no key is partition aware, so the hash is zero. -/
def toData (typeId : Int32) (payload : Bytes) : Data :=
  service.writeInt 0 ++ (service.writeInt typeId ++ payload)

def headerKeyData (key : Int64) : Data :=
  service.toData constantTypeLong (service.writeLongKey key)

def bodyKeyData (key : String) : Data :=
  service.toData constantTypeString (service.writeStringKey key)

def entryData (entry : CacheEntry) : Except StreamError Data := do
  let bytes ← entry.writeData service.toDataStream
  .ok (service.toData constantTypeData
    (service.writeIdentification hazelcastEntrySerializerFactoryId entry.kind.getClassId ++ bytes))

def readIdentification : Decoder UInt8 StreamError (Int32 × Int32) := do
  service.checkIfIdentifiedDataSerializable
  let factoryId ← service.readInt
  let classId ← service.readInt
  pure (factoryId, classId)

/-- The object that the ids stand for, read from the stream. A factory that does not know the
class gives a null pointer, whose `readData` is called all the same; without a factory an
object of the expected class is read. -/
def readIdentified (expected : EntryKind) (factoryId classId : Int32) :
    Decoder UInt8 StreamError CacheEntry :=
  match dataSerializableFactories factoryId with
  | some create =>
      match create classId with
      | some created => created.readData service.toDataStream
      | none => throw .nullDereference
  | none => expected.readData service.toDataStream

def readObject (expected : EntryKind) : Decoder UInt8 StreamError CacheEntry :=
  service.readIdentification >>= fun ids => service.readIdentified expected ids.1 ids.2

/-- `SerializationService::toObject`; `none` is the null pointer. The payload starts at
`Data::DATA_OFFSET`, and what is left of it after reading is ignored. -/
def toObject (expected : EntryKind) (data : Data) : Except ObjectError (Option CacheEntry) :=
  if service.isNullData data then .ok none
  else if service.getType data = constantTypeData then
    match (service.readObject expected).run (data.drop 8) with
    | .ok (entry, _) => if entry.kind = expected then .ok (some entry) else .error .wrongClass
    | .error error => .error (.stream error)
  else service.readOther expected (service.getType data) data

/-- What the code relies on: `Data` finds the id that was written after the hash, an id takes
four bytes, the ids of factory and class are read back, and different keys of one type are
written differently. -/
structure Lawful : Prop where
  stream : service.toDataStream.Lawful
  width : ∀ value, (service.writeInt value).length = 4
  type : ∀ typeId payload, service.getType (service.toData typeId payload) = typeId
  present : ∀ typeId payload, typeId ≠ 0 → service.isNullData (service.toData typeId payload) = false
  identification : ∀ factoryId classId, Reads service.readIdentification
    (service.writeIdentification factoryId classId) (factoryId, classId)
  longKey : Function.Injective service.writeLongKey
  stringKey : Function.Injective service.writeStringKey

end SerializationService

def CacheEntry.Storable : CacheEntry → Prop
  | .body entry => entry.bodyBuffer.length < 2 ^ 31
  | .header entry => entry.Storable

theorem HazelcastHeaderEntry.storable_some (headers : HeaderMapImpl) (size : UInt64)
    (few : headers.length < 2 ^ 31)
    (short : ∀ header ∈ headers, header.key.length < 2 ^ 31 ∧ header.value.length < 2 ^ 31) :
    HazelcastHeaderEntry.Storable ⟨some headers, size⟩ := by
  refine ⟨rfl, ?_, ?_⟩
  · intro present same
    cases same
    exact few
  · intro present same
    cases same
    exact short

section RoundTrip

theorem create_getClassId (kind : EntryKind) :
    HazelcastCacheEntrySerializableFactory.create kind.getClassId = some kind := by
  cases kind <;> rfl

theorem CacheEntry.reads_readData {stream : DataStream} (lawful : stream.Lawful)
    (entry : CacheEntry) (storable : entry.Storable) :
    ∃ bytes, entry.writeData stream = .ok bytes ∧
      Reads (entry.kind.readData stream) bytes entry := by
  cases entry with
  | body entry =>
      have reads : Reads (HazelcastBodyEntry.readData stream) (entry.writeData stream) entry :=
        fun rest => (body_entry_round_trip_iff stream lawful entry rest).mpr storable
      exact ⟨_, rfl, reads.map CacheEntry.body⟩
  | header entry =>
      obtain ⟨headerMapPtr, totalBodySize⟩ := entry
      obtain ⟨headers, rfl⟩ := Option.isSome_iff_exists.mp storable.headers
      obtain ⟨bytes, written, reads⟩ := reads_headerEntry lawful headers totalBodySize
        (storable.few headers rfl) (storable.short headers rfl)
      exact ⟨bytes, written, reads.map CacheEntry.header⟩

namespace SerializationService

variable {service : SerializationService} (lawful : service.Lawful)

include lawful

theorem drop_toData (typeId : Int32) (payload : Bytes) :
    (service.toData typeId payload).drop 8 = payload := by
  have hash := lawful.width 0
  have typed := lawful.width typeId
  rw [toData, ← List.append_assoc, List.drop_left' (by rw [List.length_append, hash, typed])]

theorem toObject_entryData (entry : CacheEntry) (storable : entry.Storable) :
    ∃ data, service.entryData entry = .ok data ∧
      service.toObject entry.kind data = .ok (some entry) := by
  obtain ⟨bytes, written, reads⟩ := entry.reads_readData lawful.stream storable
  refine ⟨_, by rw [entryData, written]; rfl, ?_⟩
  have whole := reads []
  rw [List.append_nil] at whole
  rw [toObject, lawful.present _ _ (by decide), lawful.type, drop_toData lawful, readObject,
    (lawful.identification _ _).run_bind]
  simp [readIdentified, dataSerializableFactories, create_getClassId, whole]

theorem typeId_of_toData_eq {first second : Int32} {payload other : Bytes}
    (same : service.toData first payload = service.toData second other) : first = second := by
  rw [← lawful.type first payload, same, lawful.type]

theorem toData_injective (typeId : Int32) : Function.Injective (service.toData typeId) := by
  intro payload other same
  rw [← drop_toData lawful typeId payload, same, drop_toData lawful]

theorem headerKeyData_injective : Function.Injective service.headerKeyData := by
  intro first second same
  exact lawful.longKey (toData_injective lawful _ same)

theorem bodyKeyData_injective : Function.Injective service.bodyKeyData := by
  intro first second same
  exact lawful.stringKey (toData_injective lawful _ same)

theorem headerKeyData_ne_bodyKeyData (key : Int64) (other : String) :
    service.headerKeyData key ≠ service.bodyKeyData other := by
  intro same
  exact absurd (typeId_of_toData_eq lawful same) (by decide)

end SerializationService

end RoundTrip

/-- The service over the stream in network byte order: the ids of factory and class after a
flag, strings in UTF-8 after their length. -/
def bigEndianService : SerializationService where
  toDataStream := bigEndianStream
  getType := typeOf
  isNullData data := typeOf data = 0 ∧ data.length ≤ 8
  writeIdentification factoryId classId :=
    bigEndian 1 1 ++ (bigEndianStream.writeInt factoryId ++ bigEndianStream.writeInt classId)
  checkIfIdentifiedDataSerializable := word 1 bigEndianStream.endOfInput >>= fun flag =>
    if flag = 0 then
      throw (.exception "DataSerializer::checkIfIdentifiedDataSerializable" "not identified")
    else pure ()
  writeLongKey := bigEndianStream.writeLong
  writeStringKey key :=
    bigEndianStream.writeInt (Int32.ofNat key.length) ++ key.toByteArray.data.toList
  readOther _ _ _ := .error .wrongClass
where
  typeOf (data : Data) : Int32 := (UInt32.ofNat (ofBigEndian ((data.drop 4).take 4))).toInt32

theorem bigEndianService_width (value : Int32) :
    (bigEndianService.writeInt value).length = 4 :=
  length_bigEndian 4 _

theorem bigEndianService_type (typeId : Int32) (payload : Bytes) :
    bigEndianService.getType (bigEndianService.toData typeId payload) = typeId := by
  have hash := bigEndianService_width 0
  have typed := bigEndianService_width typeId
  change bigEndianService.typeOf _ = _
  rw [SerializationService.toData, bigEndianService.typeOf, List.drop_left' hash,
    List.take_left' typed]
  change (UInt32.ofNat (ofBigEndian (bigEndian 4 typeId.toUInt32.toNat))).toInt32 = _
  rw [ofBigEndian_bigEndian 4 _ typeId.toUInt32.toNat_lt, UInt32.ofNat_toNat,
    Int32.toInt32_toUInt32]

theorem bigEndianService_lawful : bigEndianService.Lawful where
  stream := bigEndianStream_lawful
  width := bigEndianService_width
  type := bigEndianService_type
  present typeId payload nonzero := by
    have typed : bigEndianService.typeOf (bigEndianService.toData typeId payload) = typeId :=
      bigEndianService_type typeId payload
    apply decide_eq_false
    rw [typed]
    exact fun both => nonzero both.1
  identification factoryId classId := by
    have flag : Reads bigEndianService.checkIfIdentifiedDataSerializable (bigEndian 1 1) () := by
      rw [← List.append_nil (bigEndian 1 1)]
      exact (reads_word 1 1 bigEndianStream.endOfInput (by decide)).bind (reads_pure ())
    exact flag.bind ((bigEndianStream_lawful.int factoryId).bind
      ((bigEndianStream_lawful.int classId).map (Prod.mk factoryId)))
  longKey := by
    intro first second same
    have read := bigEndianStream_lawful.long first
    change Reads _ (bigEndianService.writeLongKey first) _ at read
    rw [same] at read
    exact read.unique (bigEndianStream_lawful.long second)
  stringKey := by
    intro first second same
    have widths := (bigEndianService_width (Int32.ofNat first.length)).trans
      (bigEndianService_width (Int32.ofNat second.length)).symm
    have bytes := List.append_inj_right same widths
    exact String.toByteArray_inj.mp (ByteArray.ext (Array.toList_inj.mp bytes))

end HazelcastCache
