import HazelcastCache.Envelope
import HazelcastCache.Maps

/-! The maps as the cluster keeps them, with serialized keys and values.

A distributed map does not know the types of its keys and values, so one map can hold both
kinds of entry. `Store` keeps them apart by type; here that is shown to be sound. -/

namespace HazelcastCache

open Library Codec

abbrev DataMaps := String × Data → Option Data

def DataMaps.empty : DataMaps := fun _ => none

def Put.entry : Put → CacheEntry
  | .header _ entry => .header entry
  | .body _ entry => .body entry

/-- What the put replaces. -/
def Store.previous (store : Store) : Put → Option CacheEntry
  | .header key _ => (store.headerMap key).map .header
  | .body key _ => (store.bodyMap key).map .body

namespace SerializationService

variable (service : SerializationService)

def headerDataKey (key : String × Int64) : String × Data := (key.1, service.headerKeyData key.2)

def bodyDataKey (key : String × String) : String × Data := (key.1, service.bodyKeyData key.2)

def dataKey : Put → String × Data
  | .header key _ => service.headerDataKey key
  | .body key _ => service.bodyDataKey key

def getInternal (expected : EntryKind) (maps : DataMaps) (key : String × Data) :
    Except ObjectError (Option CacheEntry) :=
  match maps key with
  | none => .ok none
  | some data => service.toObject expected data

/-- `ClientMapProxy::put`. It returns the previous value, so that one is deserialized, after the
new value has taken its place. -/
def put (maps : DataMaps) (put : Put) : DataMaps × Except ObjectError (Option CacheEntry) :=
  match service.entryData put.entry with
  | .error error => (maps, .error (.stream error))
  | .ok data => (KeyedMap.write maps (service.dataKey put, data),
      service.getInternal put.entry.kind maps (service.dataKey put))

def perform (maps : DataMaps) : MapOperation → DataMaps
  | .put put => (service.put maps put).1
  | .evictHeader key => KeyedMap.remove maps (service.headerDataKey key)
  | .evictBody key => KeyedMap.remove maps (service.bodyDataKey key)
  | .clear name => fun key => if key.1 = name then none else maps key

inductive Serialized : Option Data → Option CacheEntry → Prop
  | none : Serialized none none
  | some (entry : CacheEntry) (data : Data) (storable : entry.Storable)
      (written : service.entryData entry = .ok data) : Serialized (some data) (some entry)

/-- One kind of key of the serialized maps holds what a typed map does. -/
def Mirrors {K V : Type} (keyOf : K → String × Data) (wrap : V → CacheEntry) (maps : DataMaps)
    (entries : K → Option V) : Prop :=
  ∀ key, service.Serialized (maps (keyOf key)) ((entries key).map wrap)

/-- The serialized maps hold what the typed ones do. -/
structure Represents (maps : DataMaps) (store : Store) : Prop where
  headers : service.Mirrors service.headerDataKey .header maps store.headerMap
  bodies : service.Mirrors service.bodyDataKey .body maps store.bodyMap

end SerializationService

def MapOperation.Storable : MapOperation → Prop
  | .put request => request.entry.Storable
  | _ => True

namespace SerializationService

variable {service : SerializationService}

section Mirrors

variable {K V : Type} [DecidableEq K] {keyOf : K → String × Data} {wrap : V → CacheEntry}
  {maps : DataMaps} {entries : K → Option V} (mirrors : service.Mirrors keyOf wrap maps entries)

include mirrors

theorem Mirrors.write (injective : Function.Injective keyOf) (key : K) (value : V) (data : Data)
    (storable : (wrap value).Storable) (written : service.entryData (wrap value) = .ok data) :
    service.Mirrors keyOf wrap (KeyedMap.write maps (keyOf key, data))
      (KeyedMap.write entries (key, value)) := by
  intro other
  by_cases same : key = other
  · subst same
    rw [KeyedMap.write_self maps (keyOf key, data), KeyedMap.write_self entries (key, value)]
    exact .some _ data storable written
  · rw [KeyedMap.write_of_ne maps (keyOf key, data) _ (injective.ne same),
      KeyedMap.write_of_ne entries (key, value) other same]
    exact mirrors other

omit [DecidableEq K] in
theorem Mirrors.write_outside (record : (String × Data) × Data)
    (outside : ∀ key, record.1 ≠ keyOf key) :
    service.Mirrors keyOf wrap (KeyedMap.write maps record) entries := by
  intro other
  rw [KeyedMap.write_of_ne maps record _ (outside other)]
  exact mirrors other

theorem Mirrors.remove (injective : Function.Injective keyOf) (key : K) :
    service.Mirrors keyOf wrap (KeyedMap.remove maps (keyOf key))
      (KeyedMap.remove entries key) := by
  intro other
  by_cases same : key = other
  · subst same
    rw [KeyedMap.remove_self, KeyedMap.remove_self]
    exact .none
  · rw [KeyedMap.remove_of_ne maps _ _ (injective.ne same),
      KeyedMap.remove_of_ne entries key other same]
    exact mirrors other

omit [DecidableEq K] in
theorem Mirrors.remove_outside (removed : String × Data)
    (outside : ∀ key, removed ≠ keyOf key) :
    service.Mirrors keyOf wrap (KeyedMap.remove maps removed) entries := by
  intro other
  rw [KeyedMap.remove_of_ne maps removed _ (outside other)]
  exact mirrors other

omit [DecidableEq K] in
theorem Mirrors.get (lawful : service.Lawful) (expected : EntryKind)
    (kind : ∀ value, (wrap value).kind = expected) (key : K) :
    service.getInternal expected maps (keyOf key) = .ok ((entries key).map wrap) := by
  have serialized := mirrors key
  unfold getInternal
  cases found : entries key with
  | none =>
      rw [found] at serialized
      generalize maps (keyOf key) = stored at serialized
      cases serialized
      rfl
  | some value =>
      rw [found] at serialized
      generalize maps (keyOf key) = stored at serialized
      cases serialized with
      | some _ data storable written =>
          obtain ⟨encoded, same, read⟩ := toObject_entryData lawful (wrap value) storable
          rw [written] at same
          cases same
          rwa [kind] at read

end Mirrors

section Keys

variable (lawful : service.Lawful)

include lawful

theorem headerDataKey_injective : Function.Injective service.headerDataKey := by
  intro first second same
  exact Prod.ext (Prod.mk.inj same).1 (headerKeyData_injective lawful (Prod.mk.inj same).2)

theorem bodyDataKey_injective : Function.Injective service.bodyDataKey := by
  intro first second same
  exact Prod.ext (Prod.mk.inj same).1 (bodyKeyData_injective lawful (Prod.mk.inj same).2)

theorem headerDataKey_ne_bodyDataKey (key : String × Int64) (other : String × String) :
    service.headerDataKey key ≠ service.bodyDataKey other := by
  intro same
  exact headerKeyData_ne_bodyKeyData lawful key.2 other.2 (Prod.mk.inj same).2

end Keys

theorem represents_empty : service.Represents DataMaps.empty Store.empty where
  headers _ := .none
  bodies _ := .none

section Steps

variable (lawful : service.Lawful) {maps : DataMaps} {store : Store}
  (represents : service.Represents maps store)

include lawful represents

theorem put_eq (request : Put) (storable : request.entry.Storable) :
    ∃ data, service.entryData request.entry = .ok data ∧
      service.put maps request = (KeyedMap.write maps (service.dataKey request, data),
        .ok (store.previous request)) := by
  obtain ⟨data, written, _⟩ := toObject_entryData lawful request.entry storable
  refine ⟨data, written, ?_⟩
  simp only [put, written]
  cases request with
  | header key entry =>
      exact congrArg _ (represents.headers.get lawful .header (fun _ => rfl) key)
  | body key entry =>
      exact congrArg _ (represents.bodies.get lawful .body (fun _ => rfl) key)

theorem Represents.put (request : Put) (storable : request.entry.Storable) :
    service.Represents (service.put maps request).1 (store.apply request) := by
  obtain ⟨data, written, result⟩ := put_eq lawful represents request storable
  rw [result]
  cases request with
  | header key entry =>
      exact ⟨represents.headers.write (headerDataKey_injective lawful) key entry data storable
        written, represents.bodies.write_outside _ (headerDataKey_ne_bodyDataKey lawful key)⟩
  | body key entry =>
      exact ⟨represents.headers.write_outside _
        (fun other => (headerDataKey_ne_bodyDataKey lawful other key).symm),
        represents.bodies.write (bodyDataKey_injective lawful) key entry data storable written⟩

theorem Represents.perform (operation : MapOperation) (storable : operation.Storable) :
    service.Represents (service.perform maps operation) (store.perform operation) := by
  cases operation with
  | put request => exact represents.put lawful request storable
  | evictHeader key =>
      exact ⟨represents.headers.remove (headerDataKey_injective lawful) key,
        represents.bodies.remove_outside _ (headerDataKey_ne_bodyDataKey lawful key)⟩
  | evictBody key =>
      exact ⟨represents.headers.remove_outside _
        (fun other => (headerDataKey_ne_bodyDataKey lawful other key).symm),
        represents.bodies.remove (bodyDataKey_injective lawful) key⟩
  | clear name =>
      constructor
      · intro key
        have kept := represents.headers key
        by_cases cleared : key.1 = name
        · simp only [SerializationService.perform, Store.perform, Store.clear, headerDataKey,
            cleared, if_true]
          exact .none
        · simpa only [SerializationService.perform, Store.perform, Store.clear, headerDataKey,
            cleared, if_false] using kept
      · intro key
        have kept := represents.bodies key
        by_cases cleared : key.1 = name
        · simp only [SerializationService.perform, Store.perform, Store.clear, bodyDataKey,
            cleared, if_true]
          exact .none
        · simpa only [SerializationService.perform, Store.perform, Store.clear, bodyDataKey,
            cleared, if_false] using kept

end Steps

end SerializationService

/-- The serialized maps answer as the typed ones. After any operations of any clients on any
maps, with entries that survive serialization, every get under a header key or a body key
gives the entry that `Store` has there, as an object of the class the caller asks for, and
every put of such an entry gives back the entry it replaces. No header is ever taken for a
partition, also where both kinds are kept in one map. -/
theorem serialized_maps_refine (service : SerializationService) (lawful : service.Lawful)
    (operations : List MapOperation) (storable : ∀ operation ∈ operations, operation.Storable) :
    let maps := Runs.run service.perform DataMaps.empty operations
    let store := Runs.run Store.perform Store.empty operations
    (∀ key, service.getInternal .header maps (service.headerDataKey key) =
        .ok ((store.headerMap key).map .header)) ∧
      (∀ key, service.getInternal .body maps (service.bodyDataKey key) =
        .ok ((store.bodyMap key).map .body)) ∧
      ∀ request : Put, request.entry.Storable →
        (service.put maps request).2 = .ok (store.previous request) := by
  intro maps store
  have represents : service.Represents maps store := by
    apply Runs.run_related service.perform Store.perform service.Represents
    · exact SerializationService.represents_empty
    · intro operation member current shadow related
      exact related.perform lawful operation (storable operation member)
  refine ⟨represents.headers.get lawful .header (fun _ => rfl),
    represents.bodies.get lawful .body (fun _ => rfl), ?_⟩
  intro request survives
  obtain ⟨_, _, result⟩ := SerializationService.put_eq lawful represents request survives
  rw [result]

theorem serialized_maps_refine_one_map :
    let operations : List MapOperation :=
      [.put (.header ("m", 5) ⟨some [⟨[97], [98]⟩], 2⟩), .put (.body ("m", "50") ⟨[1, 2]⟩),
        .clear "other", .evictBody ("m", "51")]
    (∀ operation ∈ operations, operation.Storable) ∧
      bigEndianService.getInternal .body
          (Runs.run bigEndianService.perform DataMaps.empty operations)
          (bigEndianService.bodyDataKey ("m", "50")) = .ok (some (.body ⟨[1, 2]⟩)) := by
  intro operations
  have storable : ∀ operation ∈ operations, operation.Storable := by
    have header : CacheEntry.Storable (.header ⟨some [⟨[97], [98]⟩], 2⟩) :=
      HazelcastHeaderEntry.storable_some _ _ (by decide) (by decide)
    have body : CacheEntry.Storable (.body ⟨[1, 2]⟩) := by
      change 2 < 2 ^ 31
      decide
    simp [operations, MapOperation.Storable, Put.entry, header, body]
  obtain ⟨_, bodies, _⟩ := serialized_maps_refine bigEndianService bigEndianService_lawful
    operations storable
  exact ⟨storable, (bodies ("m", "50")).trans (by decide)⟩

end HazelcastCache
