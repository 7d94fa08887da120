import HazelcastCache.DataMaps

/-! Inserts over maps with entries that cannot be read.

`put` deserializes the value it replaces, so an insert can fail on what another client or an
older version of the code has left under its keys, or even take the process with it. By then
the new value is in the map. -/

namespace HazelcastCache

open Library Codec

inductive Ending where
  | returned
  | threw
  | crashed
  deriving DecidableEq, Repr

/-- How `put` ends on the previous value. Its callers do not look at that value, so one of the
other class goes unnoticed; who follows a null pointer does not come back. -/
def Ending.ofPrevious : Except ObjectError (Option CacheEntry) → Ending
  | .ok _ => .returned
  | .error .wrongClass => .returned
  | .error (.stream (.exception _ _)) => .threw
  | .error (.stream .nullDereference) => .crashed

def Ending.thrown : Ending → Bool
  | .threw => true
  | _ => false

namespace SerializationService

variable (service : SerializationService)

/-- The puts of an insert, up to and including the first that does not return. -/
def attempt : List Put → DataMaps → DataMaps × Ending
  | [], maps => (maps, .returned)
  | request :: rest, maps =>
      let answer := service.put maps request
      match Ending.ofPrevious answer.2 with
      | .returned => attempt rest answer.1
      | stopped => (answer.1, stopped)

/-- Under the key of the put lies an entry of its kind that can be read. -/
def Readable (maps : DataMaps) (request : Put) : Prop :=
  ∃ entry data, entry.kind = request.entry.kind ∧ entry.Storable ∧
    service.entryData entry = .ok data ∧ maps (service.dataKey request) = some data

def record (request : Put) : Option ((String × Data) × Data) :=
  match service.entryData request.entry with
  | .ok data => some (service.dataKey request, data)
  | .error _ => none

variable {service} (lawful : service.Lawful)

include lawful

theorem kind_of_dataKey_eq {first second : Put}
    (same : service.dataKey first = service.dataKey second) :
    first.entry.kind = second.entry.kind := by
  cases first with
  | header key entry =>
      cases second with
      | header other value => rfl
      | body other value => exact absurd same (headerDataKey_ne_bodyDataKey lawful key other)
  | body key entry =>
      cases second with
      | header other value => exact absurd same.symm (headerDataKey_ne_bodyDataKey lawful other key)
      | body other value => rfl

theorem put_storable (maps : DataMaps) (request : Put) (storable : request.entry.Storable) :
    ∃ data, service.entryData request.entry = .ok data ∧
      service.record request = some (service.dataKey request, data) ∧
      service.put maps request = (KeyedMap.write maps (service.dataKey request, data),
        service.getInternal request.entry.kind maps (service.dataKey request)) := by
  obtain ⟨data, written, _⟩ := toObject_entryData lawful request.entry storable
  exact ⟨data, written, by simp only [record, written], by simp only [put, written]⟩

theorem Readable.get {maps : DataMaps} {request : Put} (readable : service.Readable maps request) :
    ∃ entry, service.getInternal request.entry.kind maps (service.dataKey request) =
      .ok (some entry) := by
  obtain ⟨entry, data, kind, storable, written, found⟩ := readable
  obtain ⟨encoded, same, read⟩ := toObject_entryData lawful entry storable
  rw [written] at same
  cases same
  exact ⟨entry, by simp only [getInternal, found, ← kind, read]⟩

theorem Readable.put {maps : DataMaps} (request other : Put) (storable : request.entry.Storable)
    (readable : service.dataKey request = service.dataKey other ∨ service.Readable maps other) :
    service.Readable (service.put maps request).1 other := by
  obtain ⟨data, written, _, result⟩ := put_storable lawful maps request storable
  rw [result]
  change service.Readable (KeyedMap.write maps (service.dataKey request, data)) other
  by_cases same : service.dataKey request = service.dataKey other
  · refine ⟨request.entry, data, kind_of_dataKey_eq lawful same, storable, written, ?_⟩
    rw [← same]
    exact KeyedMap.write_self maps (service.dataKey request, data)
  · obtain ⟨entry, stored, kind, survives, encoded, found⟩ := readable.resolve_left same
    refine ⟨entry, stored, kind, survives, encoded, ?_⟩
    rw [KeyedMap.write_of_ne maps (service.dataKey request, data) _ same, found]

theorem Readable.returned {maps : DataMaps} {request : Put}
    (storable : request.entry.Storable) (readable : service.Readable maps request) :
    Ending.ofPrevious (service.put maps request).2 = .returned := by
  obtain ⟨data, _, _, result⟩ := put_storable lawful maps request storable
  obtain ⟨entry, found⟩ := readable.get lawful
  rw [result, found]
  rfl

section Attempts

variable (puts : List Put) (storable : ∀ request ∈ puts, request.entry.Storable)
  (maps : DataMaps)

include storable

end Attempts

end SerializationService

end HazelcastCache
