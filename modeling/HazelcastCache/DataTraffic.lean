import HazelcastCache.Recovery
import HazelcastCache.Traffic

/-! Inserts, removals and lookups over the maps as the cluster keeps them.

Here a put serializes its entry and reads back the one it replaces, a lookup deserializes what
it gets, and each of them can throw. No run in which all entries survive serialization is told
apart from one over the typed maps. -/

namespace HazelcastCache

open Library

namespace SerializationService

variable (service : SerializationService)

/-- `HazelcastHttpCache::lookupHeader`. -/
def lookupHeader (cache : HazelcastHttpCache) (maps : DataMaps) (hashKey : UInt64) :
    Except ObjectError (Option HazelcastHeaderEntry) := do
  match ← service.getInternal .header maps
      (service.headerDataKey (cache.hzConfig.headerMapName, hashKey.toInt64)) with
  | some (.header entry) => .ok (some entry)
  | some (.body _) => .error .wrongClass
  | none => .ok none

def lookupBody (cache : HazelcastHttpCache) (maps : DataMaps) (key : String) :
    Except ObjectError (Option HazelcastBodyEntry) := do
  match ← service.getInternal .body maps
      (service.bodyDataKey (cache.hzConfig.bodyMapName, key)) with
  | some (.body entry) => .ok (some entry)
  | some (.header _) => .error .wrongClass
  | none => .ok none

def stepReader (context : HazelcastLookupContext) (maps : DataMaps) :
    Reader → Except ObjectError Reader
  | .idle => do
      let entry ← service.lookupHeader context.hzCache maps context.hashKey
      .ok (Reader.idle.step context ⟨fun _ => entry, fun _ => none⟩)
  | .reading headers total delivered =>
      if UInt64.ofNat delivered.length < total then do
        let entry ← service.lookupBody context.hzCache maps (toString context.hashKey ++
          toString (UInt64.ofNat delivered.length / context.bodyPartitionSize))
        .ok ((Reader.reading headers total delivered).step context
          ⟨fun _ => none, fun _ => entry⟩)
      else .ok (.faulted .illegalRange)
  | finished => .ok finished

end SerializationService

/-- The serialized maps, the puts that each insert context has still to make, what a put of
its has thrown, and the lookups. A lookup that has thrown is over. -/
structure DataTraffic (Writer Lookup : Type) where
  maps : DataMaps
  pending : Writer → List Put
  thrown : Writer → Option ObjectError
  readers : Lookup → Except ObjectError Reader

variable {Writer Lookup : Type} [DecidableEq Writer] [DecidableEq Lookup]

/-- The exception of a put leaves the insert context, so no put of its follows. -/
def DataTraffic.step (service : SerializationService)
    (contexts : Lookup → HazelcastLookupContext) (traffic : DataTraffic Writer Lookup) :
    TrafficAction Writer Lookup → DataTraffic Writer Lookup
  | .put writer =>
      match traffic.pending writer with
      | [] => traffic
      | put :: rest =>
          match service.put traffic.maps put with
          | (maps, .ok _) =>
              { traffic with maps, pending := Function.update traffic.pending writer rest }
          | (maps, .error error) =>
              { traffic with
                maps
                pending := Function.update traffic.pending writer []
                thrown := Function.update traffic.thrown writer (some error) }
  | .remove removal =>
      { traffic with maps := service.perform traffic.maps removal.operation }
  | .get lookup =>
      let reader := traffic.readers lookup >>= service.stepReader (contexts lookup) traffic.maps
      { traffic with readers := Function.update traffic.readers lookup reader }

section Gets

variable {service : SerializationService} (lawful : service.Lawful) {maps : DataMaps}
  {store : Store} (represents : service.Represents maps store)

include lawful represents

theorem SerializationService.Represents.lookupHeader (cache : HazelcastHttpCache)
    (hashKey : UInt64) :
    service.lookupHeader cache maps hashKey = .ok (cache.lookupHeader store hashKey) := by
  unfold SerializationService.lookupHeader HazelcastHttpCache.lookupHeader
  rw [represents.headers.get lawful .header (fun _ => rfl)]
  cases store.headerMap (cache.hzConfig.headerMapName, hashKey.toInt64) <;> rfl

theorem SerializationService.Represents.lookupBody (cache : HazelcastHttpCache) (key : String) :
    service.lookupBody cache maps key = .ok (cache.lookupBody store key) := by
  unfold SerializationService.lookupBody HazelcastHttpCache.lookupBody
  rw [represents.bodies.get lawful .body (fun _ => rfl)]
  cases store.bodyMap (cache.hzConfig.bodyMapName, key) <;> rfl

theorem SerializationService.Represents.stepReader (context : HazelcastLookupContext)
    (reader : Reader) :
    service.stepReader context maps reader = .ok (reader.step context store) := by
  cases reader with
  | idle =>
      have found := represents.lookupHeader lawful context.hzCache context.hashKey
      simp only [SerializationService.stepReader, found, Reader.step,
        HazelcastLookupContext.getHeaders_result]
      rfl
  | reading headers total delivered =>
      simp only [SerializationService.stepReader]
      by_cases nonempty : UInt64.ofNat delivered.length < total
      · let range : AdjustedByteRange := ⟨UInt64.ofNat delivered.length, total, nonempty⟩
        have found := represents.lookupBody lawful context.hzCache (toString context.hashKey ++
          toString (range.first / context.bodyPartitionSize))
        rw [if_pos nonempty, found, context.lookupBody_bodyKeyOf store range]
        have same := context.getBody_congr ⟨fun _ => none, fun _ =>
          store.bodyMap (context.bodyKeyOf range)⟩ range store rfl
        simp only [Reader.step, dif_pos nonempty]
        change Except.ok _ = _
        rw [same]
      · rw [if_neg nonempty, Reader.step, dif_neg nonempty]
  | missed => rfl
  | complete headers total delivered => rfl
  | aborted headers total delivered => rfl
  | faulted fault => rfl

end Gets

/-- Both systems are at the same point, and nothing has been thrown. -/
structure DataTraffic.Agrees (service : SerializationService) (traffic : DataTraffic Writer Lookup)
    (typed : Traffic Writer Lookup) : Prop where
  maps : service.Represents traffic.maps typed.store
  pending : traffic.pending = typed.pending
  thrown : ∀ writer, traffic.thrown writer = none
  readers : ∀ lookup, traffic.readers lookup = .ok (typed.readers lookup)
  storable : ∀ writer, ∀ put ∈ typed.pending writer, put.entry.Storable

section Agrees

variable {service : SerializationService} (lawful : service.Lawful)
  (contexts : Lookup → HazelcastLookupContext) {traffic : DataTraffic Writer Lookup}
  {typed : Traffic Writer Lookup} (agrees : traffic.Agrees service typed)

include lawful agrees

theorem DataTraffic.Agrees.put (writer : Writer) :
    (traffic.step service contexts (.put writer)).Agrees service
      (typed.step contexts (.put writer)) := by
  cases waiting : typed.pending writer with
  | nil =>
      have idle : traffic.pending writer = [] := by rw [agrees.pending, waiting]
      simp only [DataTraffic.step, Traffic.step, waiting, idle]
      exact agrees
  | cons put rest =>
      have next : traffic.pending writer = put :: rest := by rw [agrees.pending, waiting]
      have storable : put.entry.Storable :=
        agrees.storable writer put (waiting ▸ List.mem_cons_self)
      obtain ⟨data, _, result⟩ :=
        SerializationService.put_eq lawful agrees.maps put storable
      have kept := agrees.maps.put lawful put storable
      rw [result] at kept
      simp only [DataTraffic.step, Traffic.step, waiting, next, result]
      refine ⟨kept, by rw [agrees.pending], agrees.thrown, agrees.readers, ?_⟩
      intro other later member
      change later ∈ Function.update typed.pending writer rest other at member
      by_cases own : other = writer
      · subst own
        rw [Function.update_self] at member
        exact agrees.storable other later (waiting ▸ List.mem_cons_of_mem _ member)
      · rw [Function.update_of_ne own] at member
        exact agrees.storable other later member

theorem DataTraffic.Agrees.remove (removal : Removal) :
    (traffic.step service contexts (.remove removal)).Agrees service
      (typed.step contexts (.remove removal)) := by
  have storable : removal.operation.Storable := by cases removal <;> trivial
  exact ⟨agrees.maps.perform lawful _ storable, agrees.pending, agrees.thrown, agrees.readers,
    agrees.storable⟩

theorem DataTraffic.Agrees.get (lookup : Lookup) :
    (traffic.step service contexts (.get lookup)).Agrees service
      (typed.step contexts (.get lookup)) := by
  have stepped : (traffic.readers lookup >>= service.stepReader (contexts lookup) traffic.maps) =
      .ok ((typed.readers lookup).step (contexts lookup) typed.store) := by
    rw [agrees.readers lookup]
    exact agrees.maps.stepReader lawful (contexts lookup) _
  refine ⟨agrees.maps, agrees.pending, agrees.thrown, ?_, agrees.storable⟩
  intro other
  simp only [DataTraffic.step, Traffic.step, stepped]
  by_cases own : other = lookup
  · subst own
    rw [Function.update_self, Function.update_self]
  · rw [Function.update_of_ne own, Function.update_of_ne own]
    exact agrees.readers other

theorem DataTraffic.Agrees.run (schedule : List (TrafficAction Writer Lookup)) :
    (Runs.run (DataTraffic.step service contexts) traffic schedule).Agrees service
      (Runs.run (Traffic.step contexts) typed schedule) := by
  apply Runs.run_related _ _ (DataTraffic.Agrees service) _ _ _ agrees
  intro action _ current shadow related
  cases action with
  | put writer => exact related.put lawful contexts writer
  | remove removal => exact related.remove lawful contexts removal
  | get lookup => exact related.get lawful contexts lookup

end Agrees

end HazelcastCache
