import HazelcastCache.Cache
import HazelcastCache.Library.Runs

/-! `HazelcastHttpCacheFactory`: one factory for the process, with one slot for a cache.

Caches are objects with an identity: the filter that asked for a cache keeps a reference to
it, whatever the factory does with its slot afterwards. -/

namespace HazelcastCache

open Library

structure ClientConfig where
  groupName : String := ""
  ip : String := ""
  port : Int32 := 0
  deriving DecidableEq, Repr

structure FilterConfig where
  settings : HazelcastConfig := {}
  client : ClientConfig := {}
  deriving DecidableEq, Repr

/-- A `HazelcastHttpCache` in memory. `hz` is the `unique_ptr` to the client, with the
configuration that the client was made from; `alive` is false once the destructor has run. -/
structure CacheObject where
  config : FilterConfig
  hz : Option ClientConfig
  alive : Bool
  deriving DecidableEq, Repr

inductive GetCacheError where
  | unpack
  | connect
  deriving DecidableEq, Repr

namespace CacheObject

def make (config : FilterConfig) : CacheObject := ⟨config, none, true⟩

/-- `reachable` says whether the constructor of the client returns or throws. -/
def connect (object : CacheObject) (reachable : Bool) : Except GetCacheError CacheObject :=
  match object.hz with
  | some _ => .ok object
  | none => if reachable then .ok { object with hz := some object.config.client }
      else .error .connect

def disconnect (object : CacheObject) : CacheObject := { object with hz := none }

def destroy (object : CacheObject) : CacheObject := { object.disconnect with alive := false }

/-- What a filter relies on that was given the cache for `config`. -/
def Usable (object : CacheObject) (config : FilterConfig) : Prop :=
  object.alive = true ∧ object.hz = some config.client ∧ object.config = config

end CacheObject

/-- The factory and every cache it has made; a cache's position is its address. -/
structure HazelcastHttpCacheFactory where
  objects : List CacheObject
  cache : Option Nat
  deriving DecidableEq, Repr

/-- One `getCache` call. The configuration is `none` if it is of another type. -/
structure GetCache where
  typedConfig : Option FilterConfig
  reachable : Bool
  deriving DecidableEq, Repr

namespace HazelcastHttpCacheFactory

def initial : HazelcastHttpCacheFactory := ⟨[], none⟩

/-- The assignment to `cache_`: the new cache exists before the old one is destroyed. -/
def assign (factory : HazelcastHttpCacheFactory) (object : CacheObject) :
    HazelcastHttpCacheFactory where
  objects := (match factory.cache with
    | none => factory.objects
    | some old => factory.objects.modify old CacheObject.destroy) ++ [object]
  cache := some factory.objects.length

def getCache (factory : HazelcastHttpCacheFactory) (call : GetCache) :
    HazelcastHttpCacheFactory × Except GetCacheError Nat :=
  match call.typedConfig with
  | none => (factory, .error .unpack)
  | some config =>
      let address := factory.objects.length
      let factory := factory.assign (.make config)
      match (CacheObject.make config).connect call.reachable with
      | .error failure => (factory, .error failure)
      | .ok connected => ({ factory with objects := factory.objects.set address connected },
          .ok address)

abbrev run (factory : HazelcastHttpCacheFactory) (calls : List GetCache) :
    HazelcastHttpCacheFactory :=
  Runs.run (fun factory call => (factory.getCache call).1) factory calls

def Usable (factory : HazelcastHttpCacheFactory) (address : Nat) (config : FilterConfig) : Prop :=
  ∃ object, factory.objects[address]? = some object ∧ object.Usable config

section Calls

variable (factory : HazelcastHttpCacheFactory) (call : GetCache)

theorem getCache_refused (refused : call.typedConfig = none) :
    factory.getCache call = (factory, .error .unpack) := by
  simp only [getCache, refused]

theorem getCache_unpacked (config : FilterConfig) (unpacked : call.typedConfig = some config) :
    factory.getCache call =
      if call.reachable = true then
        (factory.assign ⟨config, some config.client, true⟩, .ok factory.objects.length)
      else (factory.assign (.make config), .error .connect) := by
  obtain ⟨typedConfig, reachable⟩ := call
  cases unpacked
  cases reachable with
  | false => rfl
  | true =>
      obtain ⟨objects, cache⟩ := factory
      cases cache <;>
        simp [getCache, assign, CacheObject.make, CacheObject.connect, List.set_append_right]

theorem getElem?_assign (object : CacheObject) :
    (factory.assign object).objects[factory.objects.length]? = some object := by
  obtain ⟨objects, cache⟩ := factory
  cases cache <;> simp [assign]

theorem not_usable_assign (address : Nat) (occupied : factory.cache = some address)
    (inside : address < factory.objects.length) (object : CacheObject) (config : FilterConfig) :
    ¬ (factory.assign object).Usable address config := by
  intro usable
  obtain ⟨found, here, alive, _⟩ := usable
  have destroyed : (factory.assign object).objects[address]? =
      (factory.objects[address]?).map CacheObject.destroy := by
    simp only [assign, occupied]
    rw [List.getElem?_append_left (by rwa [List.length_modify]), List.getElem?_modify_eq]
    rfl
  rw [destroyed, List.getElem?_eq_getElem inside] at here
  cases here
  cases alive

theorem run_call (before after : List GetCache) :
    factory.run (before ++ call :: after) =
      ((factory.run before).getCache call).1.run after := by
  rw [run, Runs.run_append]
  rfl

theorem run_refused (calls : List GetCache) (refused : ∀ call ∈ calls, call.typedConfig = none) :
    factory.run calls = factory := by
  apply Runs.run_invariant _ (fun current => current = factory) factory calls rfl
  intro call member current same
  rw [current.getCache_refused call (refused call member)]
  exact same

end Calls

/-- After each of the calls, every cache that a call up to then has returned is alive,
connected and bound to the configuration it was asked for with. -/
def CachesStayUsable (calls : List GetCache) : Prop :=
  ∀ before call after rest config address, calls = before ++ call :: (after ++ rest) →
    call.typedConfig = some config →
    ((initial.run before).getCache call).2 = .ok address →
    (initial.run (before ++ call :: after)).Usable address config

theorem getCache_returns (factory : HazelcastHttpCacheFactory) (call : GetCache)
    (config : FilterConfig) (unpacked : call.typedConfig = some config) (address : Nat)
    (returned : (factory.getCache call).2 = .ok address) :
    call.reachable = true ∧ address = factory.objects.length := by
  rw [factory.getCache_unpacked call config unpacked] at returned
  split at returned
  · cases returned
    exact ⟨by assumption, rfl⟩
  · cases returned

theorem usable_of_refused (factory : HazelcastHttpCacheFactory) (call : GetCache)
    (config : FilterConfig) (unpacked : call.typedConfig = some config)
    (reachable : call.reachable = true) (after : List GetCache)
    (refused : ∀ next ∈ after, next.typedConfig = none) :
    ((factory.getCache call).1.run after).Usable factory.objects.length config := by
  rw [run_refused _ after refused, factory.getCache_unpacked call config unpacked,
    if_pos reachable]
  exact ⟨_, factory.getElem?_assign _, rfl, rfl, rfl⟩

theorem not_usable_of_unpacked (factory : HazelcastHttpCacheFactory) (call next : GetCache)
    (config : FilterConfig) (unpacked : call.typedConfig = some config)
    (reachable : call.reachable = true) (quiet : List GetCache)
    (refused : ∀ between ∈ quiet, between.typedConfig = none)
    (readable : next.typedConfig ≠ none) :
    ¬ ((factory.getCache call).1.run (quiet ++ [next])).Usable factory.objects.length config := by
  obtain ⟨other, otherUnpacked⟩ := Option.ne_none_iff_exists'.mp readable
  rw [run_call, run_refused _ quiet refused, factory.getCache_unpacked call config unpacked,
    if_pos reachable, getCache_unpacked _ next other otherUnpacked]
  have inside : factory.objects.length <
      (factory.assign ⟨config, some config.client, true⟩).objects.length :=
    (List.getElem?_eq_some_iff.mp (factory.getElem?_assign _)).1
  split <;> exact not_usable_assign _ _ rfl inside _ _

end HazelcastHttpCacheFactory

/-- The caches that the factory has handed out stay usable, if and only if no call with a
configuration that can be unpacked follows a successful one: such a call, successful or not,
destroys the cache of the call before. -/
theorem caches_stay_usable_iff (calls : List GetCache) :
    HazelcastHttpCacheFactory.CachesStayUsable calls ↔
      ∀ before call later, calls = before ++ call :: later → call.typedConfig.isSome →
        call.reachable = true → ∀ next ∈ later, next.typedConfig = none := by
  constructor
  · intro stay before call later split readable reachable next member
    by_contra unpacked
    obtain ⟨config, readable⟩ := Option.isSome_iff_exists.mp readable
    -- The first of the later calls whose configuration is unpacked.
    have some : (later.find? (fun other => other.typedConfig.isSome)).isSome :=
      List.find?_isSome.mpr ⟨next, member, Option.isSome_iff_ne_none.mpr unpacked⟩
    obtain ⟨first, found⟩ := Option.isSome_iff_exists.mp some
    obtain ⟨firstReadable, quiet, rest, rfl, refused⟩ := List.find?_eq_some_iff_append.mp found
    have returned : ((HazelcastHttpCacheFactory.initial.run before).getCache call).2 =
        .ok (HazelcastHttpCacheFactory.initial.run before).objects.length := by
      rw [HazelcastHttpCacheFactory.getCache_unpacked _ call config readable, if_pos reachable]
    have usable := stay before call (quiet ++ [first]) rest config _ (by simp [split]) readable
      returned
    rw [HazelcastHttpCacheFactory.run_call] at usable
    exact HazelcastHttpCacheFactory.not_usable_of_unpacked _ call first config readable reachable
      quiet (fun between inside => by simpa using refused between inside)
      (Option.isSome_iff_ne_none.mp firstReadable) usable
  · intro alone before call after rest config address split unpacked returned
    rcases HazelcastHttpCacheFactory.getCache_returns _ call config unpacked address returned with
      ⟨reachable, rfl⟩
    have refused := alone before call (after ++ rest) split (by rw [unpacked]; rfl) reachable
    rw [HazelcastHttpCacheFactory.run_call]
    exact HazelcastHttpCacheFactory.usable_of_refused _ call config unpacked reachable after
      (fun next member => refused next (List.mem_append_left rest member))

/-- Two filters with different partition sizes: the second call destroys the cache of the first
filter. It does so too when the second cluster cannot be reached. -/
theorem second_cache_destroys_first :
    let first : FilterConfig := { settings := { bodyPartitionSize := 2 } }
    let second : FilterConfig := { settings := { bodyPartitionSize := 4 } }
    let factory := HazelcastHttpCacheFactory.initial
    let one : GetCache := ⟨some first, true⟩
    (factory.getCache one).2 = .ok 0 ∧
      (factory.run [one, ⟨some second, true⟩]).objects =
        [⟨first, none, false⟩, ⟨second, some {}, true⟩] ∧
      (factory.run [one, ⟨some second, false⟩]).objects =
        [⟨first, none, false⟩, ⟨second, none, true⟩] ∧
      ¬ HazelcastHttpCacheFactory.CachesStayUsable [one, ⟨some second, true⟩] := by
  intro first second factory one
  refine ⟨by decide, by decide, by decide, ?_⟩
  intro stay
  obtain ⟨object, here, alive, _⟩ := stay [] one [⟨some second, true⟩] [] first 0 rfl rfl rfl
  cases here
  cases alive

end HazelcastCache
