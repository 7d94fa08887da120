import HazelcastCache.Reading

/-! Lookups and inserts by request key.

The maps know a request only by its 64-bit hash. -/

namespace HazelcastCache

open Library

section Requests

variable {Key : Type} (stableHashKey : Key → UInt64) (cache : HazelcastHttpCache)

/-- Complete inserts one after the other, each through the lookup context of a request. -/
def runInserts : Store → List (Key × Insert) → Except Fault Store
  | store, [] => .ok store
  | store, (request, insert) :: inserts => do
      let context := cache.makeLookupContext stableHashKey request
      let store ← insert.run cache context.hashKey store
      runInserts store inserts

def requestLog (inserts : List (Key × Insert)) : List Put :=
  inserts.flatMap (fun entry => entry.2.log cache (stableHashKey entry.1))

theorem runInserts_eq (store : Store) (inserts : List (Key × Insert)) :
    runInserts stableHashKey cache store inserts =
      .ok (store.applyAll (requestLog stableHashKey cache inserts)) := by
  induction inserts generalizing store with
  | nil => rfl
  | cons entry inserts ih =>
      rcases entry with ⟨request, insert⟩
      rw [runInserts, Insert.run, Insert.puts_eq_log]
      simp only [Except.map, bind, Except.bind, ih]
      rw [requestLog, requestLog, List.flatMap_cons, Store.applyAll_append]
      rfl

theorem headerMap_requestLog_of_ne (store : Store) (inserts : List (Key × Insert))
    (hashKey : UInt64) (others : ∀ entry ∈ inserts, stableHashKey entry.1 ≠ hashKey) :
    (store.applyAll (requestLog stableHashKey cache inserts)).headerMap
      (cache.headerKey hashKey) = store.headerMap (cache.headerKey hashKey) := by
  apply Store.headerMap_applyAll_of_notMem
  intro header member
  rcases List.mem_flatMap.mp member with ⟨entry, inside, put⟩
  have key := (entry.2.header_mem_log cache (stableHashKey entry.1) _ header put).1
  exact others entry inside (cache.headerKey_injective key).symm

theorem bodyMap_requestLog_of_ne (store : Store) (inserts : List (Key × Insert))
    (key : String × String)
    (outside : ∀ entry ∈ inserts, ∀ index < entry.2.partitions cache,
      cache.orderKey (stableHashKey entry.1) index ≠ key) :
    (store.applyAll (requestLog stableHashKey cache inserts)).bodyMap key =
      store.bodyMap key := by
  apply Store.bodyMap_applyAll_of_notMem
  intro body member
  rcases List.mem_flatMap.mp member with ⟨entry, inside, put⟩
  rcases (entry.2.mem_log cache (stableHashKey entry.1) _).mp put with
    ⟨index, bound, same⟩ | same
  · exact outside entry inside index bound (Put.body.inj same).1.symm
  · cases same

theorem holds_requestLog (store : Store) (hashKey : UInt64) (insert : Insert)
    (later : List (Key × Insert)) (others : ∀ entry ∈ later, stableHashKey entry.1 ≠ hashKey)
    (few : insert.body.length / cache.partition + 1 < 2 ^ 31)
    (apart : ∀ entry ∈ later, ∀ index < entry.2.partitions cache, ∀ position,
      position * cache.partition < insert.body.length →
        cache.orderKey (stableHashKey entry.1) index ≠ cache.bodyKey hashKey position) :
    Holds cache hashKey ((store.applyAll (insert.log cache hashKey)).applyAll
      (requestLog stableHashKey cache later)) insert.headers insert.body := by
  rcases insert.run_holds cache hashKey store few with ⟨final, stored, holds⟩
  rw [Insert.run, Insert.puts_eq_log] at stored
  have log := Except.ok.inj stored
  subst log
  constructor
  · rw [headerMap_requestLog_of_ne stableHashKey cache _ later hashKey others]
    exact holds.header
  · intro position inside
    rw [bodyMap_requestLog_of_ne stableHashKey cache _ later _
      (fun entry member index bound => apart entry member index bound position inside)]
    exact holds.partitions position inside

end Requests

/-- After any run of complete inserts a lookup finds the headers and the size of the last
insert made for a request with its own hash, and misses if there was none. It is that insert's
body that it is given, if no later insert under another hash has put an entry under one of the
body's keys. -/
theorem hit_belongs_to_hash {Key : Type} (stableHashKey : Key → UInt64)
    (cache : HazelcastHttpCache) (inserts : List (Key × Insert)) (request : Key) :
    ∃ store, runInserts stableHashKey cache Store.empty inserts = .ok store ∧
      let context := cache.makeLookupContext stableHashKey request
      ((∀ entry ∈ inserts, stableHashKey entry.1 ≠ stableHashKey request) ∧
        (context.getHeaders store).2 = none) ∨
      ∃ earlier owner insert later, inserts = earlier ++ (owner, insert) :: later ∧
        stableHashKey owner = stableHashKey request ∧
        (∀ entry ∈ later, stableHashKey entry.1 ≠ stableHashKey request) ∧
        ((∀ entry ∈ inserts, stableHashKey entry.1 = stableHashKey request →
          entry.1 = request) → owner = request) ∧
        (context.getHeaders store).2 =
          some (some insert.headers, UInt64.ofNat insert.body.length) ∧
        (insert.body.length / cache.partition + 1 < 2 ^ 31 →
          (∀ entry ∈ later, ∀ index < entry.2.partitions cache, ∀ position,
            position * cache.partition < insert.body.length →
              cache.orderKey (stableHashKey entry.1) index ≠
                cache.bodyKey (stableHashKey request) position) →
          (Reader.step context store)^[insert.body.length / cache.partition + 2] .idle =
            .complete (some insert.headers) (UInt64.ofNat insert.body.length) insert.body) := by
  refine ⟨_, runInserts_eq stableHashKey cache Store.empty inserts, ?_⟩
  intro context
  rcases Runs.last_split (fun entry => stableHashKey entry.1 = stableHashKey request) inserts with
    none | ⟨earlier, ⟨owner, insert⟩, later, rfl, same, others⟩
  · left
    refine ⟨none, ?_⟩
    rw [HazelcastLookupContext.getHeaders_result]
    change Option.map _ (Store.headerMap _ (cache.headerKey (stableHashKey request))) = _
    rw [headerMap_requestLog_of_ne stableHashKey cache Store.empty inserts _ none]
    rfl
  · right
    have log : Store.empty.applyAll (requestLog stableHashKey cache
        (earlier ++ (owner, insert) :: later)) =
        ((Store.empty.applyAll (requestLog stableHashKey cache earlier)).applyAll
          (insert.log cache (stableHashKey request))).applyAll
            (requestLog stableHashKey cache later) := by
      calc
        Store.empty.applyAll (requestLog stableHashKey cache
            (earlier ++ (owner, insert) :: later)) =
            Store.empty.applyAll (requestLog stableHashKey cache earlier ++
              (insert.log cache (stableHashKey owner) ++
                requestLog stableHashKey cache later)) := by
          rw [requestLog, List.flatMap_append, List.flatMap_cons]
          rfl
        _ = _ := by rw [Store.applyAll_append, Store.applyAll_append, same]
    rw [log]
    refine ⟨earlier, owner, insert, later, rfl, same, others, ?_, ?_, ?_⟩
    · intro unique
      exact unique (owner, insert) (by simp) same
    · rw [HazelcastLookupContext.getHeaders_result]
      change Option.map _ (Store.headerMap _ (cache.headerKey (stableHashKey request))) = _
      rw [headerMap_requestLog_of_ne stableHashKey cache _ later _ others, Insert.headerMap_log]
      rfl
    · intro few apart
      exact (holds_requestLog stableHashKey cache _ (stableHashKey request) insert later others few
        apart).serving.read insert.size_lt

theorem hit_on_another_request :
    let cache : HazelcastHttpCache := ⟨{ bodyPartitionSize := 4 }⟩
    let stableHashKey : Bool → UInt64 := fun _ => 17
    let insert : Insert := ⟨[⟨[65], [66]⟩], [⟨[1, 2], by decide⟩], by decide⟩
    ∃ store, runInserts stableHashKey cache Store.empty [(true, insert)] = .ok store ∧
      (Reader.step (cache.makeLookupContext stableHashKey false) store)^[2] .idle =
        .complete (some [⟨[65], [66]⟩]) 2 [1, 2] := by
  intro cache stableHashKey insert
  refine ⟨_, runInserts_eq stableHashKey cache Store.empty [(true, insert)], ?_⟩
  decide

end HazelcastCache
