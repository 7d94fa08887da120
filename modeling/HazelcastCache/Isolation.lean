import HazelcastCache.Traffic

/-! What other inserts, other lookups and other caches over the same maps mean to a lookup:
nothing, as long as they keep off its keys. -/

namespace HazelcastCache

open Library

/-- The put writes an entry that the lookup may get. -/
def Put.Concerns (context : HazelcastLookupContext) : Put → Prop
  | .header key _ => key = context.hzCache.headerKey context.hashKey
  | .body key _ => ∃ index, key = context.hzCache.bodyKey context.hashKey index

def Removal.Concerns (context : HazelcastLookupContext) (removal : Removal) : Prop :=
  removal.HitsHeader (context.hzCache.headerKey context.hashKey) ∨
    ∃ index, removal.HitsBody (context.hzCache.bodyKey context.hashKey index)

/-- The maps hold the same under all keys of the lookup. -/
structure SameView (context : HazelcastLookupContext) (store other : Store) : Prop where
  header : store.headerMap (context.hzCache.headerKey context.hashKey) =
    other.headerMap (context.hzCache.headerKey context.hashKey)
  body : ∀ index, store.bodyMap (context.hzCache.bodyKey context.hashKey index) =
    other.bodyMap (context.hzCache.bodyKey context.hashKey index)

section View

variable {context : HazelcastLookupContext} {store other : Store}
  (same : SameView context store other)

include same

theorem Reader.step_congr (reader : Reader) :
    reader.step context store = reader.step context other := by
  cases reader with
  | idle =>
      simp only [Reader.step, HazelcastLookupContext.getHeaders_result, same.header]
  | reading headers total delivered =>
      simp only [Reader.step]
      split
      · rw [context.getBody_congr store _ other (same.body _)]
      · rfl
  | missed => rfl
  | complete headers total delivered => rfl
  | aborted headers total delivered => rfl
  | faulted fault => rfl

theorem SameView.symm : SameView context other store :=
  ⟨same.header.symm, fun index => (same.body index).symm⟩

theorem SameView.apply (put : Put) :
    SameView context (store.apply put) (other.apply put) := by
  obtain ⟨header, body⟩ := same
  cases put with
  | header key entry =>
      refine ⟨?_, body⟩
      simp only [Store.apply, KeyedMap.write, Function.update_apply, header]
  | body key entry =>
      refine ⟨header, fun index => ?_⟩
      simp only [Store.apply, KeyedMap.write, Function.update_apply, body index]

theorem SameView.apply_of_not (put : Put) (foreign : ¬ put.Concerns context) :
    SameView context (store.apply put) other := by
  obtain ⟨header, body⟩ := same
  cases put with
  | header key entry =>
      exact ⟨(KeyedMap.write_of_ne store.headerMap (key, entry) _ foreign).trans header, body⟩
  | body key entry =>
      refine ⟨header, fun index => ?_⟩
      exact (KeyedMap.write_of_ne store.bodyMap (key, entry) _
        (fun alike => foreign ⟨index, alike⟩)).trans (body index)

theorem SameView.remove (removal : Removal) :
    SameView context (store.perform removal.operation) (other.perform removal.operation) := by
  obtain ⟨header, body⟩ := same
  cases removal with
  | header key =>
      refine ⟨?_, body⟩
      simp only [Removal.operation, Store.perform, Store.evictHeader, KeyedMap.remove,
        Function.update_apply, header]
  | body key =>
      refine ⟨header, fun index => ?_⟩
      simp only [Removal.operation, Store.perform, Store.evictBody, KeyedMap.remove,
        Function.update_apply, body index]
  | clear name =>
      constructor
      · simp only [Removal.operation, Store.perform, Store.clear, header]
      · intro index
        simp only [Removal.operation, Store.perform, Store.clear, body index]

theorem SameView.remove_of_not (removal : Removal) (foreign : ¬ removal.Concerns context) :
    SameView context (store.perform removal.operation) other := by
  constructor
  · rcases store.headerMap_remove removal (context.hzCache.headerKey context.hashKey) with
      kept | ⟨hits, _⟩
    · exact kept.trans same.header
    · exact absurd (Or.inl hits) foreign
  · intro index
    rcases store.bodyMap_remove removal (context.hzCache.bodyKey context.hashKey index) with
      kept | ⟨hits, _⟩
    · exact kept.trans (same.body index)
    · exact absurd (Or.inr ⟨index, hits⟩) foreign

end View

/-- The insert puts nothing that the lookup may get. -/
def Insert.Avoids (insert : Insert) (cache : HazelcastHttpCache) (hashKey : UInt64)
    (context : HazelcastLookupContext) : Prop :=
  cache.headerKey hashKey ≠ context.hzCache.headerKey context.hashKey ∧
    ∀ order < insert.partitions cache, ∀ index,
      cache.orderKey hashKey order ≠ context.hzCache.bodyKey context.hashKey index

section Slice

variable {Writer Lookup : Type} [DecidableEq Writer] [DecidableEq Lookup]
  (contexts : Lookup → HazelcastLookupContext) (lookup : Lookup) (Outside : Writer → Prop)

/-- The action is nothing to the lookup: the get of another one, the removal of an entry that
it does not get, or a put of a foreign insert. -/
def TrafficAction.Idle : TrafficAction Writer Lookup → Prop
  | .put writer => Outside writer
  | .remove removal => ¬ removal.Concerns (contexts lookup)
  | .get asking => asking ≠ lookup

/-- Two states that the lookup cannot tell apart, now or later: only the foreign inserts may
have come to different points. -/
structure Sliced (current shadow : Traffic Writer Lookup) : Prop where
  view : SameView (contexts lookup) current.store shadow.store
  reader : current.readers lookup = shadow.readers lookup
  pending : ∀ writer, ¬ Outside writer → current.pending writer = shadow.pending writer
  first : ∀ writer, Outside writer →
    ∀ put ∈ current.pending writer, ¬ put.Concerns (contexts lookup)
  second : ∀ writer, Outside writer →
    ∀ put ∈ shadow.pending writer, ¬ put.Concerns (contexts lookup)

variable {contexts lookup Outside} {current shadow : Traffic Writer Lookup}
  (sliced : Sliced contexts lookup Outside current shadow)

include sliced

omit [DecidableEq Writer] [DecidableEq Lookup] in
theorem Sliced.symm : Sliced contexts lookup Outside shadow current :=
  ⟨sliced.view.symm, sliced.reader.symm, fun writer known => (sliced.pending writer known).symm,
    sliced.second, sliced.first⟩

theorem Sliced.alone (action : TrafficAction Writer Lookup)
    (dropped : action.Idle contexts lookup Outside) :
    Sliced contexts lookup Outside (current.step contexts action) shadow := by
  obtain ⟨view, reader, pending, first, second⟩ := sliced
  cases action with
  | put writer =>
      have apart := first writer dropped
      cases waiting : current.pending writer with
      | nil =>
          simp only [Traffic.step, waiting]
          exact ⟨view, reader, pending, first, second⟩
      | cons put rest =>
          rw [waiting] at apart
          simp only [Traffic.step, waiting]
          refine ⟨view.apply_of_not put (apart put List.mem_cons_self), reader, ?_, ?_, second⟩
          · intro other known
            have different : other ≠ writer := fun same => known (same ▸ dropped)
            simpa only [Function.update_of_ne different] using pending other known
          · intro other foreign
            by_cases same : other = writer
            · subst same
              simp only [Function.update_self]
              exact fun later member => apart later (List.mem_cons_of_mem _ member)
            · simpa only [Function.update_of_ne same] using first other foreign
  | remove removal =>
      exact ⟨view.remove_of_not removal dropped, reader, pending, first, second⟩
  | get asking =>
      refine ⟨view, ?_, pending, first, second⟩
      simpa only [Traffic.step, Function.update_of_ne dropped.symm] using reader

theorem Sliced.both (action : TrafficAction Writer Lookup) :
    Sliced contexts lookup Outside (current.step contexts action)
      (shadow.step contexts action) := by
  by_cases dropped : action.Idle contexts lookup Outside
  · exact ((sliced.alone action dropped).symm.alone action dropped).symm
  obtain ⟨view, reader, pending, first, second⟩ := sliced
  cases action with
  | put writer =>
      have queue := pending writer dropped
      cases waiting : current.pending writer with
      | nil =>
          simp only [Traffic.step, waiting, ← queue]
          exact ⟨view, reader, pending, first, second⟩
      | cons put rest =>
          simp only [Traffic.step, waiting, ← queue]
          have different (other : Writer) (foreign : Outside other) : other ≠ writer :=
            fun same => dropped (same ▸ foreign)
          refine ⟨view.apply put, reader, ?_, ?_, ?_⟩
          · intro other known
            simp only [Function.update_apply, pending other known]
          · intro other foreign
            simpa only [Function.update_of_ne (different other foreign)] using first other foreign
          · intro other foreign
            simpa only [Function.update_of_ne (different other foreign)] using second other foreign
  | remove removal => exact ⟨view.remove removal, reader, pending, first, second⟩
  | get asking =>
      refine ⟨view, ?_, pending, first, second⟩
      simp only [Traffic.step, Function.update_apply]
      split
      · rename_i same
        subst same
        rw [reader, Reader.step_congr view]
      · exact reader

end Slice

/-- Lookups are isolated. In any interleaving of inserts, removals and lookups, of this and of
other caches over the same maps, what a lookup has come to stays the same when gets of other
lookups, removals of other entries and puts of inserts that use none of its keys are left out.
The mark of an action says whether it stays; any of these can be left out, and the same action
can stay at one place and be left out at another. -/
theorem lookup_isolated {Writer Lookup : Type} [DecidableEq Writer] [DecidableEq Lookup]
    (contexts : Lookup → HazelcastLookupContext) (store : Store)
    (caches : Writer → HazelcastHttpCache) (hashes : Writer → UInt64) (inserts : Writer → Insert)
    (stop : Writer → Nat) (marked : List (TrafficAction Writer Lookup × Bool)) (lookup : Lookup)
    (idle : ∀ action, (action, false) ∈ marked →
      action.Idle contexts lookup (fun writer =>
        (inserts writer).Avoids (caches writer) (hashes writer) (contexts lookup))) :
    ∃ puts : Writer → List Put,
      (∀ writer, (inserts writer).puts (caches writer) (hashes writer) = .ok (puts writer)) ∧
      let start : Traffic Writer Lookup :=
        ⟨store, fun writer => (puts writer).take (stop writer), fun _ => .idle⟩
      (start.run contexts ((marked.filter Prod.snd).map Prod.fst)).readers lookup =
        (start.run contexts (marked.map Prod.fst)).readers lookup := by
  refine ⟨_, fun writer => (inserts writer).puts_eq_log (caches writer) (hashes writer), ?_⟩
  intro start
  let Outside : Writer → Prop := fun writer =>
    (inserts writer).Avoids (caches writer) (hashes writer) (contexts lookup)
  have apart : ∀ writer, Outside writer →
      ∀ put ∈ start.pending writer, ¬ put.Concerns (contexts lookup) := by
    intro writer ⟨header, bodies⟩ put member
    rcases ((inserts writer).mem_log _ _ put).mp (List.mem_of_mem_take member) with
      ⟨order, bound, rfl⟩ | rfl
    · rintro ⟨index, alike⟩
      exact bodies order bound index alike
    · exact header
  have sliced : Sliced contexts lookup Outside (start.run contexts (marked.map Prod.fst))
      (start.run contexts ((marked.filter Prod.snd).map Prod.fst)) := by
    apply Runs.run_marked_related (Traffic.step contexts) (Sliced contexts lookup Outside)
    · exact ⟨⟨rfl, fun _ => rfl⟩, rfl, fun _ _ => rfl, apart, apart⟩
    · intro action _ current shadow related
      exact related.both action
    · intro action dropped current shadow related
      exact related.alone action (idle action dropped)
  exact sliced.reader.symm

theorem lookup_isolated_two :
    let cache : HazelcastHttpCache := ⟨{ bodyPartitionSize := 2 }⟩
    let hashOf : Bool → UInt64 := fun writer => if writer then 17 else 42
    let contexts : Bool → HazelcastLookupContext := fun lookup => ⟨cache, hashOf lookup, none⟩
    let inserts : Bool → Insert := fun writer => if writer
      then ⟨[], [⟨[1, 2, 3], by decide⟩], by decide⟩ else ⟨[], [⟨[9], by decide⟩], by decide⟩
    ∃ puts : Bool → List Put,
      (∀ writer, (inserts writer).puts cache (hashOf writer) = .ok (puts writer)) ∧
      let start : Traffic Bool Bool :=
        ⟨Store.empty, fun writer => (puts writer).take 3, fun _ => .idle⟩
      (start.run contexts [.put true, .put true, .put false, .put true, .get true, .get true,
          .get false, .get true]).readers true =
        (start.run contexts [.put false, .put true, .put true, .get false, .put false, .put true,
          .get true, .remove (.header (cache.headerKey 42)), .get true, .get false,
          .get true]).readers true ∧
      (start.run contexts [.put true, .put true, .put false, .put true, .get true, .get true,
          .get false, .get true]).readers true = .complete (some []) 3 [1, 2, 3] := by
  intro cache hashOf contexts inserts
  have apart : cache.Apart {17, 42} := by
    apply cache.apart_of_digitCount _ 2
    intro hashKey member
    rcases member with rfl | rfl
    · decide
    · decide
  have avoids : (inserts false).Avoids cache 42 (contexts true) := by
    have one : (inserts false).partitions cache = 1 := by decide
    refine ⟨by decide, fun order bound index => ?_⟩
    rw [orderKey_eq_bodyKey cache _ order (by omega)]
    exact apart 42 (by simp) 17 (by simp) (by decide) order index
  have removal : ¬ (Removal.header (cache.headerKey 42)).Concerns (contexts true) := by
    rintro (hits | ⟨index, hits⟩)
    · exact absurd (cache.headerKey_injective hits) (by decide)
    · exact hits
  obtain ⟨puts, emitted, same⟩ := lookup_isolated contexts Store.empty (fun _ => cache) hashOf
    inserts (fun _ => 3)
    [(.put false, false), (.put true, true), (.put true, true), (.get false, false),
      (.put false, true), (.put true, true), (.get true, true),
      (.remove (.header (cache.headerKey 42)), false), (.get true, true), (.get false, true),
      (.get true, true)] true
    (by
      intro action dropped
      simp only [List.mem_cons, Prod.mk.injEq, Bool.false_eq_true, and_false, and_true, false_or,
        or_false, List.not_mem_nil] at dropped
      rcases dropped with rfl | rfl | rfl
      · exact avoids
      · exact Bool.false_ne_true
      · exact removal)
  refine ⟨puts, emitted, same, ?_⟩
  have log := eq_logs_of_puts inserts cache hashOf puts emitted
  rw [log]
  decide

end HazelcastCache
