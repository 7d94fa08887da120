import HazelcastCache.InsertContext
import HazelcastCache.Maps

/-! Insert contexts, removals and lookups over the shared maps.

A put and a get are the atomic steps: everything an insert context does between two puts,
and everything a lookup does between two gets, is local to it. `Cluster` is the system with
one lookup in which entries are evicted one by one. -/

namespace HazelcastCache

open Library

/-- A lookup and its caller, who asks for the rest of the body until it has all of it. -/
inductive Reader where
  | idle
  | missed
  | reading (headers : Option HeaderMapImpl) (total : UInt64) (delivered : Bytes)
  | complete (headers : Option HeaderMapImpl) (total : UInt64) (delivered : Bytes)
  | aborted (headers : Option HeaderMapImpl) (total : UInt64) (delivered : Bytes)
  | faulted (fault : Fault)
  deriving DecidableEq, Repr

/-- The test of the caller's loop. A caller that has been given more than it asked for
cannot form another range. -/
def Reader.resume (headers : Option HeaderMapImpl) (total : UInt64) (delivered : Bytes) :
    Reader :=
  if delivered.length = total.toNat then .complete headers total delivered
  else if delivered.length < total.toNat then .reading headers total delivered
  else .faulted .illegalRange

/-- The next get of the lookup: `getHeaders` first, then one `getBody` per turn of the
caller's loop. -/
def Reader.step (context : HazelcastLookupContext) (store : Store) : Reader → Reader
  | .idle =>
      match (context.getHeaders store).2 with
      | none => .missed
      | some (headers, total) => .resume headers total []
  | .reading headers total delivered =>
      if nonempty : UInt64.ofNat delivered.length < total then
        match context.getBody store ⟨UInt64.ofNat delivered.length, total, nonempty⟩ with
        | .ok (some bytes) => .resume headers total (delivered ++ bytes)
        | .ok none => .aborted headers total delivered
        | .error fault => .faulted fault
      else .faulted .illegalRange
  | finished => finished

def Reader.Finished : Reader → Prop
  | .idle => False
  | .reading _ _ _ => False
  | _ => True

/-- The maps, the puts that each insert context has still to make, and the lookups. -/
structure Traffic (Writer Lookup : Type) where
  store : Store
  pending : Writer → List Put
  readers : Lookup → Reader

inductive TrafficAction (Writer Lookup : Type) where
  | put (writer : Writer)
  | remove (removal : Removal)
  | get (lookup : Lookup)
  deriving DecidableEq, Repr

section Traffic

variable {Writer Lookup : Type} [DecidableEq Writer] [DecidableEq Lookup]

def Traffic.step (contexts : Lookup → HazelcastLookupContext) (traffic : Traffic Writer Lookup) :
    TrafficAction Writer Lookup → Traffic Writer Lookup
  | .put writer =>
      match traffic.pending writer with
      | [] => traffic
      | put :: rest =>
          { traffic with
            store := traffic.store.apply put
            pending := Function.update traffic.pending writer rest }
  | .remove removal => { traffic with store := traffic.store.perform removal.operation }
  | .get lookup =>
      let reader := (traffic.readers lookup).step (contexts lookup) traffic.store
      { traffic with readers := Function.update traffic.readers lookup reader }

abbrev Traffic.run (contexts : Lookup → HazelcastLookupContext) (traffic : Traffic Writer Lookup)
    (schedule : List (TrafficAction Writer Lookup)) : Traffic Writer Lookup :=
  Runs.run (Traffic.step contexts) traffic schedule

variable (contexts : Lookup → HazelcastLookupContext) (traffic : Traffic Writer Lookup)

theorem Traffic.step_cases (action : TrafficAction Writer Lookup) :
    (∃ writer, action = .put writer ∧ traffic.pending writer = [] ∧
      traffic.step contexts action = traffic) ∨
    (∃ writer put rest, action = .put writer ∧ traffic.pending writer = put :: rest ∧
      traffic.step contexts action = ⟨traffic.store.apply put,
        Function.update traffic.pending writer rest, traffic.readers⟩) ∨
    (∃ removal, action = .remove removal ∧ traffic.step contexts action =
      ⟨traffic.store.perform removal.operation, traffic.pending, traffic.readers⟩) ∨
    (∃ lookup, action = .get lookup ∧ traffic.step contexts action =
      ⟨traffic.store, traffic.pending, Function.update traffic.readers lookup
        ((traffic.readers lookup).step (contexts lookup) traffic.store)⟩) := by
  cases action with
  | put writer =>
      cases waiting : traffic.pending writer with
      | nil =>
          left
          exact ⟨writer, rfl, waiting, by simp only [Traffic.step, waiting]⟩
      | cons put rest =>
          right
          left
          exact ⟨writer, put, rest, rfl, waiting, by simp only [Traffic.step, waiting]⟩
  | remove removal => exact Or.inr (Or.inr (Or.inl ⟨removal, rfl, rfl⟩))
  | get lookup => exact Or.inr (Or.inr (Or.inr ⟨lookup, rfl, rfl⟩))

theorem Traffic.run_concat (schedule : List (TrafficAction Writer Lookup))
    (action : TrafficAction Writer Lookup) :
    traffic.run contexts (schedule ++ [action]) =
      (traffic.run contexts schedule).step contexts action := by
  rw [Traffic.run, Runs.run_append]
  rfl

theorem Traffic.pending_run (schedule : List (TrafficAction Writer Lookup)) (writer : Writer) :
    (traffic.run contexts schedule).pending writer =
      (traffic.pending writer).drop (schedule.count (.put writer)) := by
  induction schedule generalizing traffic with
  | nil => rfl
  | cons action schedule ih =>
      rw [Traffic.run, Runs.run_cons, ih, List.count_cons]
      rcases traffic.step_cases contexts action with
        ⟨other, rfl, waiting, next⟩ | ⟨other, put, rest, rfl, waiting, next⟩ |
          ⟨removal, rfl, next⟩ | ⟨lookup, rfl, next⟩
      · rw [next]
        by_cases same : other = writer
        · subst same
          rw [waiting, List.drop_nil, List.drop_nil]
        · simp [same]
      · rw [next]
        by_cases same : other = writer
        · subst same
          simp [waiting]
        · simp [same, Function.update_of_ne (Ne.symm same)]
      · rw [next]
        rfl
      · rw [next]
        rfl

theorem Traffic.readers_concat_of_ne (schedule : List (TrafficAction Writer Lookup))
    (action : TrafficAction Writer Lookup) (lookup : Lookup) (other : action ≠ .get lookup) :
    (traffic.run contexts (schedule ++ [action])).readers lookup =
      (traffic.run contexts schedule).readers lookup := by
  rw [Traffic.run_concat]
  rcases (traffic.run contexts schedule).step_cases contexts action with
    ⟨writer, rfl, waiting, next⟩ | ⟨writer, put, rest, rfl, waiting, next⟩ |
      ⟨removal, rfl, next⟩ | ⟨asking, rfl, next⟩
  · rw [next]
  · rw [next]
  · rw [next]
  · rw [next]
    exact Function.update_of_ne (fun same => other (congrArg _ same.symm)) _ _

theorem Traffic.readers_concat_get (schedule : List (TrafficAction Writer Lookup))
    (lookup : Lookup) :
    (traffic.run contexts (schedule ++ [.get lookup])).readers lookup =
      ((traffic.run contexts schedule).readers lookup).step (contexts lookup)
        (traffic.run contexts schedule).store := by
  rw [Traffic.run_concat]
  exact Function.update_self _ _ _

end Traffic

/-! One lookup. -/

structure Cluster (Writer : Type) where
  store : Store
  pending : Writer → List Put
  reader : Reader

inductive Action (Writer : Type) where
  | put (writer : Writer)
  | evictHeader (key : String × Int64)
  | evictBody (key : String × String)
  | get
  deriving DecidableEq, Repr

variable {Writer : Type}

def Action.traffic : Action Writer → TrafficAction Writer Unit
  | .put writer => .put writer
  | .evictHeader key => .remove (.header key)
  | .evictBody key => .remove (.body key)
  | .get => .get ()

def Cluster.traffic (cluster : Cluster Writer) : Traffic Writer Unit :=
  ⟨cluster.store, cluster.pending, fun _ => cluster.reader⟩

def Traffic.cluster (traffic : Traffic Writer Unit) : Cluster Writer :=
  ⟨traffic.store, traffic.pending, traffic.readers ()⟩

theorem Action.traffic_injective : Function.Injective (@Action.traffic Writer) := by
  intro first second same
  cases first with
  | put writer => cases second <;> cases same; rfl
  | evictHeader key => cases second <;> cases same; rfl
  | evictBody key => cases second <;> cases same; rfl
  | get => cases second <;> cases same; rfl

variable [DecidableEq Writer]

def Cluster.step (context : HazelcastLookupContext) (cluster : Cluster Writer)
    (action : Action Writer) : Cluster Writer :=
  (cluster.traffic.step (fun _ => context) action.traffic).cluster

abbrev Cluster.run (context : HazelcastLookupContext) (cluster : Cluster Writer)
    (schedule : List (Action Writer)) : Cluster Writer :=
  Runs.run (Cluster.step context) cluster schedule

def Action.isGet : Action Writer → Bool
  | .get => true
  | _ => false

def Action.isEviction : Action Writer → Bool
  | .evictHeader _ => true
  | .evictBody _ => true
  | _ => false

theorem Cluster.traffic_run (context : HazelcastLookupContext) (cluster : Cluster Writer)
    (schedule : List (Action Writer)) :
    (cluster.run context schedule).traffic =
      cluster.traffic.run (fun _ => context) (schedule.map Action.traffic) := by
  induction schedule generalizing cluster with
  | nil => rfl
  | cons action schedule ih => exact ih (cluster.step context action)

theorem Cluster.step_cases (context : HazelcastLookupContext) (cluster : Cluster Writer)
    (action : Action Writer) :
    (∃ writer, action = .put writer ∧ cluster.pending writer = [] ∧
      cluster.step context action = cluster) ∨
    (∃ writer put rest, action = .put writer ∧ cluster.pending writer = put :: rest ∧
      cluster.step context action = ⟨cluster.store.apply put,
        Function.update cluster.pending writer rest, cluster.reader⟩) ∨
    (∃ key, action = .evictHeader key ∧ cluster.step context action =
      ⟨cluster.store.evictHeader key, cluster.pending, cluster.reader⟩) ∨
    (∃ key, action = .evictBody key ∧ cluster.step context action =
      ⟨cluster.store.evictBody key, cluster.pending, cluster.reader⟩) ∨
    (action = .get ∧ cluster.step context action =
      ⟨cluster.store, cluster.pending, cluster.reader.step context cluster.store⟩) := by
  cases action with
  | put writer =>
      rcases cluster.traffic.step_cases (fun _ => context) (.put writer) with
        ⟨other, same, waiting, next⟩ | ⟨other, put, rest, same, waiting, next⟩ |
          ⟨removal, same, _⟩ | ⟨lookup, same, _⟩
      · cases same
        exact Or.inl ⟨writer, rfl, waiting, congrArg Traffic.cluster next⟩
      · cases same
        exact Or.inr (Or.inl ⟨writer, put, rest, rfl, waiting, congrArg Traffic.cluster next⟩)
      · cases same
      · cases same
  | evictHeader key => exact Or.inr (Or.inr (Or.inl ⟨key, rfl, rfl⟩))
  | evictBody key => exact Or.inr (Or.inr (Or.inr (Or.inl ⟨key, rfl, rfl⟩)))
  | get => exact Or.inr (Or.inr (Or.inr (Or.inr ⟨rfl, rfl⟩)))

theorem Cluster.pending_run (context : HazelcastLookupContext) (cluster : Cluster Writer)
    (schedule : List (Action Writer)) (writer : Writer) :
    (cluster.run context schedule).pending writer =
      (cluster.pending writer).drop (schedule.count (.put writer)) := by
  have run := congrArg Traffic.pending (cluster.traffic_run context schedule)
  have count : (schedule.map Action.traffic).count (.put writer) =
      schedule.count (.put writer) :=
    List.count_map_of_injective schedule Action.traffic Action.traffic_injective (.put writer)
  calc
    (cluster.run context schedule).pending writer =
        (cluster.traffic.run (fun _ => context) (schedule.map Action.traffic)).pending writer :=
      congrFun run writer
    _ = (cluster.pending writer).drop (schedule.count (.put writer)) := by
      rw [Traffic.pending_run, count]
      rfl

theorem Cluster.run_append (context : HazelcastLookupContext) (cluster : Cluster Writer)
    (first second : List (Action Writer)) :
    cluster.run context (first ++ second) = (cluster.run context first).run context second :=
  Runs.run_append (Cluster.step context) cluster first second

theorem Cluster.run_concat (context : HazelcastLookupContext) (cluster : Cluster Writer)
    (schedule : List (Action Writer)) (action : Action Writer) :
    cluster.run context (schedule ++ [action]) =
      (cluster.run context schedule).step context action := by
  rw [Cluster.run_append]
  rfl

theorem Cluster.run_put (context : HazelcastLookupContext) (cluster : Cluster Writer)
    (before after : List (Action Writer)) (writer : Writer) (put : Put) (rest : List Put)
    (waiting : (cluster.run context before).pending writer = put :: rest) :
    cluster.run context (before ++ .put writer :: after) =
      Cluster.run context ⟨(cluster.run context before).store.apply put,
        Function.update (cluster.run context before).pending writer rest,
        (cluster.run context before).reader⟩ after := by
  have next : (cluster.run context before).step context (.put writer) =
      ⟨(cluster.run context before).store.apply put,
        Function.update (cluster.run context before).pending writer rest,
        (cluster.run context before).reader⟩ := by
    simp only [Cluster.step, Action.traffic, Traffic.step, Cluster.traffic, waiting, Traffic.cluster]
  rw [Cluster.run_append, Cluster.run, Runs.run_cons, next]

theorem Cluster.store_run (context : HazelcastLookupContext) (cluster : Cluster Writer)
    (schedule : List (Action Writer)) (Kept : Store → Prop) (initially : Kept cluster.store)
    (puts : ∀ writer, ∀ put ∈ cluster.pending writer, ∀ store, Kept store →
      Kept (store.apply put))
    (headers : ∀ key, .evictHeader key ∈ schedule → ∀ store, Kept store →
      Kept (store.evictHeader key))
    (bodies : ∀ key, .evictBody key ∈ schedule → ∀ store, Kept store →
      Kept (store.evictBody key)) :
    Kept (cluster.run context schedule).store := by
  refine (Runs.run_invariant (Cluster.step context) (fun current => Kept current.store ∧
    ∀ writer, current.pending writer ⊆ cluster.pending writer) cluster schedule
    ⟨initially, fun _ => List.Subset.refl _⟩ ?_).1
  intro action member current ⟨kept, remaining⟩
  rcases current.step_cases context action with
    ⟨writer, rfl, waiting, next⟩ | ⟨writer, put, rest, rfl, waiting, next⟩ |
      ⟨key, rfl, next⟩ | ⟨key, rfl, next⟩ | ⟨rfl, next⟩
  · rw [next]
    exact ⟨kept, remaining⟩
  · have own := remaining writer
    rw [waiting] at own
    rw [next]
    refine ⟨puts writer put (own List.mem_cons_self) _ kept, fun other => ?_⟩
    change Function.update current.pending writer rest other ⊆ _
    by_cases same : other = writer
    · subst same
      rw [Function.update_self]
      exact fun _ later => own (List.mem_cons_of_mem _ later)
    · rw [Function.update_of_ne same]
      exact remaining other
  · rw [next]
    exact ⟨headers key member _ kept, remaining⟩
  · rw [next]
    exact ⟨bodies key member _ kept, remaining⟩
  · rw [next]
    exact ⟨kept, remaining⟩

theorem Cluster.headerMap_run (context : HazelcastLookupContext) (cluster : Cluster Writer)
    (schedule : List (Action Writer)) (key : String × Int64) (entry : HazelcastHeaderEntry)
    (present : cluster.store.headerMap key = some entry)
    (agree : ∀ writer other, .header key other ∈ cluster.pending writer → other = entry) :
    (cluster.run context schedule).store.headerMap key = some entry ∨
      (cluster.run context schedule).store.headerMap key = none ∧
        .evictHeader key ∈ schedule := by
  apply cluster.store_run context schedule (fun store => store.headerMap key = some entry ∨
    store.headerMap key = none ∧ .evictHeader key ∈ schedule) (Or.inl present)
  · intro writer put member store kept
    cases put with
    | header written other =>
        by_cases same : written = key
        · subst same
          rw [agree writer other member]
          exact Or.inl (KeyedMap.write_self store.headerMap (written, entry))
        · simpa only [Store.apply, KeyedMap.write_of_ne _ (written, other) key same] using kept
    | body written other => exact kept
  · intro removed member store kept
    by_cases same : removed = key
    · subst same
      exact Or.inr ⟨KeyedMap.remove_self store.headerMap removed, member⟩
    · simpa only [Store.evictHeader, KeyedMap.remove_of_ne _ removed key same] using kept
  · intro removed member store kept
    exact kept

theorem Cluster.bodyMap_run (context : HazelcastLookupContext) (cluster : Cluster Writer)
    (schedule : List (Action Writer)) (key : String × String) (Good : HazelcastBodyEntry → Prop)
    (present : ∃ entry, cluster.store.bodyMap key = some entry ∧ Good entry)
    (good : ∀ writer entry, .body key entry ∈ cluster.pending writer → Good entry) :
    (∃ entry, (cluster.run context schedule).store.bodyMap key = some entry ∧ Good entry) ∨
      (cluster.run context schedule).store.bodyMap key = none ∧ .evictBody key ∈ schedule := by
  apply cluster.store_run context schedule (fun store =>
    (∃ entry, store.bodyMap key = some entry ∧ Good entry) ∨
      store.bodyMap key = none ∧ .evictBody key ∈ schedule) (Or.inl present)
  · intro writer put member store kept
    cases put with
    | header written other => exact kept
    | body written other =>
        by_cases same : written = key
        · subst same
          exact Or.inl ⟨other, KeyedMap.write_self store.bodyMap (written, other),
            good writer other member⟩
        · simpa only [Store.apply, KeyedMap.write_of_ne _ (written, other) key same] using kept
  · intro removed member store kept
    exact kept
  · intro removed member store kept
    by_cases same : removed = key
    · subst same
      exact Or.inr ⟨KeyedMap.remove_self store.bodyMap removed, member⟩
    · simpa only [Store.evictBody, KeyedMap.remove_of_ne _ removed key same] using kept

theorem Cluster.reader_run (context : HazelcastLookupContext) (cluster : Cluster Writer)
    (schedule : List (Action Writer)) (quiet : .get ∉ schedule) :
    (cluster.run context schedule).reader = cluster.reader := by
  apply Runs.run_invariant (Cluster.step context)
    (fun current => current.reader = cluster.reader) cluster schedule rfl
  intro action member current same
  rcases current.step_cases context action with
    ⟨writer, rfl, waiting, next⟩ | ⟨writer, put, rest, rfl, waiting, next⟩ |
      ⟨key, rfl, next⟩ | ⟨key, rfl, next⟩ | ⟨rfl, next⟩
  · rwa [next]
  · rwa [next]
  · rwa [next]
  · rwa [next]
  · exact absurd member quiet

omit [DecidableEq Writer] in
theorem Action.isGet_of_ne (action : Action Writer) (other : action ≠ .get) :
    action.isGet = false := by
  cases action with
  | get => exact absurd rfl other
  | put writer => rfl
  | evictHeader key => rfl
  | evictBody key => rfl

theorem Cluster.reader_append_of_ne (context : HazelcastLookupContext) (cluster : Cluster Writer)
    (schedule : List (Action Writer)) (action : Action Writer) (other : action ≠ .get) :
    (cluster.run context (schedule ++ [action])).reader =
      (cluster.run context schedule).reader := by
  rw [Cluster.run_append]
  exact Cluster.reader_run context _ [action] (by simpa using Ne.symm other)

theorem Cluster.reader_append_get (context : HazelcastLookupContext) (cluster : Cluster Writer)
    (schedule : List (Action Writer)) :
    (cluster.run context (schedule ++ [.get])).reader =
      (cluster.run context schedule).reader.step context
        (cluster.run context schedule).store := by
  rw [Cluster.run_concat]
  rfl

end HazelcastCache
