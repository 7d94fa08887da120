import HazelcastCache.Histories

/-! Any number of insert contexts and lookups at work at once, under many hashes, while entries
are evicted and maps are cleared.

Every insert under a hash inserts the response that the origin server gives for it. Then no
interleaving makes a lookup see anything else. -/

namespace HazelcastCache

open Library

theorem Reader.OnTrack.mono {width : Nat} {headers : HeaderMapImpl} {body : Bytes}
    {NoHeader NoHeader' : Prop} {Lost Lost' : Nat → Prop} {reader : Reader}
    (track : Reader.OnTrack width headers body NoHeader Lost reader)
    (noHeader : NoHeader → NoHeader') (lost : ∀ index, Lost index → Lost' index) :
    Reader.OnTrack width headers body NoHeader' Lost' reader := by
  cases track with
  | idle => exact .idle
  | missed absent => exact .missed (noHeader absent)
  | upTo index => exact .upTo index
  | aborted index unfinished gone => exact .aborted index unfinished (lost index gone)

structure Response where
  headers : HeaderMapImpl
  body : Buffer
  deriving DecidableEq, Repr

variable {Writer Lookup : Type} [DecidableEq Writer] [DecidableEq Lookup]

/-- The inserts and lookups of a run. Each insert is given up after `stop` puts. -/
structure Workload (Writer Lookup : Type) where
  cache : HazelcastHttpCache
  origin : UInt64 → Response
  store : Store
  hashOf : Writer → UInt64
  inserts : Writer → Insert
  faithful : ∀ writer, (inserts writer).headers = (origin (hashOf writer)).headers ∧
    (inserts writer).body = (origin (hashOf writer)).body.bytes
  stop : Writer → Nat
  asked : Lookup → UInt64

namespace Workload

variable (work : Workload Writer Lookup) (done : List (TrafficAction Writer Lookup))

/-- The hashes that are inserted or looked up. -/
def hashes : Set UInt64 := Set.range work.hashOf ∪ Set.range work.asked

def body (hashKey : UInt64) : Bytes := (work.origin hashKey).body.bytes

def log (writer : Writer) : List Put :=
  (work.inserts writer).log work.cache (work.hashOf writer)

def context (lookup : Lookup) : HazelcastLookupContext := ⟨work.cache, work.asked lookup, none⟩

def start : Traffic Writer Lookup :=
  ⟨work.store, fun writer => (work.log writer).take (work.stop writer), fun _ => .idle⟩

abbrev run : Traffic Writer Lookup := work.start.run work.context done

def HeaderRemoved (hashKey : UInt64) : Prop :=
  ∃ removal, .remove removal ∈ done ∧ removal.HitsHeader (work.cache.headerKey hashKey)

def BodyRemoved (hashKey : UInt64) (index : Nat) : Prop :=
  ∃ removal, .remove removal ∈ done ∧ removal.HitsBody (work.cache.bodyKey hashKey index)

/-- The insert has made all its puts. -/
def Finished (writer : Writer) : Prop :=
  (work.log writer).length ≤ min (work.stop writer) (done.count (.put writer))

/-- At some get of the lookup no insert of the response had finished, or its header had been
taken away. -/
def Early (lookup : Lookup) : Prop :=
  ∃ before, before ++ [.get lookup] <+: done ∧
    ((∀ writer, work.hashOf writer = work.asked lookup → ¬ work.Finished before writer) ∨
      work.HeaderRemoved before (work.asked lookup))

/-- At some get of the lookup the partition had been taken away. -/
def Lost (lookup : Lookup) (index : Nat) : Prop :=
  ∃ before, before ++ [.get lookup] <+: done ∧ work.BodyRemoved before (work.asked lookup) index

/-- The partition is the response's own, or was taken away. -/
def Settled (hashKey : UInt64) (index : Nat) (store : Store) : Prop :=
  store.bodyMap (work.cache.bodyKey hashKey index) =
      some ⟨Segments.block work.cache.partition index (work.body hashKey)⟩ ∨
    store.bodyMap (work.cache.bodyKey hashKey index) = none ∧
      work.BodyRemoved done hashKey index

variable (apart : work.cache.Apart work.hashes)
  (few : ∀ writer, (work.inserts writer).body.length / work.cache.partition + 1 < 2 ^ 31)
  (absent : ∀ lookup, work.store.headerMap (work.cache.headerKey (work.asked lookup)) = none)

section Puts

omit [DecidableEq Writer] [DecidableEq Lookup]

theorem next_put (writer : Writer) (count : Nat) (put : Put) (rest : List Put)
    (next : ((work.log writer).take (work.stop writer)).drop count = put :: rest) :
    rest = ((work.log writer).take (work.stop writer)).drop (count + 1) ∧
    ((count < (work.inserts writer).partitions work.cache ∧
        put = blockPut work.cache (work.hashOf writer) (work.body (work.hashOf writer)) count) ∨
      (count = (work.inserts writer).partitions work.cache ∧
        (work.log writer).length ≤ work.stop writer ∧
        put = headerPut work.cache (work.hashOf writer)
          (work.origin (work.hashOf writer)).headers (work.body (work.hashOf writer)).length)) := by
  obtain ⟨headers, body⟩ := work.faithful writer
  have bound : count < ((work.log writer).take (work.stop writer)).length := by
    by_contra beyond
    rw [List.drop_of_length_le (Nat.not_lt.mp beyond)] at next
    cases next
  rw [List.drop_eq_getElem_cons bound] at next
  obtain ⟨rfl, rfl⟩ := List.cons.inj next
  refine ⟨rfl, ?_⟩
  rw [List.length_take] at bound
  rw [List.getElem_take]
  have length := (work.inserts writer).log_length work.cache (work.hashOf writer)
  have drops := List.drop_eq_getElem_cons (Nat.lt_of_lt_of_le bound (Nat.min_le_right _ _))
  change (work.log writer).length = _ at length
  rcases Nat.lt_or_ge count ((work.inserts writer).partitions work.cache) with inside | last
  · left
    have first := (work.inserts writer).log_drop work.cache (work.hashOf writer) count inside
    change (work.log writer).drop count = _ at first
    rw [drops] at first
    rw [body] at first
    exact ⟨inside, (List.cons.inj first).1⟩
  · right
    have here : count = (work.inserts writer).partitions work.cache := by omega
    have first := (work.inserts writer).log_drop_header work.cache (work.hashOf writer)
    change (work.log writer).drop _ = _ at first
    rw [← here, drops, headers, body] at first
    exact ⟨here, by omega, (List.cons.inj first).1⟩

theorem hashOf_mem (writer : Writer) : work.hashOf writer ∈ work.hashes := Or.inl ⟨writer, rfl⟩

theorem asked_mem (lookup : Lookup) : work.asked lookup ∈ work.hashes := Or.inr ⟨lookup, rfl⟩

variable {work done}

theorem Settled.append {hashKey : UInt64} {index : Nat} {store : Store}
    (settled : work.Settled done hashKey index store)
    (later : List (TrafficAction Writer Lookup)) :
    work.Settled (done ++ later) hashKey index store := by
  rcases settled with here | ⟨gone, removal, member, hits⟩
  · exact Or.inl here
  · exact Or.inr ⟨gone, removal, List.mem_append_left _ member, hits⟩

theorem Settled.congr {hashKey : UInt64} {index : Nat} {store other : Store}
    (settled : work.Settled done hashKey index store)
    (same : other.bodyMap (work.cache.bodyKey hashKey index) =
      store.bodyMap (work.cache.bodyKey hashKey index)) :
    work.Settled done hashKey index other := by
  unfold Settled
  rw [same]
  exact settled

include apart few in
theorem Settled.blockPut {writer : Writer} {index : Nat}
    (inside : index < (work.inserts writer).partitions work.cache) {hashKey : UInt64}
    (known : hashKey ∈ work.hashes) {position : Nat} {store : Store}
    (settled : (work.hashOf writer = hashKey ∧ index = position) ∨
      work.Settled done hashKey position store) :
    work.Settled done hashKey position (store.apply
      (blockPut work.cache (work.hashOf writer) (work.body (work.hashOf writer)) index)) := by
  have count := (work.inserts writer).partitions_le work.cache
  have bound := few writer
  have key := orderKey_eq_bodyKey work.cache (work.hashOf writer) index (by omega)
  by_cases same : work.hashOf writer = hashKey ∧ index = position
  · obtain ⟨rfl, rfl⟩ := same
    left
    rw [← key]
    exact KeyedMap.write_self store.bodyMap (work.cache.orderKey (work.hashOf writer) index, _)
  · apply (settled.resolve_left same).congr
    apply KeyedMap.write_of_ne store.bodyMap (work.cache.orderKey (work.hashOf writer) index, _)
    rw [key]
    intro alike
    by_cases hash : work.hashOf writer = hashKey
    · subst hash
      exact same ⟨rfl, work.cache.bodyKey_injective _ alike⟩
    · exact apart _ (work.hashOf_mem writer) hashKey known hash index position alike

theorem Settled.remove {hashKey : UInt64} {position : Nat} {store : Store} (removal : Removal)
    (settled : work.Settled done hashKey position store) :
    work.Settled (done ++ [.remove removal]) hashKey position
      (store.perform removal.operation) := by
  rcases store.bodyMap_remove removal (work.cache.bodyKey hashKey position) with
    same | ⟨hits, gone⟩
  · exact (settled.append _).congr same
  · exact Or.inr ⟨gone, removal, by simp, hits⟩

end Puts

/-! The maps during a run. -/

section Maps

variable (action : TrafficAction Writer Lookup)

theorem run_concat :
    work.run (done ++ [action]) = (work.run done).step work.context action :=
  work.start.run_concat work.context done action

theorem pending_run (writer : Writer) :
    (work.run done).pending writer =
      ((work.log writer).take (work.stop writer)).drop (done.count (.put writer)) :=
  work.start.pending_run work.context done writer

theorem store_run_concat :
    ((work.run (done ++ [action])).store = (work.run done).store ∧
      ∀ writer, action = .put writer →
        min (work.stop writer) (work.log writer).length ≤ done.count (.put writer)) ∨
    (∃ writer, action = .put writer ∧
      done.count (.put writer) < (work.inserts writer).partitions work.cache ∧
      (work.run (done ++ [action])).store = (work.run done).store.apply
        (blockPut work.cache (work.hashOf writer) (work.body (work.hashOf writer))
          (done.count (.put writer)))) ∨
    (∃ writer, action = .put writer ∧
      done.count (.put writer) = (work.inserts writer).partitions work.cache ∧
      (work.log writer).length ≤ work.stop writer ∧
      (work.run (done ++ [action])).store = (work.run done).store.apply
        (headerPut work.cache (work.hashOf writer) (work.origin (work.hashOf writer)).headers
          (work.body (work.hashOf writer)).length)) ∨
    (∃ removal, action = .remove removal ∧
      (work.run (done ++ [action])).store =
        (work.run done).store.perform removal.operation) := by
  rw [run_concat]
  rcases (work.run done).step_cases work.context action with
    ⟨writer, rfl, waiting, next⟩ | ⟨writer, put, rest, rfl, waiting, next⟩ |
      ⟨removal, rfl, next⟩ | ⟨lookup, rfl, next⟩
  · left
    refine ⟨by rw [next], ?_⟩
    intro other same
    obtain rfl := TrafficAction.put.inj same
    rw [pending_run, List.drop_eq_nil_iff, List.length_take] at waiting
    exact waiting
  · rw [pending_run] at waiting
    rcases (work.next_put writer _ put rest waiting).2 with
      ⟨inside, rfl⟩ | ⟨last, whole, rfl⟩
    · exact Or.inr (Or.inl ⟨writer, rfl, inside, by rw [next]⟩)
    · exact Or.inr (Or.inr (Or.inl ⟨writer, rfl, last, whole, by rw [next]⟩))
  · exact Or.inr (Or.inr (Or.inr ⟨removal, rfl, by rw [next]⟩))
  · left
    exact ⟨by rw [next], fun writer other => by cases other⟩

variable {work done}

include apart few in
theorem Settled.concat {hashKey : UInt64} (known : hashKey ∈ work.hashes) {index : Nat}
    (settled : work.Settled done hashKey index (work.run done).store) :
    work.Settled (done ++ [action]) hashKey index (work.run (done ++ [action])).store := by
  rcases work.store_run_concat done action with
    ⟨same, _⟩ | ⟨writer, rfl, inside, next⟩ | ⟨writer, rfl, last, whole, next⟩ |
      ⟨removal, rfl, next⟩
  · rw [same]
    exact settled.append _
  · rw [next]
    exact .blockPut apart few inside known (Or.inr (settled.append _))
  · rw [next]
    exact (settled.append _).congr rfl
  · rw [next]
    exact settled.remove removal

end Maps

/-- No header after the run, or the response's own and all its partitions settled. -/
def Presented (hashKey : UInt64) : Prop :=
  (work.run done).store.headerMap (work.cache.headerKey hashKey) = none ∨
    (work.run done).store.headerMap (work.cache.headerKey hashKey) =
        some ⟨some (work.origin hashKey).headers, UInt64.ofNat (work.body hashKey).length⟩ ∧
      ∀ index, index * work.cache.partition < (work.body hashKey).length →
        work.Settled done hashKey index (work.run done).store

/-- What the inserts have put is there, unless it was taken away. -/
structure Sound : Prop where
  settled : ∀ writer index, index < (work.inserts writer).partitions work.cache →
    index < min (work.stop writer) (done.count (.put writer)) →
    work.Settled done (work.hashOf writer) index (work.run done).store
  published : ∀ writer, work.Finished done writer →
    (work.run done).store.headerMap (work.cache.headerKey (work.hashOf writer)) ≠ none ∨
      work.HeaderRemoved done (work.hashOf writer)
  header : ∀ lookup, work.Presented done (work.asked lookup)

section Sound

variable {work done} (sound : work.Sound done) (action : TrafficAction Writer Lookup)

include sound

include apart few in
theorem Sound.settled_concat (writer : Writer) (index : Nat)
    (inside : index < (work.inserts writer).partitions work.cache)
    (made : index < min (work.stop writer) ((done ++ [action]).count (.put writer))) :
    work.Settled (done ++ [action]) (work.hashOf writer) index
      (work.run (done ++ [action])).store := by
  have known := work.hashOf_mem writer
  by_cases before : index < min (work.stop writer) (done.count (.put writer))
  · exact (sound.settled writer index inside before).concat apart few action known
  -- The action is the put of this very partition.
  rw [List.count_append, List.count_singleton] at made
  have own : action = .put writer := by
    by_contra other
    rw [if_neg (by simpa using other)] at made
    exact before made
  subst own
  rw [if_pos (by simp)] at made
  have length := (work.inserts writer).log_length work.cache (work.hashOf writer)
  change (work.log writer).length = _ at length
  rcases work.store_run_concat done (.put writer) with
    ⟨_, idle⟩ | ⟨other, same, _, next⟩ | ⟨other, same, last, _, _⟩ | ⟨removal, other, _⟩
  · have := idle writer rfl
    omega
  · obtain rfl := TrafficAction.put.inj same
    have here : done.count (.put writer) = index := by omega
    rw [next]
    exact .blockPut apart few (here ▸ inside) known (Or.inl ⟨rfl, here⟩)
  · obtain rfl := TrafficAction.put.inj same
    omega
  · cases other

theorem Sound.published_concat (writer : Writer)
    (finished : work.Finished (done ++ [action]) writer) :
    (work.run (done ++ [action])).store.headerMap (work.cache.headerKey (work.hashOf writer)) ≠
        none ∨
      work.HeaderRemoved (done ++ [action]) (work.hashOf writer) := by
  have length := (work.inserts writer).log_length work.cache (work.hashOf writer)
  change (work.log writer).length = _ at length
  have stays : work.Finished done writer →
      (work.run done).store.headerMap (work.cache.headerKey (work.hashOf writer)) ≠ none ∨
        work.HeaderRemoved (done ++ [action]) (work.hashOf writer) := by
    intro earlier
    rcases sound.published writer earlier with present | ⟨removal, member, hits⟩
    · exact Or.inl present
    · exact Or.inr ⟨removal, List.mem_append_left _ member, hits⟩
  unfold Finished at finished stays
  rw [List.count_append, List.count_singleton] at finished
  rcases work.store_run_concat done action with
    ⟨same, idle⟩ | ⟨other, rfl, inside, next⟩ | ⟨other, rfl, last, whole, next⟩ |
      ⟨removal, rfl, next⟩
  · rw [same]
    apply stays
    by_cases own : action = .put writer
    · have := idle writer own
      simp only [own, beq_self_eq_true, if_true] at finished
      omega
    · rwa [if_neg (by simpa using own)] at finished
  · rw [next]
    apply stays
    by_cases own : other = writer
    · subst own
      simp only [beq_self_eq_true, if_true] at finished
      omega
    · rwa [if_neg (by simpa using own)] at finished
  · rw [next]
    by_cases hash : work.hashOf other = work.hashOf writer
    · left
      rw [← hash, headerMap_headerPut]
      simp
    · rw [headerMap_headerPut_of_ne _ _ _ _ _ _ (fun keys =>
        hash (work.cache.headerKey_injective keys).symm)]
      apply stays
      have own : other ≠ writer := fun same => hash (congrArg work.hashOf same)
      rwa [if_neg (by simpa using own)] at finished
  · rw [if_neg (by simp)] at finished
    rw [next]
    rcases (work.run done).store.headerMap_remove removal
        (work.cache.headerKey (work.hashOf writer)) with same | ⟨hits, _⟩
    · rw [same]
      exact stays finished
    · exact Or.inr ⟨removal, by simp, hits⟩

include apart few in
theorem Sound.header_concat (lookup : Lookup) :
    work.Presented (done ++ [action]) (work.asked lookup) := by
  have header := sound.header lookup
  have known := work.asked_mem lookup
  generalize work.asked lookup = hashKey at header known ⊢
  have kept : (work.run (done ++ [action])).store.headerMap (work.cache.headerKey hashKey) =
      (work.run done).store.headerMap (work.cache.headerKey hashKey) →
      work.Presented (done ++ [action]) hashKey := by
    intro same
    rcases header with absent | ⟨present, settled⟩
    · exact Or.inl (same.trans absent)
    · exact Or.inr ⟨same.trans present, fun index inside =>
        (settled index inside).concat apart few action known⟩
  rcases work.store_run_concat done action with
    ⟨same, _⟩ | ⟨writer, rfl, inside, next⟩ | ⟨writer, rfl, last, whole, next⟩ |
      ⟨removal, rfl, next⟩
  · exact kept (by rw [same])
  · exact kept (by rw [next]; rfl)
  · by_cases hash : work.hashOf writer = hashKey
    · subst hash
      right
      refine ⟨by rw [next, headerMap_headerPut], ?_⟩
      intro index within
      have length := (work.inserts writer).log_length work.cache (work.hashOf writer)
      change (work.log writer).length = _ at length
      have inside := (work.inserts writer).lt_partitions work.cache index
        (by rw [(work.faithful writer).2]; exact within)
      apply sound.settled_concat apart few (.put writer) writer index inside
      rw [List.count_append, List.count_singleton_self]
      omega
    · apply kept
      rw [next, headerMap_headerPut_of_ne _ _ _ _ _ _ (fun keys =>
        hash (work.cache.headerKey_injective keys).symm)]
  · rcases (work.run done).store.headerMap_remove removal (work.cache.headerKey hashKey) with
      same | ⟨_, gone⟩
    · exact kept (by rw [next, same])
    · left
      rw [next, gone]

end Sound

include apart few absent in
theorem sound_run : work.Sound done := by
  induction done using List.reverseRecOn with
  | nil =>
      constructor
      · intro writer index _ made
        simp at made
      · intro writer finished
        have length := (work.inserts writer).log_length work.cache (work.hashOf writer)
        change (work.log writer).length = _ at length
        simp [Finished, length] at finished
      · exact fun lookup => Or.inl (absent lookup)
  | append_singleton done action ih =>
      exact ⟨ih.settled_concat apart few action, ih.published_concat action,
        ih.header_concat apart few action⟩

/-! The lookups during a run. -/

/-- The lookup has been given the origin's response so far as it has come, and what it still
has to get is settled. -/
structure Following (lookup : Lookup) : Prop where
  track : Reader.OnTrack work.cache.partition (work.origin (work.asked lookup)).headers
    (work.body (work.asked lookup)) (work.Early done lookup) (work.Lost done lookup)
    ((work.run done).readers lookup)
  hit : (work.run done).readers lookup = .idle ∨ (work.run done).readers lookup = .missed ∨
    ∀ index, index * work.cache.partition < (work.body (work.asked lookup)).length →
      work.Settled done (work.asked lookup) index (work.run done).store
  spent : ((work.run done).readers lookup).work work.cache.partition
      (work.body (work.asked lookup)).length ≤
    (work.body (work.asked lookup)).length / work.cache.partition + 2 - done.count (.get lookup)

section Following

variable {work done} {lookup : Lookup} (following : work.Following done lookup)
  (action : TrafficAction Writer Lookup)

theorem onTrack_concat {reader : Reader}
    (track : Reader.OnTrack work.cache.partition (work.origin (work.asked lookup)).headers
      (work.body (work.asked lookup)) (work.Early done lookup) (work.Lost done lookup) reader) :
    Reader.OnTrack work.cache.partition (work.origin (work.asked lookup)).headers
      (work.body (work.asked lookup)) (work.Early (done ++ [action]) lookup)
      (work.Lost (done ++ [action]) lookup) reader := by
  have longer : ∀ before, before ++ [.get lookup] <+: done →
      before ++ [.get lookup] <+: done ++ [action] :=
    fun before first => first.trans (List.prefix_append _ _)
  apply track.mono
  · exact fun ⟨before, first, early⟩ => ⟨before, longer before first, early⟩
  · exact fun index ⟨before, first, lost⟩ => ⟨before, longer before first, lost⟩

include apart few absent in
theorem header_found :
    (work.run done).store.headerMap (work.cache.headerKey (work.asked lookup)) =
        some ⟨some (work.origin (work.asked lookup)).headers,
          UInt64.ofNat (work.body (work.asked lookup)).length⟩ ∨
      (work.run done).store.headerMap (work.cache.headerKey (work.asked lookup)) = none ∧
        work.Early (done ++ [.get lookup]) lookup := by
  have sound := work.sound_run done apart few absent
  rcases sound.header lookup with missing | ⟨present, _⟩
  · right
    refine ⟨missing, done, List.prefix_rfl, ?_⟩
    by_cases removed : work.HeaderRemoved done (work.asked lookup)
    · exact Or.inr removed
    · left
      intro writer hash finished
      have published := sound.published writer finished
      rw [hash] at published
      exact published.elim (fun present => present missing) removed
  · exact Or.inl present

include following

include apart few in
theorem Following.skip (other : action ≠ .get lookup) :
    work.Following (done ++ [action]) lookup := by
  have same : (work.run (done ++ [action])).readers lookup = (work.run done).readers lookup :=
    work.start.readers_concat_of_ne work.context done action lookup other
  have count : (done ++ [action]).count (.get lookup) = done.count (.get lookup) := by
    rw [List.count_append, List.count_singleton, if_neg (by simpa using other), Nat.add_zero]
  constructor
  · rw [same]
    exact onTrack_concat action following.track
  · rw [same]
    rcases following.hit with idle | missed | settled
    · exact Or.inl idle
    · exact Or.inr (Or.inl missed)
    · exact Or.inr (Or.inr fun index inside =>
        (settled index inside).concat apart few action (work.asked_mem lookup))
  · rw [same, count]
    exact following.spent

theorem Following.partition_found (index : Nat)
    (reading : (work.run done).readers lookup = Reader.upTo work.cache.partition
      (work.origin (work.asked lookup)).headers (work.body (work.asked lookup)) index)
    (inside : index * work.cache.partition < (work.body (work.asked lookup)).length) :
    (∃ stored, (work.run done).store.bodyMap (work.cache.bodyKey (work.asked lookup) index) =
        some ⟨stored⟩ ∧
      Serves work.cache.partition (work.body (work.asked lookup)) index stored) ∨
    (work.run done).store.bodyMap (work.cache.bodyKey (work.asked lookup) index) = none ∧
      work.Lost (done ++ [.get lookup]) lookup index := by
  rw [Reader.upTo, if_neg (Nat.not_le.mpr inside)] at reading
  rcases following.hit with idle | missed | settled
  · rw [reading] at idle
    cases idle
  · rw [reading] at missed
    cases missed
  · rcases settled index inside with found | ⟨gone, removed⟩
    · exact Or.inl ⟨_, found, serves_block _ _ index⟩
    · exact Or.inr ⟨gone, done, List.prefix_rfl, removed⟩

include apart few absent in
theorem Following.get : work.Following (done ++ [.get lookup]) lookup := by
  have reader : (work.run (done ++ [.get lookup])).readers lookup =
      ((work.run done).readers lookup).step (work.context lookup) (work.run done).store :=
    work.start.readers_concat_get work.context done lookup
  have settles : ∀ index, work.Settled done (work.asked lookup) index (work.run done).store →
      work.Settled (done ++ [.get lookup]) (work.asked lookup) index
        (work.run (done ++ [.get lookup])).store :=
    fun index settled => settled.concat apart few (.get lookup) (work.asked_mem lookup)
  have earlier : Reader.OnTrack (work.context lookup).hzCache.partition _ _ _ _ _ :=
    onTrack_concat (.get lookup) following.track
  obtain ⟨track, nearer⟩ := earlier.step (work.origin (work.asked lookup)).body.length_lt
    (work.run done).store (fun _ => header_found apart few absent)
    following.partition_found
  constructor
  · rw [reader]
    exact track
  · rw [reader]
    rcases following.hit with idle | missed | settled
    · rw [idle]
      rcases (work.sound_run done apart few absent).header lookup with missing | ⟨_, settled⟩
      · right
        left
        have missing : (work.run done).store.headerMap ((work.context lookup).hzCache.headerKey
            (work.context lookup).hashKey) = none := missing
        simp [Reader.step, HazelcastLookupContext.getHeaders_result, missing]
      · exact Or.inr (Or.inr fun index inside => settles index (settled index inside))
    · rw [missed]
      exact Or.inr (Or.inl rfl)
    · exact Or.inr (Or.inr fun index inside => settles index (settled index inside))
  · have spent := following.spent
    rw [reader, List.count_append, List.count_singleton_self]
    change Reader.work work.cache.partition (work.body (work.asked lookup)).length _ ≤
      Reader.work work.cache.partition (work.body (work.asked lookup)).length _ - 1 at nearer
    omega

theorem Following.finished
    (enough : (work.body (work.asked lookup)).length / work.cache.partition + 2 ≤
      done.count (.get lookup)) :
    ((work.run done).readers lookup).Finished := by
  apply following.track.finished work.cache.partition_pos
  have spent := following.spent
  omega

end Following

include apart few absent in
theorem following_run (lookup : Lookup) : work.Following done lookup := by
  induction done using List.reverseRecOn with
  | nil => exact ⟨.idle, Or.inl rfl, Nat.le_refl _⟩
  | append_singleton done action ih =>
      by_cases own : action = .get lookup
      · subst own
        exact ih.get apart few absent
      · exact ih.skip apart few action own

end Workload

/-- The cache is transparent to any number of concurrent lookups. Inserts under many hashes,
none of which shares a body key with another, each insert of the origin's response for its hash
and each possibly given up after any put, run together with evictions, `clear` calls and lookups
in any order, on maps without a header under the hashes looked up. Every lookup is given the
bytes of the origin's response from the front; it misses only if at its get no insert of the
response had finished or the header had been taken away, it is cut short only at a partition
that had been taken away, and it ends after at most `n / P + 2` gets. -/
theorem concurrent_lookups_transparent (work : Workload Writer Lookup)
    (apart : work.cache.Apart work.hashes)
    (few : ∀ writer, (work.inserts writer).body.length / work.cache.partition + 1 < 2 ^ 31)
    (absent : ∀ lookup, work.store.headerMap (work.cache.headerKey (work.asked lookup)) = none)
    (schedule : List (TrafficAction Writer Lookup)) :
    ∃ puts : Writer → List Put,
      (∀ writer, (work.inserts writer).puts work.cache (work.hashOf writer) =
        .ok (puts writer)) ∧
      let start : Traffic Writer Lookup :=
        ⟨work.store, fun writer => (puts writer).take (work.stop writer), fun _ => .idle⟩
      let final := Runs.run (Traffic.step work.context) start schedule
      ∀ lookup,
        Reader.OnTrack work.cache.partition (work.origin (work.asked lookup)).headers
          (work.body (work.asked lookup)) (work.Early schedule lookup)
          (work.Lost schedule lookup) (final.readers lookup) ∧
        ((work.body (work.asked lookup)).length / work.cache.partition + 2 ≤
          schedule.count (.get lookup) → (final.readers lookup).Finished) := by
  refine ⟨work.log, fun writer => (work.inserts writer).puts_eq_log work.cache _, ?_⟩
  intro start final lookup
  have following := work.following_run schedule apart few absent lookup
  exact ⟨following.track, following.finished⟩

def twoOrigins : Workload (Option Bool) Bool where
  cache := ⟨{ bodyPartitionSize := 2 }⟩
  origin hashKey := if hashKey = 17 then ⟨[⟨[65], [66]⟩], ⟨[1, 2, 3], by decide⟩⟩
    else ⟨[], ⟨[6], by decide⟩⟩
  store := Store.empty
  hashOf
    | some _ => 17
    | none => 42
  inserts
    | some _ => ⟨[⟨[65], [66]⟩], [⟨[1], by decide⟩, ⟨[2, 3], by decide⟩], by decide⟩
    | none => ⟨[], [⟨[6], by decide⟩], by decide⟩
  faithful
    | some _ => ⟨rfl, rfl⟩
    | none => ⟨rfl, rfl⟩
  stop writer := if writer = some false then 1 else 3
  asked lookup := if lookup then 17 else 42

theorem twoOrigins_apart : twoOrigins.cache.Apart twoOrigins.hashes := by
  apply HazelcastHttpCache.apart_of_digitCount _ _ 2
  intro hashKey member
  rcases member with ⟨writer, rfl⟩ | ⟨lookup, rfl⟩
  · rcases writer with _ | _ | _ <;> decide
  · cases lookup <;> decide

theorem twoOrigins_few (writer : Option Bool) :
    (twoOrigins.inserts writer).body.length / twoOrigins.cache.partition + 1 < 2 ^ 31 := by
  rcases writer with _ | _ | _ <;> decide

theorem concurrent_lookups_transparent_two :
    let schedule : List (TrafficAction (Option Bool) Bool) :=
      [.put (some false), .put (some true), .put none, .get false, .put (some true),
        .put (some true), .put none, .get true, .get true,
        .remove (.header (twoOrigins.cache.headerKey 17)), .get true, .get false]
    ∃ puts : Option Bool → List Put,
      (∀ writer, (twoOrigins.inserts writer).puts twoOrigins.cache (twoOrigins.hashOf writer) =
        .ok (puts writer)) ∧
      let final := Runs.run (Traffic.step twoOrigins.context) ⟨Store.empty, fun writer =>
        (puts writer).take (twoOrigins.stop writer), fun _ => .idle⟩ schedule
      (∀ lookup, (final.readers lookup).Finished) ∧ final.readers false = .missed ∧
        final.readers true = .complete (some [⟨[65], [66]⟩]) 3 [1, 2, 3] := by
  intro schedule
  obtain ⟨puts, emitted, outcome⟩ := concurrent_lookups_transparent twoOrigins twoOrigins_apart
    twoOrigins_few (fun _ => rfl) schedule
  have log := eq_logs_of_puts twoOrigins.inserts twoOrigins.cache twoOrigins.hashOf puts emitted
  refine ⟨puts, emitted, fun lookup => (outcome lookup).2 ?_, ?_, ?_⟩
  · cases lookup with
    | false => decide
    | true => decide
  · subst log
    decide
  · subst log
    decide

end HazelcastCache
