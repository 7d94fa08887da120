import HazelcastCache.Reading

/-! Sequential inserts under one hash, evictions at any time, and then a lookup. -/

namespace HazelcastCache

open Library

/-- The puts of complete inserts made one after the other. -/
def insertSequence (cache : HazelcastHttpCache) (hashKey : UInt64) :
    List Insert → Except Fault (List Put)
  | [] => .ok []
  | insert :: inserts => do
      let puts ← insert.puts cache hashKey
      let later ← insertSequence cache hashKey inserts
      .ok (puts ++ later)

theorem insertSequence_eq (cache : HazelcastHttpCache) (hashKey : UInt64)
    (inserts : List Insert) :
    insertSequence cache hashKey inserts =
      .ok (inserts.flatMap (fun insert => insert.log cache hashKey)) := by
  induction inserts with
  | nil => rfl
  | cons insert inserts ih =>
      rw [insertSequence, ih, Insert.puts_eq_log]
      rfl

/-- In the run the removal comes after the put with which `remaining` begins. -/
def RemovedAfter (context : HazelcastLookupContext) (cluster : Cluster Unit)
    (schedule : List (Action Unit)) (remaining : List Put) (removal : Action Unit) : Prop :=
  ∃ before after, schedule = before ++ .put () :: after ∧
    (cluster.run context before).pending () = remaining ∧ removal ∈ after

section Sequence

variable (context : HazelcastLookupContext) (store : Store) (earlier : List Put) (last : Insert)
  (few : last.body.length / context.hzCache.partition + 1 < 2 ^ 31)

def beforeInserts : Cluster Unit :=
  ⟨store, fun _ => earlier ++ last.log context.hzCache context.hashKey, .idle⟩

variable (writing reading : List (Action Unit))
  (complete : earlier.length + (last.log context.hzCache context.hashKey).length ≤
    writing.count (.put ()))

include complete

theorem exists_put_of_last (index : Nat)
    (inside : index < (last.log context.hzCache context.hashKey).length) :
    ∃ before after, writing = before ++ .put () :: after ∧
      ((beforeInserts context store earlier last).run context before).pending () =
        (last.log context.hzCache context.hashKey).drop index := by
  rcases Runs.exists_split_of_lt_count (.put ()) writing
    (earlier.length + index) (by omega) with ⟨before, after, split, counted⟩
  refine ⟨before, after, split, ?_⟩
  rw [Cluster.pending_run, counted]
  simp [beforeInserts]

theorem header_after_inserts :
    let final := (beforeInserts context store earlier last).run context writing
    final.store.headerMap (context.hzCache.headerKey context.hashKey) =
        some ⟨some last.headers, UInt64.ofNat last.body.length⟩ ∨
      final.store.headerMap (context.hzCache.headerKey context.hashKey) = none ∧
        RemovedAfter context (beforeInserts context store earlier last) (writing ++ reading)
          ((last.log context.hzCache context.hashKey).drop (last.partitions context.hzCache))
          (.evictHeader (context.hzCache.headerKey context.hashKey)) := by
  rcases exists_put_of_last context store earlier last writing
    complete (last.partitions context.hzCache) (by rw [Insert.log_length]; omega) with
    ⟨before, after, rfl, pending⟩
  have waiting := pending.trans (last.log_drop_header context.hzCache context.hashKey)
  rw [Cluster.run_put context _ before after () _ _ waiting]
  rcases Cluster.headerMap_run context ⟨_, Function.update _ () [], _⟩ after
    (context.hzCache.headerKey context.hashKey) _
    (headerMap_headerPut context.hzCache context.hashKey _ last.headers last.body.length)
    (by simp) with present | ⟨absent, evicted⟩
  · exact Or.inl present
  · exact Or.inr ⟨absent, before, after ++ reading, by simp, pending, by simp [evicted]⟩

include few

theorem partition_after_inserts (index : Nat)
    (inside : index * context.hzCache.partition < last.body.length) :
    let final := (beforeInserts context store earlier last).run context writing
    final.store.bodyMap (context.hzCache.bodyKey context.hashKey index) =
        some ⟨Segments.block context.hzCache.partition index last.body⟩ ∨
      final.store.bodyMap (context.hzCache.bodyKey context.hashKey index) = none ∧
        RemovedAfter context (beforeInserts context store earlier last) (writing ++ reading)
          ((last.log context.hzCache context.hashKey).drop index)
          (.evictBody (context.hzCache.bodyKey context.hashKey index)) := by
  have number := last.lt_partitions context.hzCache index inside
  have count := last.partitions_le context.hzCache
  rcases exists_put_of_last context store earlier last writing
    complete index (by rw [Insert.log_length]; omega) with ⟨before, after, rfl, pending⟩
  have waiting := pending.trans (last.log_drop context.hzCache context.hashKey index number)
  rcases (beforeInserts context store earlier last).partition_run context before after () last.body
    index _ (· = ⟨Segments.block context.hzCache.partition index last.body⟩) (by omega) waiting
    (fun _ entry member => last.body_mem_log context.hzCache
      context.hashKey index entry few (List.mem_of_mem_drop (pending ▸ member)))
    with ⟨_, present, rfl⟩ | ⟨absent, evicted⟩
  · exact Or.inl present
  · exact Or.inr ⟨absent, before, after ++ reading, by simp, pending, by simp [evicted]⟩

theorem lookup_after_inserts (quiet : .get ∉ writing) :
    let start := beforeInserts context store earlier last
    let log := last.log context.hzCache context.hashKey
    let final := start.run context (writing ++ reading)
    Reader.OnTrack context.hzCache.partition last.headers last.body
        (RemovedAfter context start (writing ++ reading)
          (log.drop (last.partitions context.hzCache))
          (.evictHeader (context.hzCache.headerKey context.hashKey)))
        (fun index => RemovedAfter context start (writing ++ reading) (log.drop index)
          (.evictBody (context.hzCache.bodyKey context.hashKey index)))
        final.reader ∧
      (last.body.length / context.hzCache.partition + 2 ≤ reading.countP Action.isGet →
        final.reader.Finished) := by
  intro start log final
  have silent : (start.run context writing).reader = .idle :=
    start.reader_run context writing quiet
  have later : ∀ before : List (Action Unit), earlier.length + log.length ≤
      (writing ++ before).count (.put ()) := by
    intro before
    rw [List.count_append]
    exact Nat.le_trans complete (Nat.le_add_right _ _)
  obtain ⟨onTrack, spent⟩ := Cluster.onTrack_run context (start.run context writing) reading
    last.headers last.body
    (RemovedAfter context start (writing ++ reading)
      (log.drop (last.partitions context.hzCache))
      (.evictHeader (context.hzCache.headerKey context.hashKey)))
    (fun index => RemovedAfter context start (writing ++ reading) (log.drop index)
      (.evictBody (context.hzCache.bodyKey context.hashKey index)))
    last.size_lt (by rw [silent]; exact .idle)
    (by
      intro before after split now _
      subst split
      have moment : now = start.run context (writing ++ before) :=
        (start.run_append context writing before).symm
      rw [moment, ← List.append_assoc]
      exact header_after_inserts context store earlier last (writing ++ before) (.get :: after)
        (later before))
    (by
      intro before after split now index _ inside
      subst split
      have moment : now = start.run context (writing ++ before) :=
        (start.run_append context writing before).symm
      rw [moment, ← List.append_assoc]
      rcases partition_after_inserts context store earlier last few (writing ++ before)
        (.get :: after) (later before) index inside with present | absent
      · exact Or.inl ⟨_, present, serves_block _ last.body index⟩
      · exact Or.inr absent)
  rw [← Cluster.run_append] at onTrack spent
  refine ⟨onTrack, fun enough => onTrack.finished context.hzCache.partition_pos ?_⟩
  rw [silent, Reader.work, Nat.sub_eq_zero_of_le enough] at spent
  exact Nat.le_zero.mp spent

end Sequence

/-- The last complete insert wins, whatever was in the maps and whatever is evicted when.
The lookup that follows misses only if the header was evicted after the last insert; else it
returns the headers and the size of the last insert, and is given its body partition by
partition. It ends after `n / P + 2` gets, with the whole body or aborted at a partition that
was evicted after the last insert had put it. -/
theorem last_insert_wins (context : HazelcastLookupContext) (store : Store)
    (earlier : List Insert) (last : Insert)
    (few : last.body.length / context.hzCache.partition + 1 < 2 ^ 31) :
    ∃ earlierPuts lastPuts,
      insertSequence context.hzCache context.hashKey earlier = .ok earlierPuts ∧
      last.puts context.hzCache context.hashKey = .ok lastPuts ∧
      ∀ writing reading : List (Action Unit), .get ∉ writing →
        (earlierPuts ++ lastPuts).length ≤ writing.count (.put ()) →
        let start : Cluster Unit := ⟨store, fun _ => earlierPuts ++ lastPuts, .idle⟩
        let final := start.run context (writing ++ reading)
        Reader.OnTrack context.hzCache.partition last.headers last.body
            (RemovedAfter context start (writing ++ reading)
              (lastPuts.drop (lastPuts.length - 1))
              (.evictHeader (context.hzCache.headerKey context.hashKey)))
            (fun index => RemovedAfter context start (writing ++ reading) (lastPuts.drop index)
              (.evictBody (context.hzCache.bodyKey context.hashKey index)))
            final.reader ∧
          (last.body.length / context.hzCache.partition + 2 ≤ reading.countP Action.isGet →
            final.reader.Finished) := by
  refine ⟨_, _, insertSequence_eq context.hzCache context.hashKey earlier,
    last.puts_eq_log context.hzCache context.hashKey, ?_⟩
  intro writing reading quiet complete
  rw [List.length_append] at complete
  rw [Insert.log_length, Nat.add_sub_cancel]
  exact lookup_after_inserts context store _ last few writing reading complete quiet

theorem last_insert_wins_evicted :
    let context : HazelcastLookupContext := ⟨⟨{ bodyPartitionSize := 2 }⟩, 17, none⟩
    let first : Insert := ⟨[], [⟨[1, 2, 3], by decide⟩], by decide⟩
    let last : Insert := ⟨[⟨[65], [66]⟩], [⟨[4], by decide⟩, ⟨[5, 6], by decide⟩], by decide⟩
    let writing : List (Action Unit) := .evictBody ("", "170") :: List.replicate 6 (.put ())
    let reading : List (Action Unit) := [.get, .evictBody ("", "171"), .get, .get]
    ∃ firstPuts lastPuts, first.puts context.hzCache 17 = .ok firstPuts ∧
      last.puts context.hzCache 17 = .ok lastPuts ∧
      (Cluster.run context ⟨Store.empty, fun _ => firstPuts ++ lastPuts, .idle⟩
        (writing ++ reading)).reader.Finished := by
  intro context first last writing reading
  rcases last_insert_wins context Store.empty [first] last (by decide) with
    ⟨firstPuts, lastPuts, emitted, lastEmitted, run⟩
  have firstLength : (insertSequence context.hzCache 17 [first]).map List.length = .ok 3 := by
    decide
  have lastLength : (last.puts context.hzCache 17).map List.length = .ok 3 := by decide
  rw [emitted] at firstLength
  rw [lastEmitted] at lastLength
  have total : (firstPuts ++ lastPuts).length = 6 := by
    rw [List.length_append, Except.ok.inj firstLength, Except.ok.inj lastLength]
  refine ⟨firstPuts, lastPuts, ?_, lastEmitted, ?_⟩
  · rw [← emitted, insertSequence_eq, Insert.puts_eq_log, List.flatMap_singleton]
  · exact (run writing reading (by decide) (by rw [total]; decide)).2 (by decide)

end HazelcastCache
