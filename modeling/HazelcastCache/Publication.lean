import HazelcastCache.Concurrent

/-! What a lookup gets to see of concurrent inserts. -/

namespace HazelcastCache

open Library

theorem undisturbed_of_same {Writer : Type} [DecidableEq Writer]
    (context : HazelcastLookupContext) (store : Store) (inserts : Writer → Insert)
    (stop : Writer → Nat) (body : Bytes) (same : ∀ writer, (inserts writer).body = body)
    (few : body.length / context.hzCache.partition + 1 < 2 ^ 31)
    (schedule : List (Action Writer)) (writer : Writer) :
    Undisturbed context inserts (beforeWriters context store inserts stop) schedule writer := by
  intro before after other index entry rest _ waiting _
  left
  have member := mem_pending context store inserts stop before other
    (.body (context.hzCache.bodyKey context.hashKey index) entry) (waiting ▸ List.mem_cons_self)
  have known := (inserts other).body_mem_log context.hzCache context.hashKey index entry
    (by rwa [same other]) member
  rwa [same writer, ← same other]

/-- Publishing the header last is safe for concurrent inserts of one response, each with its
own chunking and each possibly given up after any put. While they are at work a lookup either
misses or is given exactly the response, and it misses if no insert gets to its header. -/
theorem concurrent_inserts_publish_once {Writer : Type} [DecidableEq Writer]
    (context : HazelcastLookupContext) (store : Store)
    (absent : store.headerMap (context.hzCache.headerKey context.hashKey) = none)
    (headers : HeaderMapImpl) (body : Buffer)
    (few : body.bytes.length / context.hzCache.partition + 1 < 2 ^ 31)
    (inserts : Writer → Insert)
    (same : ∀ writer, (inserts writer).headers = headers ∧ (inserts writer).body = body.bytes)
    (stop : Writer → Nat) (schedule : List (Action Writer))
    (kept : ∀ action ∈ schedule, action.isEviction = false) :
    ∃ puts : Writer → List Put,
      (∀ writer, (inserts writer).puts context.hzCache context.hashKey = .ok (puts writer)) ∧
      let start : Cluster Writer :=
        ⟨store, fun writer => (puts writer).take (stop writer), .idle⟩
      let final := start.run context schedule
      (final.reader = .idle ∨ final.reader = .missed ∨
        ∃ index, final.reader =
          Reader.upTo context.hzCache.partition headers body.bytes index) ∧
      (body.bytes.length / context.hzCache.partition + 2 ≤ schedule.countP Action.isGet →
        final.reader = .missed ∨
          final.reader = .complete (some headers) body.length body.bytes) ∧
      ((∀ writer, min (stop writer) (schedule.count (.put writer)) < (puts writer).length) →
        .get ∈ schedule → final.reader = .missed) := by
  refine ⟨_, fun writer => (inserts writer).puts_eq_log context.hzCache context.hashKey, ?_⟩
  intro start final
  have bodies : ∀ writer, (inserts writer).body.length / context.hzCache.partition + 1 <
      2 ^ 31 := by
    intro writer
    rwa [(same writer).2]
  rcases lookup_hitOn context store inserts stop schedule bodies kept absent with
    ⟨idle, silent⟩ | missed | ⟨writer, hit⟩
  · refine ⟨Or.inl idle, fun enough => ?_, fun _ asked => ?_⟩
    · exact absurd enough (by rw [silent]; exact Nat.not_succ_le_zero _)
    · exact absurd rfl (List.countP_eq_zero.mp silent .get asked)
  · exact ⟨Or.inr (Or.inl missed), fun _ => Or.inl missed, fun _ _ => missed⟩
  · have position := hit.undisturbed (undisturbed_of_same context store inserts stop body.bytes
      (fun other => (same other).2) few schedule writer)
    rw [(same writer).1, (same writer).2] at position
    refine ⟨Or.inr (Or.inr ⟨_, position⟩), fun enough => Or.inr ?_, fun unpublished _ => ?_⟩
    · refine position.trans (Reader.upTo_of_le _ _ _ _ ?_)
      have rounds : body.bytes.length / context.hzCache.partition + 1 ≤
          schedule.countP Action.isGet - 1 := Nat.le_sub_one_of_lt enough
      calc
        body.bytes.length ≤
            (body.bytes.length / context.hzCache.partition + 1) * context.hzCache.partition :=
          length_le_partitions context.hzCache body.bytes.length
        _ ≤ (schedule.countP Action.isGet - 1) * context.hzCache.partition :=
          Nat.mul_le_mul_right _ rounds
    · exact absurd hit.published (Nat.not_le.mpr (unpublished writer))

theorem concurrent_inserts_publish_once_two :
    let context : HazelcastLookupContext := ⟨⟨{ bodyPartitionSize := 2 }⟩, 17, none⟩
    let inserts : Bool → Insert := fun writer => if writer
      then ⟨[], [⟨[4], by decide⟩, ⟨[5, 6], by decide⟩], by decide⟩
      else ⟨[], [⟨[4, 5, 6], by decide⟩], by decide⟩
    let schedule : List (Action Bool) :=
      [.put true, .put false, .put false, .put false, .get, .put true, .get, .get]
    ∃ puts : Bool → List Put,
      (∀ writer, (inserts writer).puts context.hzCache 17 = .ok (puts writer)) ∧
      (Cluster.run context ⟨Store.empty, fun writer =>
        (puts writer).take (if writer then 1 else 3), .idle⟩ schedule).reader =
          .complete (some []) 3 [4, 5, 6] := by
  intro context inserts schedule
  obtain ⟨puts, emitted, _, outcome, _⟩ := concurrent_inserts_publish_once context Store.empty rfl
    [] ⟨[4, 5, 6], by decide⟩ (by decide) inserts (by decide) (fun writer => if writer then 1 else 3)
    schedule (by decide)
  refine ⟨puts, emitted, ?_⟩
  have log := eq_logs_of_puts inserts context.hzCache (fun _ => 17) puts emitted
  rcases outcome (by decide) with missed | complete
  · rw [log] at missed
    exact absurd missed (by decide)
  · exact complete

/-! Different responses. -/

def twoResponses : Bool → Insert
  | true => ⟨[⟨[65], [66]⟩], [⟨[1, 2], by decide⟩], by decide⟩
  | false => ⟨[⟨[67], [68]⟩], [⟨[3, 4], by decide⟩], by decide⟩

/-- The first insert is over before the lookup begins; the second overwrites its partitions
between two gets. -/
def overtaken : List (Action Bool) :=
  List.replicate 4 (.put true) ++ [.get, .get] ++ List.replicate 4 (.put false) ++ [.get]

/-- A hit is on the header of one insert that has made all its puts, and gives its headers and
its size. As long as no call reads beyond the partition it has found, the bytes delivered are,
position by position, bytes of the inserts' bodies; and no call does if no body is shorter than
that insert's. They are those of that insert's body if nobody else puts a different value under
the key of one of its partitions after it has put it and before the lookup has got it. -/
theorem lookup_sees_one_header {Writer : Type} [DecidableEq Writer]
    (context : HazelcastLookupContext) (store : Store)
    (absent : store.headerMap (context.hzCache.headerKey context.hashKey) = none)
    (inserts : Writer → Insert)
    (few : ∀ writer, (inserts writer).body.length / context.hzCache.partition + 1 < 2 ^ 31)
    (schedule : List (Action Writer))
    (kept : ∀ action ∈ schedule, action.isEviction = false) :
    ∃ puts : Writer → List Put,
      (∀ writer, (inserts writer).puts context.hzCache context.hashKey = .ok (puts writer)) ∧
      let start : Cluster Writer := ⟨store, puts, .idle⟩
      let final := start.run context schedule
      final.reader = .idle ∨ final.reader = .missed ∨
        ∃ writer, (puts writer).length ≤ schedule.count (.put writer) ∧
          (∃ before after, schedule = before ++ .get :: after ∧ .get ∉ before ∧
            (puts writer).length ≤ before.count (.put writer) ∧
            (context.getHeaders (start.run context before).store).2 =
              some (some (inserts writer).headers,
                UInt64.ofNat (inserts writer).body.length)) ∧
          Reader.Sourced inserts writer final.reader ∧
          ((∀ other, (inserts writer).body.length ≤ (inserts other).body.length) →
            (inserts writer).body.length ≤ 2 ^ 63 →
            ∃ mixed, mixed.length = (inserts writer).body.length ∧ Patched inserts mixed ∧
              final.reader = Reader.upTo context.hzCache.partition (inserts writer).headers
                mixed (schedule.countP Action.isGet - 1)) ∧
          (Undisturbed context inserts start schedule writer →
            final.reader = Reader.upTo context.hzCache.partition (inserts writer).headers
              (inserts writer).body (schedule.countP Action.isGet - 1)) := by
  refine ⟨_, fun writer => (inserts writer).puts_eq_log context.hzCache context.hashKey, ?_⟩
  intro start final
  have whole : start = beforeWriters context store inserts (fun writer =>
      ((inserts writer).log context.hzCache context.hashKey).length) := by
    simp only [start, beforeWriters, List.take_length]
  rcases lookup_hitOn context store inserts (fun writer =>
      ((inserts writer).log context.hzCache context.hashKey).length) schedule few kept absent with
    ⟨idle, _⟩ | missed | ⟨writer, hit⟩
  · left
    rwa [← whole] at idle
  · right
    left
    rwa [← whole] at missed
  · obtain ⟨before, after, split, silent, complete, header⟩ := hit.found
    have mixes := hit.mixes
    have sourced := hit.sourced
    have undisturbed := hit.undisturbed
    rw [← whole] at header mixes sourced undisturbed
    refine Or.inr (Or.inr ⟨writer, Nat.le_trans hit.published (Nat.min_le_right _ _),
      ⟨before, after, split, ?_, Nat.le_trans complete (Nat.min_le_right _ _), ?_⟩, sourced, mixes,
      undisturbed⟩)
    · intro asked
      exact absurd rfl (List.countP_eq_zero.mp silent .get asked)
    · rw [HazelcastLookupContext.getHeaders_result, header]
      rfl

theorem lookup_sees_one_header_overtaken :
    let context : HazelcastLookupContext := ⟨⟨{ bodyPartitionSize := 1 }⟩, 17, none⟩
    ∃ puts : Bool → List Put,
      (∀ writer, (twoResponses writer).puts context.hzCache 17 = .ok (puts writer)) ∧
      let final := Cluster.run context ⟨Store.empty, puts, .idle⟩ overtaken
      final.reader = .complete (some [⟨[65], [66]⟩]) 2 [1, 4] ∧
      ∃ writer mixed, mixed.length = 2 ∧ Patched twoResponses mixed ∧
        final.reader = Reader.upTo 1 (twoResponses writer).headers mixed 2 := by
  intro context
  rcases lookup_sees_one_header context Store.empty rfl twoResponses
    (by decide) overtaken (by decide) with ⟨puts, emitted, outcome⟩
  refine ⟨puts, emitted, ?_⟩
  have log := eq_logs_of_puts twoResponses context.hzCache (fun _ => 17) puts emitted
  have read : (Cluster.run context ⟨Store.empty, puts, .idle⟩ overtaken).reader =
      .complete (some [⟨[65], [66]⟩]) 2 [1, 4] := by
    rw [log]
    decide
  refine ⟨read, ?_⟩
  rcases outcome with idle | missed | ⟨writer, _, _, _, mixes, _⟩
  · cases read.symm.trans idle
  · cases read.symm.trans missed
  · have length : ∀ writer, (twoResponses writer).body.length = 2 := by decide
    obtain ⟨mixed, size, patched, position⟩ := mixes
      (fun other => by rw [length, length]) (by rw [length]; decide)
    exact ⟨writer, mixed, size.trans (length writer), patched, position⟩

theorem lookup_mixes_responses :
    let context : HazelcastLookupContext := ⟨⟨{ bodyPartitionSize := 1 }⟩, 17, none⟩
    ∃ puts : Bool → List Put,
      (∀ writer, (twoResponses writer).puts context.hzCache 17 = .ok (puts writer)) ∧
      (∀ writer, (puts writer).length ≤ overtaken.count (.put writer)) ∧
      (Cluster.run context ⟨Store.empty, puts, .idle⟩ overtaken).reader =
        .complete (some [⟨[65], [66]⟩]) 2 [1, 4] ∧
      ∀ writer, (twoResponses writer).body ≠ [1, 4] := by
  intro context
  refine ⟨_, fun writer => (twoResponses writer).puts_eq_log context.hzCache 17, ?_, ?_, ?_⟩
  · decide
  · decide
  · decide

end HazelcastCache
