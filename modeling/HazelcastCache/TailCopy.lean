import HazelcastCache.Reading

/-! The copy of a partition's tail, while several inserts under one hash are at work.

`getBody` compares the range with the partition size but not with the bytes it has found, so
whether the copy stays in the buffer depends on the insert that put them last. -/

namespace HazelcastCache

open Library

section Writers

variable {Writer : Type} [DecidableEq Writer] (context : HazelcastLookupContext)
  (inserts : Writer → Insert)

def emptyMaps : Cluster Writer :=
  ⟨Store.empty, fun writer => (inserts writer).log context.hzCache context.hashKey, .idle⟩

def PutsNext (key : String × String) (writer : Writer) (count : Nat) : Prop :=
  count < (inserts writer).partitions context.hzCache ∧
    context.hzCache.orderKey context.hashKey count = key

instance (key : String × String) (writer : Writer) (count : Nat) :
    Decidable (PutsNext context inserts key writer count) :=
  inferInstanceAs (Decidable (_ ∧ _))

/-- The last put under `key` in a history, newest action first: whose it was and of which
partition. -/
def lastPut (key : String × String) : List (Action Writer) → Option (Writer × Nat)
  | [] => none
  | .put writer :: earlier =>
      if PutsNext context inserts key writer (earlier.count (.put writer)) then
        some (writer, earlier.count (.put writer))
      else lastPut key earlier
  | _ :: earlier => lastPut key earlier

theorem pending_putsNext (schedule : List (Action Writer)) (key : String × String)
    (writer : Writer)
    (next : PutsNext context inserts key writer (schedule.count (.put writer))) :
    ∃ rest, ((emptyMaps context inserts).run context schedule).pending writer =
      .body key ⟨Segments.block context.hzCache.partition (schedule.count (.put writer))
        (inserts writer).body⟩ :: rest := by
  obtain ⟨inside, rfl⟩ := next
  rw [Cluster.pending_run]
  exact ⟨_, (inserts writer).log_drop context.hzCache context.hashKey _ inside⟩

theorem putsNext_of_pending (schedule : List (Action Writer)) (key : String × String)
    (writer : Writer) (entry : HazelcastBodyEntry) (rest : List Put)
    (waiting : ((emptyMaps context inserts).run context schedule).pending writer =
      .body key entry :: rest) :
    PutsNext context inserts key writer (schedule.count (.put writer)) := by
  rw [Cluster.pending_run] at waiting
  change List.drop _ ((inserts writer).log context.hzCache context.hashKey) = _ at waiting
  rcases Nat.lt_or_ge (schedule.count (.put writer))
      ((inserts writer).partitions context.hzCache) with inside | finished
  · rw [Insert.log_drop _ _ _ _ inside] at waiting
    cases waiting
    exact ⟨inside, rfl⟩
  · -- Only the header is left.
    rw [← Nat.add_sub_cancel' finished, ← List.drop_drop, Insert.log_drop_header] at waiting
    have member := List.mem_of_mem_drop (waiting ▸ List.mem_cons_self)
    cases List.mem_singleton.mp member

theorem bodyMap_eq_lastPut (schedule : List (Action Writer))
    (kept : ∀ action ∈ schedule, action.isEviction = false) (key : String × String) :
    ((emptyMaps context inserts).run context schedule).store.bodyMap key =
      (lastPut context inserts key schedule.reverse).map (fun put =>
        ⟨Segments.block context.hzCache.partition put.2 (inserts put.1).body⟩) := by
  induction schedule using List.reverseRecOn with
  | nil => rfl
  | append_singleton schedule action ih =>
      have earlier := ih (fun previous member => kept previous (List.mem_append_left _ member))
      rw [Cluster.run_concat, List.reverse_append, List.reverse_singleton, List.singleton_append]
      rcases Cluster.step_cases context
          ((emptyMaps context inserts).run context schedule) action with
        ⟨writer, rfl, waiting, next⟩ | ⟨writer, put, rest, rfl, waiting, next⟩ |
          ⟨removed, rfl, next⟩ | ⟨removed, rfl, next⟩ | ⟨rfl, next⟩
      · rw [next, earlier, lastPut, List.count_reverse, if_neg]
        intro putsNext
        obtain ⟨_, other⟩ := pending_putsNext context inserts schedule key writer putsNext
        rw [waiting] at other
        cases other
      · rw [next, lastPut, List.count_reverse]
        split
        · rename_i putsNext
          obtain ⟨_, other⟩ := pending_putsNext context inserts schedule key writer putsNext
          rw [waiting] at other
          cases other
          exact KeyedMap.write_self _ (key, _)
        · rename_i elsewhere
          rw [← earlier]
          cases put with
          | header written entry => rfl
          | body written entry =>
              apply KeyedMap.write_of_ne _ (written, entry) key
              intro same
              subst same
              exact elsewhere
                (putsNext_of_pending context inserts schedule _ writer entry rest waiting)
      · cases kept (.evictHeader removed) (by simp)
      · cases kept (.evictBody removed) (by simp)
      · rw [next]
        exact earlier

end Writers

/-! One call of `getBody`. -/

/-- `getBody` goes on to the next partition: its test of the range fails. -/
def TakesTail (context : HazelcastLookupContext) (range : AdjustedByteRange) : Prop :=
  ¬ range.last < (range.first / context.bodyPartitionSize + 1) * context.bodyPartitionSize

/-- The copy starts inside the buffer, its unsigned length does not wrap around, and at least
one byte is delivered. -/
structure TailCopied (context : HazelcastLookupContext) (store : Store)
    (range : AdjustedByteRange) (entry : HazelcastBodyEntry) : Prop where
  inside : (range.first % context.bodyPartitionSize).toNat < entry.bodyBuffer.length
  length : (UInt64.ofNat entry.bodyBuffer.length - range.first % context.bodyPartitionSize).toNat =
    entry.bodyBuffer.length - (range.first % context.bodyPartitionSize).toNat
  delivers : ∃ bytes, context.getBody store range = .ok (some bytes) ∧ bytes ≠ []

section Copy

variable (context : HazelcastLookupContext) (store : Store) (range : AdjustedByteRange)
  (entry : HazelcastBodyEntry) (found : store.bodyMap (context.bodyKeyOf range) = some entry)

theorem TakesTail.beyond (tail : TakesTail context range) :
    context.partitionEnd range ≤ range.last.toNat ∨ 2 ^ 64 ≤ context.partitionEnd range := by
  rw [TakesTail, context.last_lt_partitionEnd_iff range] at tail
  omega

include found

theorem tailCopied_iff (bounded : entry.bodyBuffer.length < 2 ^ 64)
    (tail : TakesTail context range) :
    TailCopied context store range entry ↔
      range.first.toNat % context.hzCache.partition < entry.bodyBuffer.length := by
  have start : (range.first % context.bodyPartitionSize).toNat =
      range.first.toNat % context.hzCache.partition := UInt64.toNat_mod _ _
  constructor
  · intro copied
    rw [← start]
    exact copied.inside
  · intro inside
    have total : (UInt64.ofNat entry.bodyBuffer.length).toNat = entry.bodyBuffer.length :=
      UInt64.toNat_ofNat_of_lt' bounded
    have copied := context.getBody_beyond store range entry found bounded
      (TakesTail.beyond context range tail)
    simp only [if_pos (Nat.le_of_lt inside)] at copied
    refine ⟨by rwa [start], ?_, _, copied, ?_⟩
    · rw [UInt64.toNat_sub_of_le _ _ (by rw [UInt64.le_iff_toNat_le, total, start]; omega), total]
    · intro nothing
      rw [List.drop_eq_nil_iff] at nothing
      omega

theorem within_delivers (within : ¬ TakesTail context range) (bytes : Bytes)
    (delivered : context.getBody store range = .ok (some bytes)) : bytes ≠ [] := by
  rw [TakesTail, not_not, context.last_lt_partitionEnd_iff range] at within
  rw [context.getBody_within store range entry found within.1 within.2] at delivered
  have positive := context.hzCache.partition_pos
  have ordered := UInt64.lt_iff_toNat_lt.mp range.first_lt_last
  have floor := Nat.div_mul_le_self range.first.toNat context.hzCache.partition
  -- The end of the range lies behind the border at which the partition starts.
  have size : range.last.toNat % context.hzCache.partition =
      range.last.toNat - range.first.toNat / context.hzCache.partition *
        context.hzCache.partition := by
    rw [Nat.mod_eq_sub_div_mul, Nat.div_eq_of_lt_le (by omega) within.1]
  dsimp only at delivered
  split at delivered
  · rename_i fits
    cases delivered
    intro nothing
    have lengths := congrArg List.length nothing
    simp only [List.extract, List.length_take, List.length_drop, List.length_nil] at lengths
    omega
  · cases delivered

end Copy

/-! The caller's loop. -/

/-- While a lookup is under way it has been given a byte for every get but the first. -/
def Reader.Advances (gets : Nat) : Reader → Prop
  | .idle => gets = 0
  | .reading _ total delivered => gets ≤ delivered.length + 1 ∧ delivered.length < total.toNat
  | _ => True

theorem Reader.Advances.resume (gets : Nat) (headers : Option HeaderMapImpl) (total : UInt64)
    (delivered : Bytes) (enough : gets ≤ delivered.length + 1) :
    (Reader.resume headers total delivered).Advances gets := by
  unfold Reader.resume
  split
  · trivial
  · split
    · rename_i unfinished
      exact ⟨enough, unfinished⟩
    · trivial

theorem Reader.Advances.step {gets : Nat} {reader : Reader} (advances : reader.Advances gets)
    (context : HazelcastLookupContext) (store : Store)
    (long : ∀ headers total delivered range entry, reader = .reading headers total delivered →
      range.first.toNat = delivered.length → range.last = total → TakesTail context range →
      store.bodyMap (context.bodyKeyOf range) = some entry →
      TailCopied context store range entry) :
    (reader.step context store).Advances (gets + 1) := by
  cases reader with
  | idle =>
      change gets = 0 at advances
      simp only [Reader.step]
      split
      · trivial
      · exact .resume _ _ _ [] (by simp [advances])
  | reading headers total delivered =>
      rcases Reader.step_reading context store headers total delivered advances.2 with
        ⟨range, first, last, next⟩
      rw [next]
      split
      · rename_i bytes given
        apply Reader.Advances.resume
        cases found : store.bodyMap (context.bodyKeyOf range) with
        | none =>
            rw [context.getBody_missing store range found] at given
            cases given
        | some entry =>
            have nonempty : bytes ≠ [] := by
              by_cases tail : TakesTail context range
              · rcases (long headers total delivered range entry rfl first
                  (UInt64.toNat_inj.mp last) tail found).delivers with ⟨_, same, nonempty⟩
                rw [given] at same
                cases same
                exact nonempty
              · exact within_delivers context store range entry found tail bytes given
            have positive := List.length_pos_iff.mpr nonempty
            have enough := advances.1
            rw [List.length_append]
            omega
      · trivial
      · trivial
  | missed => trivial
  | complete headers total delivered => trivial
  | aborted headers total delivered => trivial
  | faulted fault => trivial

section Writers

variable {Writer : Type} [DecidableEq Writer] (context : HazelcastLookupContext)
  (inserts : Writer → Insert)

/-- The insert that has put the partition of the range's first byte last has bytes from that
place on. -/
def ReachesPast (schedule : List (Action Writer)) (range : AdjustedByteRange) : Prop :=
  ∀ writer index,
    lastPut context inserts (context.bodyKeyOf range) schedule.reverse = some (writer, index) →
    index * context.hzCache.partition + range.first.toNat % context.hzCache.partition <
      (inserts writer).body.length

/-- Every get of the lookup that takes the tail of a partition meets the condition. -/
def LookupReachesPast (schedule : List (Action Writer)) : Prop :=
  ∀ before after headers total delivered range, schedule = before ++ .get :: after →
    ((emptyMaps context inserts).run context before).reader = .reading headers total delivered →
    range.first.toNat = delivered.length → range.last = total → TakesTail context range →
    ReachesPast context inserts before range

variable (schedule : List (Action Writer)) (kept : ∀ action ∈ schedule, action.isEviction = false)

include kept

theorem tailCopied_iff_reachesPast (range : AdjustedByteRange) (entry : HazelcastBodyEntry)
    (found : ((emptyMaps context inserts).run context schedule).store.bodyMap
      (context.bodyKeyOf range) = some entry) (tail : TakesTail context range) :
    TailCopied context ((emptyMaps context inserts).run context schedule).store range entry ↔
      ReachesPast context inserts schedule range := by
  have stored := found
  rw [bodyMap_eq_lastPut context inserts schedule kept] at stored
  obtain ⟨⟨writer, index⟩, last, rfl⟩ := Option.map_eq_some_iff.mp stored
  have width := context.hzCache.partition_lt
  have start := Nat.mod_lt range.first.toNat context.hzCache.partition_pos
  have length := Segments.block_length context.hzCache.partition index (inserts writer).body
  rw [tailCopied_iff context _ range _ found (by rw [length]; omega) tail, length]
  constructor
  · intro inside other position same
    rw [last] at same
    cases same
    omega
  · intro reaches
    have inside := reaches writer index last
    omega

theorem reader_advances (reaches : LookupReachesPast context inserts schedule) :
    ((emptyMaps context inserts).run context schedule).reader.Advances
      (schedule.countP Action.isGet) := by
  induction schedule using List.reverseRecOn with
  | nil => rfl
  | append_singleton schedule action ih =>
      have keptBefore : ∀ previous ∈ schedule, previous.isEviction = false :=
        fun previous member => kept previous (List.mem_append_left _ member)
      have earlier := ih keptBefore (fun before after headers total delivered range split =>
        reaches before (after ++ [action]) headers total delivered range (by simp [split]))
      by_cases isGet : action = .get
      · subst isGet
        rw [Cluster.reader_append_get, List.countP_append]
        apply earlier.step
        intro headers total delivered range entry reading first last tail found
        rw [tailCopied_iff_reachesPast context inserts schedule keptBefore range entry found tail]
        exact reaches schedule [] headers total delivered range rfl reading first last tail
      · rw [Cluster.reader_append_of_ne context _ schedule action isGet, List.countP_append,
          List.countP_singleton, action.isGet_of_ne isGet]
        exact earlier

end Writers

/-- In every run of complete inserts, whenever `getBody` takes the tail of the partition it has
found, it stays in the buffer and delivers a byte, if and only if the body of the insert that
has put this partition last goes beyond the first byte of the range. A lookup whose gets all
meet this has made no more gets than its body has bytes as long as its loop has not ended. -/
theorem tail_copy_advances_iff {Writer : Type} [DecidableEq Writer]
    (context : HazelcastLookupContext) (inserts : Writer → Insert)
    (schedule : List (Action Writer)) (kept : ∀ action ∈ schedule, action.isEviction = false) :
    ∃ puts : Writer → List Put,
      (∀ writer, (inserts writer).puts context.hzCache context.hashKey = .ok (puts writer)) ∧
      let now := Cluster.run context ⟨Store.empty, puts, .idle⟩ schedule
      (∀ range entry, now.store.bodyMap (context.bodyKeyOf range) = some entry →
        TakesTail context range →
        (TailCopied context now.store range entry ↔
          ReachesPast context inserts schedule range)) ∧
      (LookupReachesPast context inserts schedule →
        ∀ headers total delivered, now.reader = .reading headers total delivered →
          schedule.countP Action.isGet ≤ total.toNat) := by
  refine ⟨fun writer => (inserts writer).log context.hzCache context.hashKey,
    fun writer => (inserts writer).puts_eq_log context.hzCache context.hashKey, ?_, ?_⟩
  · intro range entry found tail
    exact tailCopied_iff_reachesPast context inserts schedule kept range entry found tail
  · intro reaches headers total delivered reading
    have advances := reader_advances context inserts schedule kept reaches
    change Reader.Advances _ (Cluster.run context (emptyMaps context inserts) schedule).reader
      at advances
    rw [emptyMaps, reading] at advances
    exact Nat.le_trans advances.1 advances.2

def longAndShort : Bool → Insert
  | true => .single [] ⟨[1, 2, 3, 4, 5, 6], by decide⟩
  | false => .single [] ⟨[9], by decide⟩

theorem tail_copy_advances_last :
    let context : HazelcastLookupContext := ⟨⟨{ bodyPartitionSize := 4 }⟩, 17, none⟩
    let schedule : List (Action Bool) :=
      [.put false, .put true, .put false, .put true, .put true]
    ∃ puts : Bool → List Put,
      (∀ writer, (longAndShort writer).puts context.hzCache 17 = .ok (puts writer)) ∧
      TailCopied context (Cluster.run context ⟨Store.empty, puts, .idle⟩ schedule).store
        ⟨1, 6, by decide⟩ ⟨[1, 2, 3, 4]⟩ := by
  intro context schedule
  rcases tail_copy_advances_iff context longAndShort schedule (by decide) with
    ⟨puts, emitted, copies, _⟩
  have log := eq_logs_of_puts longAndShort context.hzCache (fun _ => 17) puts emitted
  refine ⟨puts, emitted, (copies ⟨1, 6, by decide⟩ ⟨[1, 2, 3, 4]⟩ ?_ ?_).mpr ?_⟩
  · rw [log]
    decide
  · unfold TakesTail
    decide
  · intro writer index same
    have last : lastPut context longAndShort (context.bodyKeyOf ⟨1, 6, by decide⟩)
        schedule.reverse = some (true, 0) := by decide
    rw [last] at same
    cases same
    decide

theorem tail_copy_stuck :
    let context : HazelcastLookupContext := ⟨⟨{ bodyPartitionSize := 4 }⟩, 17, none⟩
    let schedule : List (Action Bool) :=
      [.put true, .put false, .put true, .put false, .put true]
    ∃ puts : Bool → List Put,
      (∀ writer, (longAndShort writer).puts context.hzCache 17 = .ok (puts writer)) ∧
      (∀ writer, (puts writer).length = schedule.count (.put writer)) ∧
      let now := Cluster.run context ⟨Store.empty, puts, .idle⟩ schedule
      (context.getHeaders now.store).2 = some (some [], 6) ∧
      now.store.bodyMap (context.bodyKeyOf ⟨1, 6, by decide⟩) = some ⟨[9]⟩ ∧
      TakesTail context ⟨1, 6, by decide⟩ ∧
      ¬ TailCopied context now.store ⟨1, 6, by decide⟩ ⟨[9]⟩ ∧
      context.getBody now.store ⟨1, 6, by decide⟩ = .ok (some []) ∧
      (UInt64.ofNat 1 - 2 % context.bodyPartitionSize).toNat = 18446744073709551615 ∧
      context.getBody now.store ⟨2, 6, by decide⟩ = .error .outOfBounds := by
  intro context schedule
  refine ⟨_, fun writer => (longAndShort writer).puts_eq_log context.hzCache 17, by decide,
    by decide, by decide, ?_, ?_, by decide, by decide, by decide⟩
  · unfold TakesTail
    decide
  · intro copied
    exact absurd copied.inside (by decide)

end HazelcastCache
