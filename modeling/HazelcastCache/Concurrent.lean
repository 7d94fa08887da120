import HazelcastCache.Reading

/-! Several insert contexts under one hash, and a lookup while they are at work.

Nothing in the keys or in the entries tells one insert from another, so a lookup can be given
partitions of several bodies. What it is given always comes from some insert, and from the
one whose header it got as long as the others leave that insert's partitions alone. -/

namespace HazelcastCache

open Library

theorem Insert.header_next (insert : Insert) (cache : HazelcastHttpCache) (hashKey : UInt64)
    (stop count : Nat) (key : String × Int64) (entry : HazelcastHeaderEntry) (rest : List Put)
    (next : ((insert.log cache hashKey).take stop).drop count = .header key entry :: rest) :
    (insert.log cache hashKey).length ≤ min stop (count + 1) := by
  have bound : count < ((insert.log cache hashKey).take stop).length := by
    by_contra beyond
    rw [List.drop_of_length_le (Nat.not_lt.mp beyond)] at next
    cases next
  rw [List.length_take] at bound
  have last : insert.partitions cache ≤ count := by
    by_contra early
    rw [List.drop_take, insert.log_drop cache hashKey count (Nat.not_le.mp early),
      List.take_cons (by omega)] at next
    cases next
  rw [Insert.log_length] at bound ⊢
  omega

section Writers

variable {Writer : Type} [DecidableEq Writer] (context : HazelcastLookupContext) (store : Store)
  (inserts : Writer → Insert) (stop : Writer → Nat)

/-- The start: each insert is to be given up after `stop` puts, and none has begun. -/
def beforeWriters : Cluster Writer :=
  ⟨store, fun writer =>
    ((inserts writer).log context.hzCache context.hashKey).take (stop writer), .idle⟩

/-- In the run the insert has made all its puts, the header last. -/
def Published (schedule : List (Action Writer)) (writer : Writer) : Prop :=
  ((inserts writer).log context.hzCache context.hashKey).length ≤
    min (stop writer) (schedule.count (.put writer))

theorem Published.append {schedule : List (Action Writer)} {writer : Writer}
    (published : Published context inserts stop schedule writer) (later : List (Action Writer)) :
    Published context inserts stop (schedule ++ later) writer := by
  unfold Published at *
  rw [List.count_append]
  omega

theorem mem_pending (schedule : List (Action Writer)) (writer : Writer) (put : Put)
    (member : put ∈ ((beforeWriters context store inserts stop).run context schedule).pending
      writer) : put ∈ (inserts writer).log context.hzCache context.hashKey := by
  rw [Cluster.pending_run] at member
  exact List.mem_of_mem_take (List.mem_of_mem_drop member)

theorem Published.exists_put {schedule : List (Action Writer)} {writer : Writer}
    (published : Published context inserts stop schedule writer) (index : Nat)
    (inside : index < (inserts writer).partitions context.hzCache) :
    ∃ before after rest, schedule = before ++ .put writer :: after ∧
      before.count (.put writer) = index ∧
      ((beforeWriters context store inserts stop).run context before).pending writer =
        blockPut context.hzCache context.hashKey (inserts writer).body index :: rest := by
  rw [Published, Insert.log_length] at published
  rcases Runs.exists_split_of_lt_count (.put writer) schedule
    index (by omega) with ⟨before, after, rfl, counted⟩
  refine ⟨before, after, ((inserts writer).log context.hzCache context.hashKey).drop (index + 1),
    rfl, counted, ?_⟩
  rw [Cluster.pending_run, counted]
  change List.drop _ (List.take (stop writer) _) = _
  rw [List.take_of_length_le (by rw [Insert.log_length]; omega), Insert.log_drop _ _ _ _ inside]

variable (absent : store.headerMap (context.hzCache.headerKey context.hashKey) = none)
  (schedule : List (Action Writer)) (kept : ∀ action ∈ schedule, action.isEviction = false)

include absent kept

theorem header_published :
    let now := (beforeWriters context store inserts stop).run context schedule
    now.store.headerMap (context.hzCache.headerKey context.hashKey) = none ∨
      ∃ writer, now.store.headerMap (context.hzCache.headerKey context.hashKey) =
          some ⟨some (inserts writer).headers, UInt64.ofNat (inserts writer).body.length⟩ ∧
        Published context inserts stop schedule writer := by
  induction schedule using List.reverseRecOn with
  | nil => exact Or.inl absent
  | append_singleton schedule action ih =>
      have stays := (ih (fun previous member => kept previous (by simp [member]))).imp_right
        (Exists.imp fun _ => And.imp_right fun published =>
          Published.append context inserts stop published [action])
      rw [Cluster.run_concat]
      rcases Cluster.step_cases context
          ((beforeWriters context store inserts stop).run context schedule) action with
        ⟨writer, rfl, waiting, next⟩ | ⟨writer, put, rest, rfl, waiting, next⟩ |
          ⟨key, rfl, next⟩ | ⟨key, rfl, next⟩ | ⟨rfl, next⟩
      · rw [next]
        exact stays
      · rw [next]
        cases put with
        | body key entry => exact stays
        | header key entry =>
            have member := mem_pending context store inserts stop schedule writer
              (.header key entry) (waiting ▸ List.mem_cons_self)
            rcases (inserts writer).header_mem_log _ _ key entry member with ⟨rfl, rfl⟩
            rw [Cluster.pending_run] at waiting
            have finished := (inserts writer).header_next _ _ _ _ _ _ rest waiting
            refine Or.inr ⟨writer,
              KeyedMap.write_self _ (context.hzCache.headerKey context.hashKey, _), ?_⟩
            rwa [Published, List.count_append, List.count_singleton_self]
      · cases kept (.evictHeader key) (by simp)
      · cases kept (.evictBody key) (by simp)
      · rw [next]
        exact stays

end Writers

/-- Position by position, what the lookup has been given agrees with some insert's body. -/
def Patched {Writer : Type} (inserts : Writer → Insert) (delivered : Bytes) : Prop :=
  ∀ position < delivered.length,
    ∃ writer, delivered[position]? = (inserts writer).body[position]?

/-- A lookup that has a hit on `writer`'s header. It ends in a fault if a call copies beyond the
partition it has found, or hands out more than the rest of the body. -/
inductive Reader.Sourced {Writer : Type} (inserts : Writer → Insert) (writer : Writer) :
    Reader → Prop
  | reading (delivered : Bytes) (short : delivered.length < (inserts writer).body.length)
      (patched : Patched inserts delivered) :
      Sourced inserts writer (.reading (some (inserts writer).headers)
        (UInt64.ofNat (inserts writer).body.length) delivered)
  | complete (delivered : Bytes) (whole : delivered.length = (inserts writer).body.length)
      (patched : Patched inserts delivered) :
      Sourced inserts writer (.complete (some (inserts writer).headers)
        (UInt64.ofNat (inserts writer).body.length) delivered)
  | overrun : Sourced inserts writer (.faulted .outOfBounds)
  | excess : Sourced inserts writer (.faulted .illegalRange)

/-- The lookup no longer needs the byte at `position` from the maps. -/
def Reader.Past (position : Nat) : Reader → Prop
  | .idle => False
  | .reading _ _ delivered => position < delivered.length
  | _ => True

section Patches

variable {Writer : Type} (inserts : Writer → Insert)

theorem Patched.append {delivered bytes : Bytes} (patched : Patched inserts delivered)
    (writer : Writer) (size : Nat)
    (stretch : bytes = ((inserts writer).body.drop delivered.length).take size) :
    Patched inserts (delivered ++ bytes) := by
  intro position inside
  rcases Nat.lt_or_ge position delivered.length with before | after
  · rw [List.getElem?_append_left before]
    exact patched position before
  · refine ⟨writer, ?_⟩
    have bound : position - delivered.length < bytes.length := by
      rw [List.length_append] at inside
      omega
    rw [List.getElem?_append_right after]
    subst stretch
    rw [List.length_take] at bound
    rw [List.getElem?_take_of_lt (by omega), List.getElem?_drop, Nat.add_sub_cancel' after]

theorem Patched.take {delivered : Bytes} (patched : Patched inserts delivered) (size : Nat) :
    Patched inserts (delivered.take size) := by
  intro position inside
  rw [List.length_take] at inside
  rw [List.getElem?_take_of_lt (by omega)]
  exact patched position (by omega)

section Mixed

variable (mixed : Bytes) (writer : Writer) (position : Nat)

def mixedWith : Bytes :=
  Segments.overlay position mixed ((inserts writer).body.take mixed.length)

variable (long : mixed.length ≤ (inserts writer).body.length)

include long

theorem length_mixedWith : (mixedWith inserts mixed writer position).length = mixed.length := by
  have whole : ((inserts writer).body.take mixed.length).length = mixed.length :=
    List.length_take_of_le long
  rw [mixedWith, Segments.length_overlay, whole]
  omega

theorem drop_mixedWith :
    (mixedWith inserts mixed writer position).drop position =
      ((inserts writer).body.drop position).take (mixed.length - position) := by
  have whole : ((inserts writer).body.take mixed.length).length = mixed.length :=
    List.length_take_of_le long
  rw [mixedWith, Segments.drop_overlay _ _ _ _ (by omega) (Nat.le_refl _), List.drop_take]

variable (inside : position < mixed.length)

include inside

theorem mixedWith_eq :
    mixedWith inserts mixed writer position = mixed.take position ++
      ((inserts writer).body.drop (mixed.take position).length).take
        (mixed.length - position) := by
  have whole : ((inserts writer).body.take mixed.length).length = mixed.length :=
    List.length_take_of_le long
  rw [mixedWith, Segments.overlay, whole, Nat.min_eq_left (Nat.le_of_lt inside), List.drop_take,
    List.length_take_of_le (Nat.le_of_lt inside)]

theorem Patched.mixedWith (patched : Patched inserts mixed) :
    Patched inserts (mixedWith inserts mixed writer position) := by
  rw [mixedWith_eq inserts mixed writer position long inside]
  exact (patched.take inserts position).append inserts writer _ rfl

theorem Reader.upTo_mixedWith (width : Nat) (headers : HeaderMapImpl) (index : Nat)
    (here : position = index * width) :
    Reader.upTo width headers (HazelcastCache.mixedWith inserts mixed writer position) index =
      Reader.upTo width headers mixed index := by
  have front := mixedWith_eq inserts mixed writer position long inside
  have size := length_mixedWith inserts mixed writer position long
  subst here
  rw [Reader.upTo, Reader.upTo, size, if_neg (Nat.not_le.mpr inside),
    if_neg (Nat.not_le.mpr inside), front, List.take_left']
  exact List.length_take_of_le (Nat.le_of_lt inside)

omit inside in
theorem serves_mixedWith (cache : HazelcastHttpCache) (index : Nat)
    (here : position = index * cache.partition) (inside : position < mixed.length)
    (small : mixed.length ≤ 2 ^ 63) :
    Serves cache.partition (HazelcastCache.mixedWith inserts mixed writer position) index
      (Segments.block cache.partition index (inserts writer).body) := by
  have size := length_mixedWith inserts mixed writer position long
  have rest := drop_mixedWith inserts mixed writer position long
  have next : (index + 1) * cache.partition = index * cache.partition + cache.partition :=
    Nat.succ_mul _ _
  subst here
  constructor
  · intro full
    rw [size] at full
    rw [Segments.block_eq_take_drop, Segments.block_eq_take_drop, rest, List.take_take,
      Nat.min_eq_left (by omega)]
  · intro short
    rw [size] at short ⊢
    constructor
    · rw [Segments.block_eq_take_drop, rest, List.take_take, Nat.min_eq_left (by omega)]
    · left
      exact cache.border_lt index (by omega)

end Mixed

theorem Reader.Sourced.resume (writer : Writer) (delivered : Bytes)
    (patched : Patched inserts delivered) :
    Reader.Sourced inserts writer (Reader.resume (some (inserts writer).headers)
      (UInt64.ofNat (inserts writer).body.length) delivered) := by
  have total : (UInt64.ofNat (inserts writer).body.length).toNat = (inserts writer).body.length :=
    UInt64.toNat_ofNat_of_lt' (inserts writer).size_lt
  unfold Reader.resume
  rw [total]
  split
  · exact .complete delivered (by assumption) patched
  · split
    · exact .reading delivered (by assumption) patched
    · exact .excess

theorem Reader.Past.step {position : Nat} {reader : Reader} (past : reader.Past position)
    (context : HazelcastLookupContext) (store : Store) :
    (reader.step context store).Past position := by
  cases reader with
  | idle => exact past.elim
  | reading headers total delivered =>
      simp only [Reader.step]
      split
      · split
        · rename_i bytes _
          change position < delivered.length at past
          unfold Reader.resume
          split
          · trivial
          · split
            · simp only [Reader.Past, List.length_append]
              omega
            · trivial
        · trivial
        · trivial
      · trivial
  | missed => trivial
  | complete headers total delivered => trivial
  | aborted headers total delivered => trivial
  | faulted fault => trivial

theorem Reader.Sourced.step {writer : Writer} {reader : Reader}
    (sourced : Reader.Sourced inserts writer reader) (context : HazelcastLookupContext)
    (store : Store)
    (partitions : ∀ index, index * context.hzCache.partition < (inserts writer).body.length →
      ∃ other, store.bodyMap (context.hzCache.bodyKey context.hashKey index) =
        some ⟨Segments.block context.hzCache.partition index (inserts other).body⟩) :
    Reader.Sourced inserts writer (reader.step context store) := by
  cases sourced with
  | complete delivered whole patched => exact .complete delivered whole patched
  | overrun => exact .overrun
  | excess => exact .excess
  | reading delivered short patched =>
      have total : (UInt64.ofNat (inserts writer).body.length).toNat =
          (inserts writer).body.length := UInt64.toNat_ofNat_of_lt' (inserts writer).size_lt
      rcases Reader.step_reading context store
        (some (inserts writer).headers) (UInt64.ofNat (inserts writer).body.length) delivered
        (by rwa [total]) with ⟨range, first, _, next⟩
      rcases partitions (delivered.length / context.hzCache.partition)
        (Nat.lt_of_le_of_lt (Nat.div_mul_le_self _ _) short) with ⟨other, found⟩
      have key : store.bodyMap (context.bodyKeyOf range) = some ⟨Segments.block
          context.hzCache.partition (delivered.length / context.hzCache.partition)
          (inserts other).body⟩ := by
        rw [HazelcastLookupContext.bodyKeyOf, first, found]
      rw [next]
      split
      · rename_i bytes given
        rcases context.getBody_stretch store range _ bytes key given with ⟨size, stretch⟩
        rw [first, Segments.take_drop_block] at stretch
        exact .resume inserts writer _ (patched.append inserts other _ stretch)
      · rename_i given
        rw [context.getBody_eq_abort_iff store, key] at given
        cases given
      · rename_i fault failed
        rw [context.getBody_error store range fault failed]
        exact .overrun

end Patches

section Writers

variable {Writer : Type} [DecidableEq Writer] (context : HazelcastLookupContext) (store : Store)
  (inserts : Writer → Insert) (stop : Writer → Nat)
  (few : ∀ writer, (inserts writer).body.length / context.hzCache.partition + 1 < 2 ^ 31)

/-- No other value is put under the key of a partition of `writer` after `writer` has put it
and before the lookup has got it. -/
def Undisturbed (start : Cluster Writer) (schedule : List (Action Writer)) (writer : Writer) :
    Prop :=
  ∀ before after other index entry rest, schedule = before ++ .put other :: after →
    (start.run context before).pending other =
      .body (context.hzCache.bodyKey context.hashKey index) entry :: rest →
    index * context.hzCache.partition < (inserts writer).body.length →
    entry = ⟨Segments.block context.hzCache.partition index (inserts writer).body⟩ ∨
      before.count (.put writer) ≤ index ∨
      (start.run context before).reader.Past (index * context.hzCache.partition)

theorem Undisturbed.of_append {start : Cluster Writer} {schedule later : List (Action Writer)}
    {writer : Writer} (calm : Undisturbed context inserts start (schedule ++ later) writer) :
    Undisturbed context inserts start schedule writer := by
  intro before after other index entry rest split
  exact calm before (after ++ later) other index entry rest (by simp [split])

variable (schedule : List (Action Writer)) (kept : ∀ action ∈ schedule, action.isEviction = false)
  (writer : Writer) (published : Published context inserts stop schedule writer) (index : Nat)
  (inside : index * context.hzCache.partition < (inserts writer).body.length)

include few kept published inside

theorem partition_of_some_insert :
    ∃ other, ((beforeWriters context store inserts stop).run context schedule).store.bodyMap
        (context.hzCache.bodyKey context.hashKey index) =
      some ⟨Segments.block context.hzCache.partition index (inserts other).body⟩ := by
  have number := (inserts writer).lt_partitions context.hzCache index inside
  have count := (inserts writer).partitions_le context.hzCache
  have bound := few writer
  rcases Published.exists_put context store inserts stop published index number with
    ⟨before, after, rest, rfl, _, waiting⟩
  rcases Cluster.partition_run context _ before after writer _ index rest
    (fun entry => ∃ other, entry =
      ⟨Segments.block context.hzCache.partition index (inserts other).body⟩) (by omega) waiting
    (fun other entry member => ⟨other, (inserts other).body_mem_log context.hzCache context.hashKey
      index entry (few other) (mem_pending context store inserts stop before other _ member)⟩)
    with ⟨_, present, other, rfl⟩ | ⟨_, evicted⟩
  · exact ⟨other, present⟩
  · cases kept (.evictBody _) (List.mem_append_right _ (List.mem_cons_of_mem _ evicted))

theorem partition_of_undisturbed
    (calm : Undisturbed context inserts (beforeWriters context store inserts stop) schedule
      writer) :
    let now := (beforeWriters context store inserts stop).run context schedule
    now.store.bodyMap (context.hzCache.bodyKey context.hashKey index) =
        some ⟨Segments.block context.hzCache.partition index (inserts writer).body⟩ ∨
      now.reader.Past (index * context.hzCache.partition) := by
  have number := (inserts writer).lt_partitions context.hzCache index inside
  have count := (inserts writer).partitions_le context.hzCache
  have bound := few writer
  rcases Published.exists_put context store inserts stop published index number with
    ⟨before, after, rest, rfl, counted, waiting⟩
  -- The run after the insert's own put of the partition, one action at a time.
  clear published
  induction after using List.reverseRecOn with
  | nil =>
      left
      rw [Cluster.run_put context _ before [] writer _ rest waiting,
        ← orderKey_eq_bodyKey context.hzCache context.hashKey index (by omega)]
      exact KeyedMap.write_self _ (context.hzCache.orderKey context.hashKey index, _)
  | append_singleton after action ih =>
      have split : before ++ .put writer :: (after ++ [action]) =
          (before ++ .put writer :: after) ++ [action] := by simp
      rw [split] at kept calm ⊢
      have earlier := ih (fun previous member => kept previous (List.mem_append_left _ member))
        (Undisturbed.of_append context inserts calm)
      rw [Cluster.run_concat]
      rcases Cluster.step_cases context ((beforeWriters context store inserts stop).run context
          (before ++ .put writer :: after)) action with
        ⟨other, rfl, _, next⟩ | ⟨other, put, rest, rfl, queued, next⟩ |
          ⟨key, rfl, next⟩ | ⟨key, rfl, next⟩ | ⟨rfl, next⟩
      · rw [next]
        exact earlier
      · rw [next]
        cases put with
        | header key entry => exact earlier
        | body key entry =>
            by_cases same : key = context.hzCache.bodyKey context.hashKey index
            · subst same
              rcases calm _ [] other index entry rest rfl queued inside with rfl | early | past
              · exact Or.inl (KeyedMap.write_self _
                  (context.hzCache.bodyKey context.hashKey index, _))
              · simp only [List.count_append, List.count_cons_self, counted] at early
                omega
              · exact Or.inr past
            · simpa only [Store.apply, KeyedMap.write_of_ne _ (key, entry) _ same] using earlier
      · cases kept (.evictHeader key) (by simp)
      · cases kept (.evictBody key) (by simp)
      · rw [next]
        exact earlier.imp_right fun past => past.step context _

end Writers

section Lookup

variable {Writer : Type} [DecidableEq Writer] (context : HazelcastLookupContext) (store : Store)
  (inserts : Writer → Insert) (stop : Writer → Nat) (schedule : List (Action Writer))

/-- The lookup has had a hit on the header of one complete insert. Everything it was given
comes from some insert; if nothing disturbs that one insert, it walks through its body. -/
structure HitOn (writer : Writer) : Prop where
  published : Published context inserts stop schedule writer
  found : ∃ before after, schedule = before ++ .get :: after ∧ before.countP Action.isGet = 0 ∧
    Published context inserts stop before writer ∧
    ((beforeWriters context store inserts stop).run context before).store.headerMap
      (context.hzCache.headerKey context.hashKey) =
        some ⟨some (inserts writer).headers, UInt64.ofNat (inserts writer).body.length⟩
  mixes : (∀ other, (inserts writer).body.length ≤ (inserts other).body.length) →
    (inserts writer).body.length ≤ 2 ^ 63 →
    ∃ mixed, mixed.length = (inserts writer).body.length ∧ Patched inserts mixed ∧
      ((beforeWriters context store inserts stop).run context schedule).reader =
        Reader.upTo context.hzCache.partition (inserts writer).headers mixed
          (schedule.countP Action.isGet - 1)
  sourced : Reader.Sourced inserts writer
    ((beforeWriters context store inserts stop).run context schedule).reader
  asked : 0 < schedule.countP Action.isGet
  undisturbed : Undisturbed context inserts (beforeWriters context store inserts stop) schedule
      writer →
    ((beforeWriters context store inserts stop).run context schedule).reader =
      Reader.upTo context.hzCache.partition (inserts writer).headers (inserts writer).body
        (schedule.countP Action.isGet - 1)

variable {context store inserts stop schedule}

theorem HitOn.skip {writer : Writer} (hit : HitOn context store inserts stop schedule writer)
    (action : Action Writer) (other : action.isGet = false)
    (same : ((beforeWriters context store inserts stop).run context (schedule ++ [action])).reader =
      ((beforeWriters context store inserts stop).run context schedule).reader) :
    HitOn context store inserts stop (schedule ++ [action]) writer := by
  have gets : (schedule ++ [action]).countP Action.isGet = schedule.countP Action.isGet := by
    simp [other]
  constructor
  · exact Published.append context inserts stop hit.published [action]
  · obtain ⟨before, after, rfl, first⟩ := hit.found
    exact ⟨before, after ++ [action], by simp, first⟩
  · rw [same, gets]
    exact hit.mixes
  · rw [same]
    exact hit.sourced
  · rw [gets]
    exact hit.asked
  · intro calm
    rw [same, gets]
    exact hit.undisturbed (Undisturbed.of_append context inserts calm)

theorem HitOn.first {writer : Writer}
    (idle : ((beforeWriters context store inserts stop).run context schedule).reader = .idle)
    (silent : schedule.countP Action.isGet = 0)
    (header : ((beforeWriters context store inserts stop).run context schedule).store.headerMap
      (context.hzCache.headerKey context.hashKey) =
        some ⟨some (inserts writer).headers, UInt64.ofNat (inserts writer).body.length⟩)
    (published : Published context inserts stop schedule writer) :
    HitOn context store inserts stop (schedule ++ [.get]) writer := by
  have gets : (schedule ++ [Action.get]).countP Action.isGet = 1 := by
    simp [silent, Action.isGet]
  have step := Reader.step_idle context _ (inserts writer).headers (inserts writer).body
    (inserts writer).size_lt header
  have nothing : Patched inserts [] := fun position inside => absurd inside (Nat.not_lt_zero _)
  constructor
  · exact Published.append context inserts stop published [.get]
  · exact ⟨schedule, [], rfl, silent, published, header⟩
  · intro _ _
    refine ⟨(inserts writer).body, rfl, fun _ _ => ⟨writer, rfl⟩, ?_⟩
    rw [Cluster.reader_append_get, idle, step, gets]
  · rw [Cluster.reader_append_get, idle, step,
      ← Reader.resume_take context _ (inserts writer).body (inserts writer).size_lt, Nat.zero_mul,
      List.take_zero]
    exact .resume inserts writer [] nothing
  · rw [gets]
    exact Nat.one_pos
  · intro _
    rw [Cluster.reader_append_get, idle, step, gets]

variable (few : ∀ writer, (inserts writer).body.length / context.hzCache.partition + 1 < 2 ^ 31)
  (kept : ∀ action ∈ schedule, action.isEviction = false)

include few kept

theorem HitOn.get {writer : Writer} (hit : HitOn context store inserts stop schedule writer) :
    HitOn context store inserts stop (schedule ++ [.get]) writer := by
  have gets : (schedule ++ [Action.get]).countP Action.isGet =
      schedule.countP Action.isGet - 1 + 1 + 1 := by
    rw [List.countP_append, Nat.sub_add_cancel hit.asked]
    rfl
  have partitions :=
    partition_of_some_insert context store inserts stop few schedule kept writer hit.published
  constructor
  · exact Published.append context inserts stop hit.published [.get]
  · obtain ⟨before, after, rfl, first⟩ := hit.found
    exact ⟨before, after ++ [.get], by simp, first⟩
  · intro longer small
    obtain ⟨mixed, length, patched, position⟩ := hit.mixes longer small
    rw [gets, Nat.add_sub_cancel, Cluster.reader_append_get, position]
    generalize schedule.countP Action.isGet - 1 = index at *
    rcases Nat.lt_or_ge (index * context.hzCache.partition) mixed.length with unfinished | done
    · obtain ⟨other, found⟩ := partitions index (length ▸ unfinished)
      have long : mixed.length ≤ (inserts other).body.length := length ▸ longer other
      have size := length_mixedWith inserts mixed other (index * context.hzCache.partition) long
      refine ⟨mixedWith inserts mixed other (index * context.hzCache.partition),
        size.trans length, patched.mixedWith inserts mixed other _ long unfinished, ?_⟩
      rw [← Reader.upTo_mixedWith inserts mixed other _ long unfinished _ _ index rfl]
      exact Reader.step_upTo context _ _ _ (size ▸ length ▸ (inserts writer).size_lt) index
        (size ▸ unfinished) _ found
        (serves_mixedWith inserts mixed other _ long context.hzCache index rfl unfinished
          (length ▸ small))
    · exact ⟨mixed, length, patched, Reader.step_upTo_done context _ _ _ _ index done⟩
  · rw [Cluster.reader_append_get]
    exact hit.sourced.step inserts context _ partitions
  · rw [gets]
    exact Nat.succ_pos _
  · intro calm
    have earlier := Undisturbed.of_append context inserts calm
    have position := hit.undisturbed earlier
    rw [gets, Nat.add_sub_cancel]
    generalize schedule.countP Action.isGet - 1 = index at *
    calc
      ((beforeWriters context store inserts stop).run context (schedule ++ [.get])).reader =
          (Reader.upTo context.hzCache.partition (inserts writer).headers (inserts writer).body
            index).step context
              ((beforeWriters context store inserts stop).run context schedule).store := by
        rw [Cluster.reader_append_get, position]
      _ = Reader.upTo context.hzCache.partition (inserts writer).headers (inserts writer).body
          (index + 1) := by
        rcases Nat.lt_or_ge (index * context.hzCache.partition) (inserts writer).body.length with
          unfinished | done
        · rcases partition_of_undisturbed context store inserts stop few schedule kept writer
            hit.published index unfinished earlier with found | past
          · exact Reader.step_upTo context _ _ _ (inserts writer).size_lt index unfinished _ found
              (serves_block _ _ index)
          · rw [position, Reader.upTo, if_neg (Nat.not_le.mpr unfinished)] at past
            simp only [Reader.Past, List.length_take] at past
            omega
        · exact Reader.step_upTo_done context _ _ _ _ index done

variable (context store inserts stop schedule)
  (absent : store.headerMap (context.hzCache.headerKey context.hashKey) = none)

include absent

theorem lookup_hitOn :
    let now := (beforeWriters context store inserts stop).run context schedule
    (now.reader = .idle ∧ schedule.countP Action.isGet = 0) ∨ now.reader = .missed ∨
      ∃ writer, HitOn context store inserts stop schedule writer := by
  induction schedule using List.reverseRecOn with
  | nil => exact Or.inl ⟨rfl, rfl⟩
  | append_singleton schedule action ih =>
      have earlier : ∀ previous ∈ schedule, previous.isEviction = false :=
        fun previous member => kept previous (List.mem_append_left _ member)
      by_cases isGet : action = .get
      · subst isGet
        rcases ih earlier with ⟨idle, silent⟩ | missed | ⟨writer, hit⟩
        · rcases header_published context store inserts stop absent schedule earlier with
            missing | ⟨writer, header, published⟩
          · right
            left
            rw [Cluster.reader_append_get, idle]
            simp [Reader.step, HazelcastLookupContext.getHeaders_result, missing]
          · exact Or.inr (Or.inr ⟨writer, .first idle silent header published⟩)
        · right
          left
          rw [Cluster.reader_append_get, missed]
          rfl
        · exact Or.inr (Or.inr ⟨writer, hit.get few earlier⟩)
      · have other := action.isGet_of_ne isGet
        have same := Cluster.reader_append_of_ne context (beforeWriters context store inserts stop)
          schedule action isGet
        rcases ih earlier with ⟨idle, silent⟩ | missed | ⟨writer, hit⟩
        · exact Or.inl ⟨same.trans idle, by simp [silent, other]⟩
        · exact Or.inr (Or.inl (same.trans missed))
        · exact Or.inr (Or.inr ⟨writer, hit.skip action other same⟩)

end Lookup

end HazelcastCache
