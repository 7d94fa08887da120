import HazelcastCache.Reading

/-! A lookup whose cache is configured with another partition size than the writer's.

Neither the header entry nor the body keys record the size, so the lookup takes the writer's
partitions for its own. -/

namespace HazelcastCache

open Library

/-- The maps hold a response in partitions of `width` bytes, and perhaps what is left of
others under the hash. -/
structure HoldsIn (context : HazelcastLookupContext) (width : Nat) (store : Store)
    (headers : HeaderMapImpl) (body : Bytes) : Prop where
  header : store.headerMap (context.hzCache.headerKey context.hashKey) =
    some ⟨some headers, UInt64.ofNat body.length⟩
  partitions : body ≠ [] → ∀ index ≤ body.length / width,
    store.bodyMap (context.hzCache.bodyKey context.hashKey index) =
      some ⟨Segments.block width index body⟩

/-- The lookup comes to an end, and all it has been given by then is the body or its front. -/
def ReadsOwnBytes (context : HazelcastLookupContext) (store : Store) (headers : HeaderMapImpl)
    (body : Bytes) : Prop :=
  ∃ gets, (Reader.step context store)^[gets] .idle = .missed ∨
    (Reader.step context store)^[gets] .idle =
      .complete (some headers) (UInt64.ofNat body.length) body ∨
    ∃ size, (Reader.step context store)^[gets] .idle =
      .aborted (some headers) (UInt64.ofNat body.length) (body.take size)

section Shared

variable (written : HazelcastHttpCache) (context : HazelcastLookupContext)
  (sameBodies : written.hzConfig.bodyMapName = context.hzCache.hzConfig.bodyMapName)
  (sameHeaders : written.hzConfig.headerMapName = context.hzCache.hzConfig.headerMapName)
  (insert : Insert) (prior store : Store)
  (few : insert.body.length / written.partition + 1 < 2 ^ 31)
  (stored : insert.run written context.hashKey prior = .ok store)

include sameBodies in
theorem bodyKey_shared (index : Nat) :
    context.hzCache.bodyKey context.hashKey index = written.bodyKey context.hashKey index := by
  rw [HazelcastHttpCache.bodyKey, HazelcastHttpCache.bodyKey, sameBodies]

include sameBodies sameHeaders few stored in
theorem Insert.run_holdsIn :
    HoldsIn context written.partition store insert.headers insert.body := by
  have headerKeys : context.hzCache.headerKey context.hashKey =
      written.headerKey context.hashKey := by
    rw [HazelcastHttpCache.headerKey, HazelcastHttpCache.headerKey, sameHeaders]
  rw [Insert.run, Insert.puts_eq_log] at stored
  have log := Except.ok.inj stored
  subst log
  rw [Insert.log, Store.applyAll_append]
  constructor
  · rw [headerKeys]
    exact headerMap_headerPut written context.hashKey _ insert.headers insert.body.length
  · intro nonempty index inside
    have chunked : insert.chunks ≠ [] := fun headerOnly =>
      nonempty (by rw [Insert.body, headerOnly]; rfl)
    have count := insert.partitions_le written
    rw [bodyKey_shared written context sameBodies]
    apply bodyMap_blockPuts written context.hashKey prior insert.body _ index
    · rw [Insert.partitions, if_neg chunked]
      omega
    · omega

include sameBodies few stored in
theorem Insert.bodyMap_beyond (index : Nat)
    (beyond : insert.body.length / written.partition < index) :
    store.bodyMap (context.hzCache.bodyKey context.hashKey index) =
      prior.bodyMap (context.hzCache.bodyKey context.hashKey index) := by
  rw [Insert.run, Insert.puts_eq_log] at stored
  have log := Except.ok.inj stored
  subst log
  rw [Insert.log, Store.applyAll_append, bodyKey_shared written context sameBodies]
  apply bodyMap_blockPuts_of_ne written context.hashKey prior
  intro order bound same
  have count := insert.partitions_le written
  rw [orderKey_eq_bodyKey written context.hashKey order (by omega)] at same
  have := written.bodyKey_injective context.hashKey same
  omega

end Shared

theorem Reader.step_front (context : HazelcastLookupContext) (store : Store) (width : Nat)
    (headers : HeaderMapImpl) (body : Bytes) (bounded : body.length < 2 ^ 64)
    (long : width < body.length) :
    ∃ range : AdjustedByteRange, range.first.toNat = width ∧
      context.bodyKeyOf range = context.hzCache.bodyKey context.hashKey
        (width / context.hzCache.partition) ∧
      (Reader.reading (some headers) (UInt64.ofNat body.length) (body.take width)).step context
          store =
        match context.getBody store range with
        | .ok (some bytes) =>
            .resume (some headers) (UInt64.ofNat body.length) (body.take width ++ bytes)
        | .ok none => .aborted (some headers) (UInt64.ofNat body.length) (body.take width)
        | .error fault => .faulted fault := by
  have total : (UInt64.ofNat body.length).toNat = body.length :=
    UInt64.toNat_ofNat_of_lt' bounded
  have front : (body.take width).length = width := List.length_take_of_le (Nat.le_of_lt long)
  rcases Reader.step_reading context store (some headers)
    (UInt64.ofNat body.length) (body.take width) (by rw [total, front]; exact long) with
    ⟨range, first, _, next⟩
  rw [front] at first
  exact ⟨range, first, by rw [HazelcastLookupContext.bodyKeyOf, first], next⟩

section Foreign

variable {context : HazelcastLookupContext} {width : Nat} {store : Store}
  {headers : HeaderMapImpl} {body : Bytes}
  (holds : HoldsIn context width store headers body) (bounded : body.length < 2 ^ 64)

include holds bounded

theorem HoldsIn.same_width (same : width = context.hzCache.partition) :
    ReadsOwnBytes context store headers body := by
  have own : Holds context.hzCache context.hashKey store headers body := by
    refine ⟨holds.header, fun index inside => ?_⟩
    have nonempty : body ≠ [] := fun empty => by simp [empty] at inside
    rw [← same] at inside ⊢
    apply holds.partitions nonempty
    rw [same] at inside ⊢
    exact index_le_of_mul_lt context.hzCache index body.length inside
  exact ⟨_, Or.inr (Or.inl (own.serving.read bounded))⟩

theorem HoldsIn.getBody_first (nonempty : body ≠ []) (range : AdjustedByteRange)
    (first : range.first.toNat = 0) (last : range.last.toNat = body.length) :
    context.getBody store range =
      if body.length < context.hzCache.partition ∧ width < body.length then .error .outOfBounds
      else .ok (some (body.take width)) := by
  have positive := context.hzCache.partition_pos
  have small := context.hzCache.partition_lt
  have found : store.bodyMap (context.bodyKeyOf range) = some ⟨body.take width⟩ := by
    have entry := holds.partitions nonempty 0 (Nat.zero_le _)
    rw [Segments.block_eq_take_drop, Nat.zero_mul, List.drop_zero] at entry
    rw [HazelcastLookupContext.bodyKeyOf, first, Nat.zero_div, entry]
  have border : context.partitionEnd range = context.hzCache.partition := by
    rw [HazelcastLookupContext.partitionEnd, first, Nat.zero_div, Nat.zero_add, Nat.one_mul]
  have length : (body.take width).length = min width body.length := List.length_take
  by_cases within : body.length < context.hzCache.partition
  · rw [context.getBody_within store range _ found (by omega) (by omega)]
    simp only [first, last, Nat.zero_mod, Nat.mod_eq_of_lt within, Nat.zero_add, length]
    by_cases long : width < body.length
    · rw [if_neg (by omega), if_pos ⟨within, long⟩]
    · rw [if_pos (by omega), if_neg (by omega), List.extract, List.drop_zero,
        List.take_of_length_le (by omega)]
  · rw [context.getBody_beyond store range _ found (by rw [length]; omega) (by omega)]
    simp only [first, Nat.zero_mod, Nat.zero_le, if_true, List.drop_zero]
    rw [if_neg (by omega)]

theorem HoldsIn.step_idle (nonempty : body ≠ []) : Reader.idle.step context store =
    .reading (some headers) (UInt64.ofNat body.length) [] := by
  have size := List.length_pos_iff.mpr nonempty
  rw [Reader.step_idle context store headers body bounded holds.header, Reader.upTo,
    if_neg (by omega), Nat.zero_mul, List.take_zero]

theorem HoldsIn.step_first (nonempty : body ≠ []) :
    (Reader.reading (some headers) (UInt64.ofNat body.length) []).step context store =
      if body.length < context.hzCache.partition ∧ width < body.length then
        .faulted .outOfBounds
      else if body.length ≤ width then .complete (some headers) (UInt64.ofNat body.length) body
      else .reading (some headers) (UInt64.ofNat body.length) (body.take width) := by
  have size := List.length_pos_iff.mpr nonempty
  have total : (UInt64.ofNat body.length).toNat = body.length :=
    UInt64.toNat_ofNat_of_lt' bounded
  rcases Reader.step_reading context store (some headers)
    (UInt64.ofNat body.length) [] (by rw [total]; exact size) with ⟨range, first, last, next⟩
  rw [next, holds.getBody_first bounded nonempty range first (last.trans total)]
  by_cases outside : body.length < context.hzCache.partition ∧ width < body.length
  · rw [if_pos outside, if_pos outside]
  · rw [if_neg outside, if_neg outside]
    simp only [List.nil_append, Reader.resume, total, List.length_take]
    by_cases short : body.length ≤ width
    · rw [if_pos (by omega), if_pos short, List.take_of_length_le short]
    · rw [if_neg (by omega), if_pos (by omega), if_neg short]

theorem HoldsIn.one_partition (short : body.length ≤ width) :
    ReadsOwnBytes context store headers body := by
  by_cases empty : body = []
  · refine ⟨1, Or.inr (Or.inl ?_)⟩
    rw [Function.iterate_one, Reader.step_idle context store headers body bounded holds.header,
      Reader.upTo_of_le]
    simp [empty]
  · refine ⟨2, Or.inr (Or.inl ?_)⟩
    change (Reader.idle.step context store).step context store = _
    rw [holds.step_idle bounded empty, holds.step_first bounded empty, if_neg (by omega),
      if_pos short]

theorem HoldsIn.aborted (long : width < body.length)
    (smaller : context.hzCache.partition ≤ width)
    (missing : store.bodyMap (context.hzCache.bodyKey context.hashKey
      (width / context.hzCache.partition)) = none) :
    ReadsOwnBytes context store headers body := by
  have nonempty : body ≠ [] := fun empty => by simp [empty] at long
  rcases Reader.step_front context store width headers body bounded long with ⟨range, _, key, next⟩
  rw [← key] at missing
  refine ⟨3, Or.inr (Or.inr ⟨width, ?_⟩)⟩
  change ((Reader.idle.step context store).step context store).step context store = _
  rw [holds.step_idle bounded nonempty, holds.step_first bounded nonempty, if_neg (by omega),
    if_neg (by omega), next, context.getBody_missing store range missing]

end Foreign

/-! Where the sizes do not fit, some body is read wrongly. -/

def Wrong (position : Nat) (body delivered : Bytes) : Prop :=
  position < delivered.length ∧ delivered[position]? ≠ body[position]?

/-- The states of a lookup that never comes to a good end. -/
inductive Strayed (width : Nat) (headers : HeaderMapImpl) (body : Bytes) : Reader → Prop
  | idle : Strayed width headers body .idle
  | start : Strayed width headers body
      (.reading (some headers) (UInt64.ofNat body.length) [])
  | front : Strayed width headers body
      (.reading (some headers) (UInt64.ofNat body.length) (body.take width))
  | reading (found : Option HeaderMapImpl) (total : UInt64) (delivered : Bytes)
      (wrong : Wrong width body delivered) :
      Strayed width headers body (.reading found total delivered)
  | complete (found : Option HeaderMapImpl) (total : UInt64) (delivered : Bytes)
      (wrong : Wrong width body delivered) :
      Strayed width headers body (.complete found total delivered)
  | aborted (found : Option HeaderMapImpl) (total : UInt64) (delivered : Bytes)
      (wrong : Wrong width body delivered) :
      Strayed width headers body (.aborted found total delivered)
  | faulted (fault : Fault) : Strayed width headers body (.faulted fault)

theorem Wrong.append {position : Nat} {body delivered : Bytes}
    (wrong : Wrong position body delivered) (bytes : Bytes) :
    Wrong position body (delivered ++ bytes) := by
  refine ⟨Nat.lt_of_lt_of_le wrong.1 (by simp), ?_⟩
  rw [List.getElem?_append_left wrong.1]
  exact wrong.2

theorem not_wrong_take (position size : Nat) (body : Bytes) :
    ¬ Wrong position body (body.take size) := by
  intro wrong
  rcases wrong with ⟨inside, different⟩
  rw [List.length_take] at inside
  exact different (List.getElem?_take_of_lt (by omega))

theorem Strayed.resume {width : Nat} {headers : HeaderMapImpl} {body delivered : Bytes}
    (wrong : Wrong width body delivered) (found : Option HeaderMapImpl) (total : UInt64) :
    Strayed width headers body (Reader.resume found total delivered) := by
  unfold Reader.resume
  split
  · exact .complete found total delivered wrong
  · split
    · exact .reading found total delivered wrong
    · exact .faulted .illegalRange

theorem Strayed.not_own {width : Nat} {headers : HeaderMapImpl} {body : Bytes} {reader : Reader}
    (strayed : Strayed width headers body reader) :
    ¬ (reader = .missed ∨ reader = .complete (some headers) (UInt64.ofNat body.length) body ∨
      ∃ size, reader = .aborted (some headers) (UInt64.ofNat body.length) (body.take size)) := by
  intro own
  rcases own with rfl | rfl | ⟨size, rfl⟩
  · cases strayed
  · cases strayed with
    | complete _ _ _ wrong => exact wrong.2 rfl
  · cases strayed with
    | aborted _ _ _ wrong => exact not_wrong_take width size body wrong

theorem misplaced (width size : Nat) (different : width ≠ size) (inside : width % size < width) :
    width / size * width + width % size ≠ width := by
  have split := Nat.div_add_mod' width size
  rcases Nat.lt_or_ge 1 (width / size) with many | few
  · have twice : 2 * width ≤ width / size * width := Nat.mul_le_mul_right _ many
    omega
  · intro same
    rcases Nat.le_one_iff_eq_zero_or_eq_one.mp few with zero | one
    · rw [zero] at split
      omega
    · rw [one] at same split
      omega

section Mismatch

variable {context : HazelcastLookupContext} {width : Nat} {store : Store}
  {headers : HeaderMapImpl} {body : Bytes}
  (holds : HoldsIn context width store headers body) (bounded : body.length < 2 ^ 64)
  (long : width < body.length) (stored : Bytes)
  (entry : store.bodyMap (context.hzCache.bodyKey context.hashKey
    (width / context.hzCache.partition)) = some ⟨stored⟩)
  (alien : ∀ head, stored[width % context.hzCache.partition]? = some head →
    some head ≠ body[width]?)

include bounded long entry alien

theorem strayed_front : Strayed width headers body
    ((Reader.reading (some headers) (UInt64.ofNat body.length) (body.take width)).step context
      store) := by
  have front : (body.take width).length = width := List.length_take_of_le (Nat.le_of_lt long)
  rcases Reader.step_front context store width headers body bounded long with
    ⟨range, first, key, next⟩
  rw [← key] at entry
  rw [next]
  split
  · rename_i bytes given
    rcases context.getBody_stretch store range _ bytes entry given with ⟨size, stretch⟩
    rw [first] at stretch
    cases bytes with
    | nil =>
        have total : (UInt64.ofNat body.length).toNat = body.length :=
          UInt64.toNat_ofNat_of_lt' bounded
        rw [List.append_nil, Reader.resume, total, front, if_neg (Nat.ne_of_lt long), if_pos long]
        exact .front
    | cons head rest =>
        have byte := Segments.head_of_stretch _ _ _ head rest stretch
        apply Strayed.resume
        refine ⟨by rw [List.length_append, front]; simp, ?_⟩
        rw [List.getElem?_append_right (Nat.le_of_eq front), front, Nat.sub_self,
          List.getElem?_cons_zero]
        exact alien head byte
  · rename_i given
    rw [context.getBody_eq_abort_iff store, entry] at given
    cases given
  · exact .faulted _

include holds

theorem HoldsIn.strayed_step (reader : Reader) (strayed : Strayed width headers body reader) :
    Strayed width headers body (reader.step context store) := by
  have nonempty : body ≠ [] := fun empty => by simp [empty] at long
  cases strayed with
  | idle =>
      rw [holds.step_idle bounded nonempty]
      exact .start
  | start =>
      rw [holds.step_first bounded nonempty]
      split
      · exact .faulted .outOfBounds
      · rw [if_neg (Nat.not_le.mpr long)]
        exact .front
  | front => exact strayed_front bounded long stored entry alien
  | reading headers total delivered wrong =>
      simp only [Reader.step]
      split
      · split
        · exact .resume (wrong.append _) headers total
        · exact .aborted headers total delivered wrong
        · exact .faulted _
      · exact .faulted .illegalRange
  | complete headers total delivered wrong => exact .complete headers total delivered wrong
  | aborted headers total delivered wrong => exact .aborted headers total delivered wrong
  | faulted fault => exact .faulted fault

theorem HoldsIn.not_readsOwnBytes : ¬ ReadsOwnBytes context store headers body := by
  intro own
  rcases own with ⟨gets, ended⟩
  have strayed : Strayed width headers body ((Reader.step context store)^[gets] .idle) := by
    clear ended
    induction gets with
    | zero => exact .idle
    | succ gets ih =>
        rw [Function.iterate_succ_apply']
        exact holds.strayed_step bounded long stored entry alien _ ih
  exact strayed.not_own ended

end Mismatch

def markedBody (size position : Nat) : Bytes := (List.replicate size 0).set position 1

theorem markedBody_marked (size position : Nat) (inside : position < size) (other : Nat)
    (elsewhere : other ≠ position) :
    (markedBody size position)[other]? ≠ (markedBody size position)[position]? := by
  rw [markedBody, List.getElem?_set_ne (Ne.symm elsewhere),
    List.getElem?_set_self (by rwa [List.length_replicate]), List.getElem?_replicate]
  split <;> simp

section Sizes

variable {written : HazelcastHttpCache} {context : HazelcastLookupContext}
  (sameBodies : written.hzConfig.bodyMapName = context.hzCache.hzConfig.bodyMapName)
  (sameHeaders : written.hzConfig.headerMapName = context.hzCache.hzConfig.headerMapName)
  {size : Nat} (bounded : size < 2 ^ 64) (few : size / written.partition + 1 < 2 ^ 31)

include sameBodies sameHeaders bounded few

theorem markedBody_misread (long : written.partition < size) (prior : Store)
    (found : written.partition ≠ context.hzCache.partition ∧
        written.partition / context.hzCache.partition ≤ size / written.partition ∨
      size / written.partition < written.partition / context.hzCache.partition ∧
        prior.bodyMap (context.hzCache.bodyKey context.hashKey
          (written.partition / context.hzCache.partition)) = some ⟨[]⟩) :
    ∃ (insert : Insert) (store : Store), insert.body.length = size ∧
      insert.run written context.hashKey prior = .ok store ∧
      ¬ ReadsOwnBytes context store insert.headers insert.body := by
  have length : (markedBody size written.partition).length = size := by simp [markedBody]
  have inside : (markedBody size written.partition).length < 2 ^ 64 := by rwa [length]
  have nonempty : markedBody size written.partition ≠ [] :=
    List.ne_nil_of_length_pos (by omega)
  have body := Insert.single_body [] ⟨markedBody size written.partition, inside⟩
  have stored := Insert.run_chunked written context.hashKey
    (Insert.single [] ⟨markedBody size written.partition, inside⟩) prior (by simp [Insert.single])
  refine ⟨_, _, by rw [body, length], stored, ?_⟩
  have holds := Insert.run_holdsIn written context sameBodies sameHeaders _ prior _
    (by rwa [body, length]) stored
  have rest := Insert.bodyMap_beyond written context sameBodies _ prior _
    (by rwa [body, length]) stored
  rw [body] at holds ⊢
  rw [body, length] at rest
  rcases found with ⟨different, own⟩ | ⟨beyond, leftover⟩
  · refine holds.not_readsOwnBytes inside (by rwa [length]) _
      (holds.partitions nonempty _ (by rwa [length])) ?_
    intro head byte
    rw [Segments.getElem?_block] at byte
    split at byte
    · rw [← byte]
      exact markedBody_marked size _ long _ (misplaced _ _ different (by assumption))
    · cases byte
  · refine holds.not_readsOwnBytes inside (by rwa [length]) [] ((rest _ beyond).trans leftover) ?_
    intro head byte
    cases byte

theorem misread_of_found (different : written.partition ≠ context.hzCache.partition)
    (long : written.partition < size)
    (found : written.partition / context.hzCache.partition ≤ size / written.partition) :
    ∃ (insert : Insert) (store : Store), insert.body.length = size ∧
      insert.run written context.hashKey Store.empty = .ok store ∧
      ¬ ReadsOwnBytes context store insert.headers insert.body :=
  markedBody_misread sameBodies sameHeaders bounded few long Store.empty (Or.inl ⟨different, found⟩)

omit bounded in
theorem reads_of_fits (fits : written.partition = context.hzCache.partition ∨
      size ≤ written.partition) (insert : Insert) (prior store : Store)
    (length : insert.body.length = size)
    (stored : insert.run written context.hashKey prior = .ok store) :
    ReadsOwnBytes context store insert.headers insert.body := by
  subst length
  have holds := insert.run_holdsIn written context sameBodies sameHeaders prior store few stored
  rcases fits with same | short
  · exact holds.same_width insert.size_lt same
  · exact holds.one_partition insert.size_lt short

end Sizes

/-- A response inserted through a cache on the same maps is read without fault, as far as the
lookup gets, whatever the maps held before, exactly if both caches have the same partition size
or the body fits into one partition of the writer. On maps that held no body entries under the
hash there is one more case: the reader's second call asks for a partition beyond the writer's
last one. -/
theorem foreign_partition_size_iff (written : HazelcastHttpCache)
    (context : HazelcastLookupContext)
    (sameBodies : written.hzConfig.bodyMapName = context.hzCache.hzConfig.bodyMapName)
    (sameHeaders : written.hzConfig.headerMapName = context.hzCache.hzConfig.headerMapName)
    (size : Nat) (bounded : size < 2 ^ 64) (few : size / written.partition + 1 < 2 ^ 31) :
    ((∀ (insert : Insert) (prior store : Store), insert.body.length = size →
        insert.run written context.hashKey prior = .ok store →
        ReadsOwnBytes context store insert.headers insert.body) ↔
      written.partition = context.hzCache.partition ∨ size ≤ written.partition) ∧
    ((∀ (insert : Insert) (prior store : Store), insert.body.length = size →
        (∀ index, prior.bodyMap (context.hzCache.bodyKey context.hashKey index) = none) →
        insert.run written context.hashKey prior = .ok store →
        ReadsOwnBytes context store insert.headers insert.body) ↔
      written.partition = context.hzCache.partition ∨ size ≤ written.partition ∨
        size / written.partition < written.partition / context.hzCache.partition) := by
  constructor
  · constructor
    · intro allRead
      by_contra mismatch
      simp only [not_or, Nat.not_le] at mismatch
      rcases mismatch with ⟨different, long⟩
      rcases Nat.lt_or_ge (size / written.partition)
        (written.partition / context.hzCache.partition) with beyond | found
      · -- The partition beyond is there after all, an empty one of an earlier response.
        obtain ⟨insert, store, length, stored, wrong⟩ := markedBody_misread sameBodies sameHeaders
          bounded few long (Store.empty.apply (.body (context.hzCache.bodyKey context.hashKey
            (written.partition / context.hzCache.partition)) ⟨[]⟩))
          (Or.inr ⟨beyond, KeyedMap.write_self _ (context.hzCache.bodyKey context.hashKey
            (written.partition / context.hzCache.partition), _)⟩)
        exact wrong (allRead insert _ store length stored)
      · obtain ⟨insert, store, length, stored, wrong⟩ :=
          misread_of_found sameBodies sameHeaders bounded few different long found
        exact wrong (allRead insert _ store length stored)
    · exact reads_of_fits sameBodies sameHeaders few
  · constructor
    · intro allRead
      by_contra mismatch
      simp only [not_or, Nat.not_le, Nat.not_lt] at mismatch
      rcases mismatch with ⟨different, long, found⟩
      obtain ⟨insert, store, length, stored, wrong⟩ :=
        misread_of_found sameBodies sameHeaders bounded few different long found
      exact wrong (allRead insert _ store length (fun _ => rfl) stored)
    · intro fits insert prior store length nothing stored
      by_cases small : written.partition = context.hzCache.partition ∨ size ≤ written.partition
      · exact reads_of_fits sameBodies sameHeaders few small insert prior store length stored
      · obtain ⟨different, long⟩ := not_or.mp small
        have beyond := (fits.resolve_left different).resolve_left long
        subst length
        have holds := insert.run_holdsIn written context sameBodies sameHeaders prior store few
          stored
        refine holds.aborted bounded (Nat.not_le.mp long) ?_ ?_
        · by_contra larger
          rw [Nat.div_eq_of_lt (Nat.not_le.mp larger)] at beyond
          exact Nat.not_lt_zero _ beyond
        · rw [insert.bodyMap_beyond written context sameBodies prior store few stored _ beyond]
          exact nothing _

theorem foreign_partition_size_three_bytes :
    let context : HazelcastLookupContext := ⟨⟨{ bodyPartitionSize := 1 }⟩, 17, none⟩
    (∀ (insert : Insert) (prior store : Store), insert.body.length = 2 →
      insert.run ⟨{ bodyPartitionSize := 2 }⟩ context.hashKey prior = .ok store →
      ReadsOwnBytes context store insert.headers insert.body) ∧
    ∀ (insert : Insert) (prior store : Store), insert.body.length = 3 →
      (∀ index, prior.bodyMap (context.hzCache.bodyKey context.hashKey index) = none) →
      insert.run ⟨{ bodyPartitionSize := 2 }⟩ context.hashKey prior = .ok store →
      ReadsOwnBytes context store insert.headers insert.body := by
  intro context
  constructor
  · exact (foreign_partition_size_iff ⟨{ bodyPartitionSize := 2 }⟩ context rfl rfl 2 (by decide)
      (by decide)).1.mpr (by decide)
  · exact (foreign_partition_size_iff ⟨{ bodyPartitionSize := 2 }⟩ context rfl rfl 3 (by decide)
      (by decide)).2.mpr (by decide)

/-- Written in partitions of two bytes and read in partitions of one, the fifth byte of the
body is delivered as its third. -/
theorem foreign_partition_size_misplaces :
    let written : HazelcastHttpCache := ⟨{ bodyPartitionSize := 2 }⟩
    let context : HazelcastLookupContext := ⟨⟨{ bodyPartitionSize := 1 }⟩, 17, none⟩
    let insert : Insert := ⟨[], [⟨[10, 11, 12, 13, 14], by decide⟩], by decide⟩
    ∃ store, insert.run written 17 Store.empty = .ok store ∧
      ∃ delivered, (Reader.step context store)^[4] .idle = .aborted (some []) 5 delivered ∧
        delivered ≠ insert.body.take delivered.length ∧ delivered = [10, 11, 14] := by
  intro written context insert
  refine ⟨_, insert.run_chunked written 17 Store.empty (by decide), [10, 11, 14], ?_, ?_, rfl⟩
  · decide
  · decide

end HazelcastCache
