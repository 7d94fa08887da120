import HazelcastCache.Cluster
import HazelcastCache.StoredResponse
import Mathlib.Logic.Function.Iterate

/-! The caller's loop over `getBody`, partition by partition. -/

namespace HazelcastCache

open Library

/-- The bytes stored for partition `index` give a reader of `body` what it asks for there.
A partition that the body fills must match; of the last one only the needed bytes count,
unless its end lies beyond 64 bits and the reader takes everything it finds. -/
structure Serves (width : Nat) (body : Bytes) (index : Nat) (stored : Bytes) : Prop where
  full : (index + 1) * width ≤ body.length → stored = Segments.block width index body
  last : body.length < (index + 1) * width →
    stored.take (body.length - index * width) = body.drop (index * width) ∧
      ((index + 1) * width < 2 ^ 64 ∨ stored.length = body.length - index * width)

theorem serves_block (width : Nat) (body : Bytes) (index : Nat) :
    Serves width body index (Segments.block width index body) where
  full _ := rfl
  last short := by
    rw [Segments.block_eq_drop width index body (Nat.le_of_lt short)]
    refine ⟨List.take_of_length_le ?_, Or.inr ?_⟩ <;> simp

theorem Reader.step_reading (context : HazelcastLookupContext) (store : Store)
    (headers : Option HeaderMapImpl) (total : UInt64) (delivered : Bytes)
    (unfinished : delivered.length < total.toNat) :
    ∃ range : AdjustedByteRange, range.first.toNat = delivered.length ∧
      range.last.toNat = total.toNat ∧
      (Reader.reading headers total delivered).step context store =
        match context.getBody store range with
        | .ok (some bytes) => .resume headers total (delivered ++ bytes)
        | .ok none => .aborted headers total delivered
        | .error fault => .faulted fault := by
  have first : (UInt64.ofNat delivered.length).toNat = delivered.length :=
    UInt64.toNat_ofNat_of_lt' (Nat.lt_trans unfinished total.toNat_lt)
  have nonempty : UInt64.ofNat delivered.length < total := by
    rw [UInt64.lt_iff_toNat_lt, first]
    exact unfinished
  exact ⟨⟨_, _, nonempty⟩, first, rfl, dif_pos nonempty⟩

section Step

variable (context : HazelcastLookupContext) (store : Store) (headers : HeaderMapImpl)
  (body : Bytes) (bounded : body.length < 2 ^ 64) (index : Nat)

theorem getBody_serves (range : AdjustedByteRange) (stored : Bytes)
    (first : range.first.toNat = index * context.hzCache.partition)
    (last : range.last.toNat = body.length)
    (found : store.bodyMap (context.hzCache.bodyKey context.hashKey index) = some ⟨stored⟩)
    (serves : Serves context.hzCache.partition body index stored) :
    context.getBody store range =
      .ok (some (Segments.block context.hzCache.partition index body)) := by
  have positive := context.hzCache.partition_pos
  have below := UInt64.lt_iff_toNat_lt.mp range.first_lt_last
  have quotient : range.first.toNat / context.hzCache.partition = index := by
    rw [first, Nat.mul_div_cancel _ positive]
  have start : range.first.toNat % context.hzCache.partition = 0 := by
    rw [first, Nat.mul_mod_left]
  have border : context.partitionEnd range = (index + 1) * context.hzCache.partition := by
    rw [HazelcastLookupContext.partitionEnd, quotient]
  have key : store.bodyMap (context.bodyKeyOf range) = some ⟨stored⟩ := by
    rw [HazelcastLookupContext.bodyKeyOf, quotient, found]
  rcases Nat.lt_or_ge body.length ((index + 1) * context.hzCache.partition) with short | full
  · rcases serves.last short with ⟨bytes, exactOr⟩
    have lengths := congrArg List.length bytes
    simp only [List.length_take, List.length_drop] at lengths
    rw [Segments.block_eq_drop _ index body (Nat.le_of_lt short), ← bytes]
    by_cases small : (index + 1) * context.hzCache.partition < 2 ^ 64
    · have size : range.last.toNat % context.hzCache.partition =
          body.length - index * context.hzCache.partition := by
        rw [last, Nat.mod_eq_sub_div_mul, Nat.div_eq_of_lt_le (by omega) short]
      rw [context.getBody_within store range _ key (by omega) (by omega)]
      simp only [start, size, Nat.zero_add]
      rw [if_pos (by omega), List.extract, List.drop_zero, Nat.sub_zero]
    · have length : stored.length = body.length - index * context.hzCache.partition :=
        exactOr.resolve_left small
      have bodyBound := range.last.toNat_lt
      rw [context.getBody_beyond store range _ key (by rw [length]; omega) (Or.inr (by omega))]
      simp only [start, Nat.zero_le, if_true, List.drop_zero]
      rw [List.take_of_length_le (Nat.le_of_eq length)]
  · have same := serves.full full
    have size := context.hzCache.partition_lt
    have length := Segments.block_length_full _ index body full
    rw [context.getBody_beyond store range _ key (by rw [same, length]; omega)
      (Or.inl (by omega))]
    simp only [start, Nat.zero_le, if_true, List.drop_zero, same]

/-- A reader that has been given the first `index` partitions of `body`. -/
def Reader.upTo (width : Nat) (headers : HeaderMapImpl) (body : Bytes) (index : Nat) : Reader :=
  if body.length ≤ index * width then
    .complete (some headers) (UInt64.ofNat body.length) body
  else .reading (some headers) (UInt64.ofNat body.length) (body.take (index * width))

include bounded

theorem Reader.resume_take :
    Reader.resume (some headers) (UInt64.ofNat body.length)
        (body.take (index * context.hzCache.partition)) =
      Reader.upTo context.hzCache.partition headers body index := by
  have total : (UInt64.ofNat body.length).toNat = body.length :=
    UInt64.toNat_ofNat_of_lt' bounded
  unfold Reader.resume Reader.upTo
  rw [total, List.length_take]
  by_cases done : body.length ≤ index * context.hzCache.partition
  · rw [if_pos (Nat.min_eq_right done), if_pos done, List.take_of_length_le done]
  · rw [if_neg (by omega), if_pos (by omega), if_neg done]

theorem Reader.step_idle
    (hit : store.headerMap (context.hzCache.headerKey context.hashKey) =
      some ⟨some headers, UInt64.ofNat body.length⟩) :
    Reader.idle.step context store =
      Reader.upTo context.hzCache.partition headers body 0 := by
  rw [← Reader.resume_take context headers body bounded 0]
  simp [Reader.step, HazelcastLookupContext.getHeaders_result, hit]

variable (unfinished : index * context.hzCache.partition < body.length)

include unfinished

theorem Reader.step_upTo_eq :
    ∃ range : AdjustedByteRange, range.first.toNat = index * context.hzCache.partition ∧
      range.last.toNat = body.length ∧
      (Reader.upTo context.hzCache.partition headers body index).step context store =
        match context.getBody store range with
        | .ok (some bytes) => .resume (some headers) (UInt64.ofNat body.length)
            (body.take (index * context.hzCache.partition) ++ bytes)
        | .ok none => .aborted (some headers) (UInt64.ofNat body.length)
            (body.take (index * context.hzCache.partition))
        | .error fault => .faulted fault := by
  have delivered : (body.take (index * context.hzCache.partition)).length =
      index * context.hzCache.partition := List.length_take_of_le (Nat.le_of_lt unfinished)
  have total : (UInt64.ofNat body.length).toNat = body.length :=
    UInt64.toNat_ofNat_of_lt' bounded
  rcases Reader.step_reading context store (some headers)
    (UInt64.ofNat body.length) (body.take (index * context.hzCache.partition))
    (by rw [delivered, total]; exact unfinished) with ⟨range, first, last, next⟩
  refine ⟨range, first.trans delivered, last.trans total, ?_⟩
  rw [Reader.upTo, if_neg (Nat.not_le.mpr unfinished), next]

theorem Reader.step_upTo (stored : Bytes)
    (found : store.bodyMap (context.hzCache.bodyKey context.hashKey index) = some ⟨stored⟩)
    (serves : Serves context.hzCache.partition body index stored) :
    (Reader.upTo context.hzCache.partition headers body index).step context store =
      Reader.upTo context.hzCache.partition headers body (index + 1) := by
  rcases Reader.step_upTo_eq context store headers body bounded index unfinished with
    ⟨range, first, last, next⟩
  rw [next, getBody_serves context store body index range stored first last found serves]
  rw [← Reader.resume_take context headers body bounded, ← Segments.take_append_block]

theorem Reader.step_upTo_missing
    (missing : store.bodyMap (context.hzCache.bodyKey context.hashKey index) = none) :
    (Reader.upTo context.hzCache.partition headers body index).step context store =
      .aborted (some headers) (UInt64.ofNat body.length)
        (body.take (index * context.hzCache.partition)) := by
  rcases Reader.step_upTo_eq context store headers body bounded index unfinished with
    ⟨range, first, last, next⟩
  have key : store.bodyMap (context.bodyKeyOf range) = none := by
    rw [HazelcastLookupContext.bodyKeyOf, first,
      Nat.mul_div_cancel _ context.hzCache.partition_pos, missing]
  rw [next, context.getBody_missing store range key]

end Step

theorem Reader.upTo_of_le (width : Nat) (headers : HeaderMapImpl) (body : Bytes) (index : Nat)
    (done : body.length ≤ index * width) : Reader.upTo width headers body index =
      .complete (some headers) (UInt64.ofNat body.length) body := by
  rw [Reader.upTo, if_pos done]

theorem Reader.step_upTo_done (context : HazelcastLookupContext) (store : Store) (width : Nat)
    (headers : HeaderMapImpl) (body : Bytes) (index : Nat)
    (done : body.length ≤ index * width) :
    (Reader.upTo width headers body index).step context store =
      Reader.upTo width headers body (index + 1) := by
  rw [Reader.upTo_of_le _ _ _ _ done, Reader.upTo_of_le _ _ _ _ (Nat.le_trans done
    (Nat.mul_le_mul_right _ (Nat.le_succ index)))]
  rfl

/-- The maps serve `body` to every lookup under the hash. -/
structure Serving (cache : HazelcastHttpCache) (hashKey : UInt64) (store : Store)
    (headers : HeaderMapImpl) (body : Bytes) : Prop where
  header : store.headerMap (cache.headerKey hashKey) =
    some ⟨some headers, UInt64.ofNat body.length⟩
  partitions : ∀ index, index * cache.partition < body.length →
    ∃ stored, store.bodyMap (cache.bodyKey hashKey index) = some ⟨stored⟩ ∧
      Serves cache.partition body index stored

theorem Holds.serving {cache : HazelcastHttpCache} {hashKey : UInt64} {store : Store}
    {headers : HeaderMapImpl} {body : Bytes} (holds : Holds cache hashKey store headers body) :
    Serving cache hashKey store headers body where
  header := holds.header
  partitions index inside :=
    ⟨_, holds.partitions index inside, serves_block cache.partition body index⟩

theorem Serving.iterate_step {context : HazelcastLookupContext} {store : Store}
    {headers : HeaderMapImpl} {body : Bytes}
    (serving : Serving context.hzCache context.hashKey store headers body)
    (bounded : body.length < 2 ^ 64) (index : Nat) :
    (Reader.step context store)^[index + 1] .idle =
      Reader.upTo context.hzCache.partition headers body index := by
  induction index with
  | zero => exact Reader.step_idle context store headers body bounded serving.header
  | succ index ih =>
      rw [Function.iterate_succ_apply', ih]
      by_cases unfinished : index * context.hzCache.partition < body.length
      · rcases serving.partitions index unfinished with ⟨stored, found, serves⟩
        exact Reader.step_upTo context store headers body bounded index unfinished stored found
          serves
      · exact Reader.step_upTo_done context store _ headers body index (Nat.not_lt.mp unfinished)

theorem Serving.read {context : HazelcastLookupContext} {store : Store}
    {headers : HeaderMapImpl} {body : Bytes}
    (serving : Serving context.hzCache context.hashKey store headers body)
    (bounded : body.length < 2 ^ 64) :
    (Reader.step context store)^[body.length / context.hzCache.partition + 2] .idle =
      .complete (some headers) (UInt64.ofNat body.length) body := by
  rw [serving.iterate_step bounded]
  apply Reader.upTo_of_le
  exact length_le_partitions context.hzCache body.length

/-! A lookup among other activity. -/

/-- A lookup that has been given nothing but the response's own bytes, in order. It may have
missed only if `NoHeader`, and been aborted at a partition only if that one was `Lost`. -/
inductive Reader.OnTrack (width : Nat) (headers : HeaderMapImpl) (body : Bytes)
    (NoHeader : Prop) (Lost : Nat → Prop) : Reader → Prop
  | idle : OnTrack width headers body NoHeader Lost .idle
  | missed (absent : NoHeader) : OnTrack width headers body NoHeader Lost .missed
  | upTo (index : Nat) :
      OnTrack width headers body NoHeader Lost (Reader.upTo width headers body index)
  | aborted (index : Nat) (unfinished : index * width < body.length) (lost : Lost index) :
      OnTrack width headers body NoHeader Lost
        (.aborted (some headers) (UInt64.ofNat body.length) (body.take (index * width)))

/-- How many gets the lookup of a body of `size` bytes can still make. -/
def Reader.work (width size : Nat) : Reader → Nat
  | .idle => size / width + 2
  | .reading _ _ delivered => size / width + 1 - delivered.length / width
  | _ => 0

theorem Reader.work_upTo (width : Nat) (positive : 0 < width) (headers : HeaderMapImpl)
    (body : Bytes) (index : Nat) (unfinished : index * width < body.length) :
    (Reader.upTo width headers body index).work width body.length =
      body.length / width + 1 - index := by
  rw [Reader.upTo, if_neg (Nat.not_le.mpr unfinished), Reader.work,
    List.length_take_of_le (Nat.le_of_lt unfinished), Nat.mul_div_cancel _ positive]

theorem Reader.work_upTo_le (width : Nat) (positive : 0 < width) (headers : HeaderMapImpl)
    (body : Bytes) (index : Nat) :
    (Reader.upTo width headers body index).work width body.length ≤
      body.length / width + 1 - index := by
  by_cases unfinished : index * width < body.length
  · exact Nat.le_of_eq (Reader.work_upTo width positive headers body index unfinished)
  · rw [Reader.upTo_of_le _ _ _ _ (Nat.not_lt.mp unfinished)]
    exact Nat.zero_le _

theorem Reader.OnTrack.step {context : HazelcastLookupContext} {headers : HeaderMapImpl}
    {body : Bytes} {NoHeader : Prop} {Lost : Nat → Prop} {reader : Reader}
    (track : Reader.OnTrack context.hzCache.partition headers body NoHeader Lost reader)
    (bounded : body.length < 2 ^ 64) (store : Store)
    (header : reader = .idle → store.headerMap (context.hzCache.headerKey context.hashKey) =
        some ⟨some headers, UInt64.ofNat body.length⟩ ∨
      store.headerMap (context.hzCache.headerKey context.hashKey) = none ∧ NoHeader)
    (partitions : ∀ index, reader = Reader.upTo context.hzCache.partition headers body index →
      index * context.hzCache.partition < body.length →
      (∃ stored, store.bodyMap (context.hzCache.bodyKey context.hashKey index) = some ⟨stored⟩ ∧
        Serves context.hzCache.partition body index stored) ∨
      store.bodyMap (context.hzCache.bodyKey context.hashKey index) = none ∧ Lost index) :
    Reader.OnTrack context.hzCache.partition headers body NoHeader Lost
        (reader.step context store) ∧
      (reader.step context store).work context.hzCache.partition body.length ≤
        reader.work context.hzCache.partition body.length - 1 := by
  have positive := context.hzCache.partition_pos
  cases track with
  | idle =>
      rcases header rfl with hit | ⟨absent, reason⟩
      · rw [Reader.step_idle context store headers body bounded hit]
        refine ⟨.upTo 0, Nat.le_trans (Reader.work_upTo_le _ positive headers body 0) ?_⟩
        exact Nat.le_refl _
      · have miss : Reader.idle.step context store = .missed := by
          simp [Reader.step, HazelcastLookupContext.getHeaders_result, absent]
        rw [miss]
        exact ⟨.missed reason, Nat.zero_le _⟩
  | missed absent => exact ⟨.missed absent, Nat.zero_le _⟩
  | upTo index =>
      by_cases unfinished : index * context.hzCache.partition < body.length
      · rw [Reader.work_upTo _ positive headers body index unfinished]
        rcases partitions index rfl unfinished with ⟨stored, found, serves⟩ | ⟨missing, lost⟩
        · rw [Reader.step_upTo context store headers body bounded index unfinished stored found
            serves]
          exact ⟨.upTo (index + 1), Reader.work_upTo_le _ positive headers body (index + 1)⟩
        · rw [Reader.step_upTo_missing context store headers body bounded index unfinished missing]
          exact ⟨.aborted index unfinished lost, Nat.zero_le _⟩
      · have done := Nat.not_lt.mp unfinished
        rw [Reader.step_upTo_done context store _ headers body index done]
        refine ⟨.upTo (index + 1), ?_⟩
        rw [Reader.upTo_of_le _ headers body (index + 1) (Nat.le_trans done
          (Nat.mul_le_mul_right _ (Nat.le_succ index)))]
        exact Nat.zero_le _
  | aborted index unfinished lost => exact ⟨.aborted index unfinished lost, Nat.zero_le _⟩

theorem Reader.OnTrack.finished {width : Nat} {headers : HeaderMapImpl} {body : Bytes}
    {NoHeader : Prop} {Lost : Nat → Prop} {reader : Reader} (positive : 0 < width)
    (track : Reader.OnTrack width headers body NoHeader Lost reader)
    (spent : reader.work width body.length = 0) : reader.Finished := by
  cases track with
  | idle => cases spent
  | missed _ => trivial
  | upTo index =>
      by_cases unfinished : index * width < body.length
      · rw [Reader.work_upTo width positive headers body index unfinished] at spent
        have := (Nat.le_div_iff_mul_le positive).mpr (Nat.le_of_lt unfinished)
        omega
      · rw [Reader.upTo_of_le _ _ _ _ (Nat.not_lt.mp unfinished)]
        trivial
  | aborted _ _ _ => trivial

theorem Cluster.partition_run {Writer : Type} [DecidableEq Writer]
    (context : HazelcastLookupContext) (cluster : Cluster Writer)
    (before after : List (Action Writer)) (writer : Writer) (body : Bytes) (index : Nat)
    (rest : List Put) (Good : HazelcastBodyEntry → Prop) (small : index < 2 ^ 31)
    (waiting : (cluster.run context before).pending writer =
      blockPut context.hzCache context.hashKey body index :: rest)
    (good : ∀ other entry, .body (context.hzCache.bodyKey context.hashKey index) entry ∈
      (cluster.run context before).pending other → Good entry) :
    let final := cluster.run context (before ++ .put writer :: after)
    (∃ entry, final.store.bodyMap (context.hzCache.bodyKey context.hashKey index) = some entry ∧
        Good entry) ∨
      final.store.bodyMap (context.hzCache.bodyKey context.hashKey index) = none ∧
        .evictBody (context.hzCache.bodyKey context.hashKey index) ∈ after := by
  have key := orderKey_eq_bodyKey context.hzCache context.hashKey index small
  rw [Cluster.run_put context _ before after writer _ rest waiting]
  apply Cluster.bodyMap_run
  · rw [← key]
    refine ⟨_, KeyedMap.write_self _ (context.hzCache.orderKey context.hashKey index, _), ?_⟩
    apply good writer
    rw [waiting, ← key]
    exact List.mem_cons_self
  · intro other entry member
    by_cases same : other = writer
    · subst same
      simp only [Function.update_self] at member
      exact good other entry (by rw [waiting]; exact List.mem_cons_of_mem _ member)
    · simp only [Function.update_of_ne same] at member
      exact good other entry member

/-- A lookup among other activity stays on track if, whenever it gets an entry, the entry
serves it or is missing for a known reason; and every get brings it nearer to its end. -/
theorem Cluster.onTrack_run {Writer : Type} [DecidableEq Writer]
    (context : HazelcastLookupContext) (cluster : Cluster Writer)
    (schedule : List (Action Writer)) (headers : HeaderMapImpl) (body : Bytes)
    (NoHeader : Prop) (Lost : Nat → Prop) (bounded : body.length < 2 ^ 64)
    (track : Reader.OnTrack context.hzCache.partition headers body NoHeader Lost cluster.reader)
    (header : ∀ before after, schedule = before ++ .get :: after →
      let now := cluster.run context before
      now.reader = .idle →
      now.store.headerMap (context.hzCache.headerKey context.hashKey) =
          some ⟨some headers, UInt64.ofNat body.length⟩ ∨
        now.store.headerMap (context.hzCache.headerKey context.hashKey) = none ∧ NoHeader)
    (partitions : ∀ before after, schedule = before ++ .get :: after →
      let now := cluster.run context before
      ∀ index, now.reader = Reader.upTo context.hzCache.partition headers body index →
      index * context.hzCache.partition < body.length →
      (∃ stored, now.store.bodyMap (context.hzCache.bodyKey context.hashKey index) =
        some ⟨stored⟩ ∧ Serves context.hzCache.partition body index stored) ∨
      now.store.bodyMap (context.hzCache.bodyKey context.hashKey index) = none ∧ Lost index) :
    Reader.OnTrack context.hzCache.partition headers body NoHeader Lost
        (cluster.run context schedule).reader ∧
      (cluster.run context schedule).reader.work context.hzCache.partition body.length ≤
        cluster.reader.work context.hzCache.partition body.length -
          schedule.countP Action.isGet := by
  induction schedule using List.reverseRecOn with
  | nil => exact ⟨track, Nat.le_refl _⟩
  | append_singleton schedule action ih =>
      rcases ih
        (fun before after split => header before (after ++ [action]) (by simp [split]))
        (fun before after split => partitions before (after ++ [action]) (by simp [split])) with
        ⟨onTrack, spent⟩
      by_cases isGet : action = .get
      · subst isGet
        rcases onTrack.step bounded (cluster.run context schedule).store
          (header schedule [] rfl) (partitions schedule [] rfl) with ⟨later, nearer⟩
        rw [Cluster.reader_append_get, List.countP_append]
        refine ⟨later, Nat.le_trans nearer ?_⟩
        change _ ≤ _ - (schedule.countP Action.isGet + 1)
        omega
      · have same : (schedule ++ [action]).countP Action.isGet =
            schedule.countP Action.isGet := by
          simp [action.isGet_of_ne isGet]
        rw [Cluster.reader_append_of_ne context cluster schedule action isGet, same]
        exact ⟨onTrack, spent⟩

end HazelcastCache
