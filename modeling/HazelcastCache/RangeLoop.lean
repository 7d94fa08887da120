import HazelcastCache.RangeRead
import Mathlib.Logic.Function.Iterate

/-! A caller's loop that reads a range of the body with as many `getBody` calls as it takes. -/

namespace HazelcastCache

open Library

/-- `getBody(context, start, end)` of the tests, at the test of its `while`. -/
inductive RangeLoop where
  | turning (position : UInt64) (fullBody : Bytes)
  | returned (fullBody : Bytes)
  | faulted (fault : Fault)
  deriving DecidableEq, Repr

namespace RangeLoop

def test (start last position : UInt64) (fullBody : Bytes) : RangeLoop :=
  if fullBody.length = (last - start).toNat then .returned fullBody
  else .turning position fullBody

/-- One turn. A null buffer fails an expectation, and the loop goes on with the same range. -/
def turn (context : HazelcastLookupContext) (store : Store) (start last : UInt64) :
    RangeLoop → RangeLoop
  | .turning position fullBody =>
      if nonempty : position < last then
        match context.getBody store ⟨position, last, nonempty⟩ with
        | .ok (some data) =>
            test start last (position + UInt64.ofNat data.length) (fullBody ++ data)
        | .ok none => .turning position fullBody
        | .error fault => .faulted fault
      else .faulted .illegalRange
  | finished => finished

def after (context : HazelcastLookupContext) (store : Store) (start last : UInt64)
    (turns : Nat) : RangeLoop :=
  (turn context store start last)^[turns] (test start last start [])

end RangeLoop

def HazelcastHttpCache.border (cache : HazelcastHttpCache) (position : Nat) : Nat :=
  (position / cache.partition + 1) * cache.partition

theorem HazelcastHttpCache.border_eq (cache : HazelcastHttpCache) (index position : Nat)
    (above : index * cache.partition ≤ position)
    (below : position < (index + 1) * cache.partition) :
    cache.border position = (index + 1) * cache.partition := by
  rw [border, Nat.div_eq_of_lt_le above below]

theorem HazelcastHttpCache.lt_border (cache : HazelcastHttpCache) (position : Nat) :
    position < cache.border position :=
  Nat.lt_mul_of_div_lt (Nat.lt_succ_self _) cache.partition_pos

theorem HazelcastHttpCache.border_of_between (cache : HazelcastHttpCache) (position next : Nat)
    (above : position ≤ next) (below : next < cache.border position) :
    cache.border next = cache.border position :=
  cache.border_eq _ next (Nat.le_trans (Nat.div_mul_le_self _ _) above) below

/-- The ranges of a body of `size` bytes that the loop can read. It must not begin inside a
partition and end in the same one; and a partition whose end does not fit in 64 bits must be
read to the end of the body. -/
def HazelcastHttpCache.ReadsRange (cache : HazelcastHttpCache) (size start last : Nat) : Prop :=
  start = last ∨ start < last ∧
    (start % cache.partition = 0 ∨ cache.border start ≤ last ∨ 2 ^ 64 ≤ cache.border start) ∧
    (cache.border (last - 1) < 2 ^ 64 ∨ last = size)

instance (cache : HazelcastHttpCache) (size start last : Nat) :
    Decidable (cache.ReadsRange size start last) :=
  inferInstanceAs (Decidable (start = last ∨ start < last ∧ (_ ∨ _ ∨ _) ∧ (_ ∨ _)))

/-- From inside the partition in which the range ends, `getBody` takes as many bytes as there
are up to the end of the range from the start of the partition. They are too many. -/
theorem getBody_overshoots (context : HazelcastLookupContext) (store : Store)
    (range : AdjustedByteRange) (headers : HeaderMapImpl) (body : Bytes)
    (holds : Holds context.hzCache context.hashKey store headers body)
    (inside : range.last.toNat ≤ body.length)
    (within : range.last.toNat < context.partitionEnd range)
    (fits : context.partitionEnd range < 2 ^ 64)
    (broken : range.first.toNat % context.hzCache.partition ≠ 0) :
    context.getBody store range = .error .outOfBounds ∨
      ∃ data, context.getBody store range = .ok (some data) ∧
        range.last.toNat - range.first.toNat < data.length ∧
        range.first.toNat + data.length ≤ body.length := by
  have below := UInt64.lt_iff_toNat_lt.mp range.first_lt_last
  have division := Nat.div_add_mod' range.first.toNat context.hzCache.partition
  have size : range.last.toNat % context.hzCache.partition = range.last.toNat -
      range.first.toNat / context.hzCache.partition * context.hzCache.partition := by
    rw [Nat.mod_eq_sub_div_mul, Nat.div_eq_of_lt_le (by omega) within]
  have found := partition_found context store range headers body holds inside
  have length := Segments.block_length context.hzCache.partition
    (range.first.toNat / context.hzCache.partition) body
  rw [context.getBody_within store range _ found within fits]
  simp only [size]
  split
  · rename_i room
    right
    have taken := Segments.length_extract _ (range.first.toNat % context.hzCache.partition) _ room
    exact ⟨_, rfl, by omega, by omega⟩
  · left
    rfl

namespace RangeLoop

def upTo (body : Bytes) (start position : Nat) : RangeLoop :=
  .turning (UInt64.ofNat position) (body.extract start position)

section Turn

variable {context : HazelcastLookupContext} {store : Store} {start last : UInt64}

@[simp] theorem iterate_returned (fullBody : Bytes) (turns : Nat) :
    (turn context store start last)^[turns] (.returned fullBody) = .returned fullBody :=
  Function.iterate_fixed rfl turns

@[simp] theorem iterate_faulted (fault : Fault) (turns : Nat) :
    (turn context store start last)^[turns] (.faulted fault) = .faulted fault :=
  Function.iterate_fixed rfl turns

variable {body : Bytes} (bounded : body.length < 2 ^ 64)

include bounded

theorem turn_past (position : Nat) (fullBody : Bytes) (past : last.toNat ≤ position)
    (inside : position ≤ body.length) :
    turn context store start last (.turning (UInt64.ofNat position) fullBody) =
      .faulted .illegalRange := by
  have here : (UInt64.ofNat position).toNat = position :=
    UInt64.toNat_ofNat_of_lt' (Nat.lt_of_le_of_lt inside bounded)
  rw [turn, dif_neg]
  rw [UInt64.lt_iff_toNat_lt, here]
  exact Nat.not_lt.mpr past

omit bounded in
theorem test_extract (ordered : start ≤ last) (position : Nat) (begun : start.toNat ≤ position)
    (present : position ≤ body.length) :
    test start last (UInt64.ofNat position) (body.extract start.toNat position) =
      if position = last.toNat then .returned (body.extract start.toNat last.toNat)
      else upTo body start.toNat position := by
  have size := UInt64.toNat_sub_of_le _ _ ordered
  have length := Segments.length_extract body start.toNat position present
  have least := UInt64.le_iff_toNat_le.mp ordered
  rw [test, length, size]
  by_cases done : position = last.toNat
  · rw [if_pos (by omega), if_pos done, done]
  · rw [if_neg (by omega), if_neg done, upTo]

theorem turn_upTo (ordered : start ≤ last) (position next : Nat)
    (begun : start.toNat ≤ position) (forward : position ≤ next) (present : next ≤ body.length)
    (unfinished : position < last.toNat)
    (delivered : ∀ range : AdjustedByteRange, range.first.toNat = position →
      range.last = last → context.getBody store range = .ok (some (body.extract position next))) :
    turn context store start last (upTo body start.toNat position) =
      if next = last.toNat then .returned (body.extract start.toNat last.toNat)
      else upTo body start.toNat next := by
  have here : (UInt64.ofNat position).toNat = position :=
    UInt64.toNat_ofNat_of_lt' (Nat.lt_of_le_of_lt (Nat.le_trans forward present) bounded)
  have nonempty : UInt64.ofNat position < last := by
    rw [UInt64.lt_iff_toNat_lt, here]
    exact unfinished
  have length := Segments.length_extract body position next present
  have moved : UInt64.ofNat position + UInt64.ofNat (next - position) = UInt64.ofNat next := by
    rw [← UInt64.ofNat_add, Nat.add_sub_cancel' forward]
  rw [upTo, turn, dif_pos nonempty, delivered ⟨_, _, nonempty⟩ here rfl]
  simp only [length, moved, Segments.extract_append_extract body begun forward]
  exact test_extract ordered next (Nat.le_trans begun forward) present

end Turn

section Held

variable {context : HazelcastLookupContext} {store : Store} {start last : UInt64}
  {headers : HeaderMapImpl} {body : Bytes}
  (holds : Holds context.hzCache context.hashKey store headers body)
  (bounded : body.length < 2 ^ 64) (inside : last.toNat ≤ body.length) (ordered : start ≤ last)
  (position : Nat) (begun : start.toNat ≤ position) (unfinished : position < last.toNat)

include holds bounded inside ordered begun unfinished

theorem turn_to_border (reaches : context.hzCache.border position ≤ last.toNat) :
    turn context store start last (upTo body start.toNat position) =
      if context.hzCache.border position = last.toNat then
        .returned (body.extract start.toNat last.toNat)
      else upTo body start.toNat (context.hzCache.border position) := by
  have forward := Nat.le_of_lt (context.hzCache.lt_border position)
  apply turn_upTo bounded ordered position _ begun forward (Nat.le_trans reaches inside)
    unfinished
  rintro range rfl rfl
  have ends : context.partitionEnd range = context.hzCache.border range.first.toNat := rfl
  rw [getBody_to_partition_end context store range headers body holds inside (Or.inl reaches),
    ends, Nat.min_eq_left (Nat.le_trans reaches inside)]

theorem turn_aligned (within : last.toNat < context.hzCache.border position)
    (fits : context.hzCache.border position < 2 ^ 64)
    (aligned : position % context.hzCache.partition = 0) :
    turn context store start last (upTo body start.toNat position) =
      .returned (body.extract start.toNat last.toNat) := by
  rw [turn_upTo bounded ordered position last.toNat begun (Nat.le_of_lt unfinished) inside
    unfinished, if_pos rfl]
  rintro range rfl rfl
  exact (getBody_within_partition_iff context store range headers body holds inside within
    fits).mpr aligned

theorem turn_wrapped (wraps : 2 ^ 64 ≤ context.hzCache.border position) (turns : Nat) :
    (turn context store start last)^[turns + 2] (upTo body start.toNat position) =
      if last.toNat = body.length then .returned (body.extract start.toNat last.toNat)
      else .faulted .illegalRange := by
  have first : turn context store start last (upTo body start.toNat position) =
      if body.length = last.toNat then .returned (body.extract start.toNat last.toNat)
      else upTo body start.toNat body.length := by
    apply turn_upTo bounded ordered position _ begun (by omega) (Nat.le_refl _) unfinished
    rintro range rfl rfl
    rw [getBody_to_partition_end context store range headers body holds inside (Or.inr wraps)]
    have reach : body.length ≤ context.partitionEnd range := Nat.le_trans (by omega) wraps
    rw [Nat.min_eq_right reach]
  rw [Function.iterate_succ_apply, first]
  by_cases whole : last.toNat = body.length
  · rw [if_pos whole.symm, if_pos whole, iterate_returned]
  · rw [if_neg (Ne.symm whole), if_neg whole, Function.iterate_succ_apply, upTo,
      turn_past bounded _ _ inside (Nat.le_refl _), iterate_faulted]

theorem turn_broken (within : last.toNat < context.hzCache.border position)
    (fits : context.hzCache.border position < 2 ^ 64)
    (broken : position % context.hzCache.partition ≠ 0) (turns : Nat) :
    ∃ fault, (turn context store start last)^[turns + 2] (upTo body start.toNat position) =
      .faulted fault := by
  have here : (UInt64.ofNat position).toNat = position :=
    UInt64.toNat_ofNat_of_lt' (Nat.lt_of_le_of_lt (by omega) bounded)
  have nonempty : UInt64.ofNat position < last := by
    rw [UInt64.lt_iff_toNat_lt, here]
    exact unfinished
  have border : context.partitionEnd ⟨_, last, nonempty⟩ = context.hzCache.border position := by
    rw [HazelcastLookupContext.partitionEnd, here, HazelcastHttpCache.border]
  rw [Function.iterate_succ_apply, upTo, turn, dif_pos nonempty]
  rcases getBody_overshoots context store ⟨_, last, nonempty⟩ headers body holds inside
      (by rwa [border]) (by rwa [border]) (by rwa [here]) with failed | ⟨data, given, more, room⟩
  · rw [failed]
    simp only [iterate_faulted]
    exact ⟨_, rfl⟩
  · have taken := Segments.length_extract body start.toNat position (by omega)
    have least := UInt64.toNat_sub_of_le _ _ ordered
    have unequal : (body.extract start.toNat position ++ data).length ≠ (last - start).toNat := by
      rw [List.length_append, taken, least]
      simp only [here] at more
      omega
    simp only [here] at more room
    rw [given]
    simp only
    rw [test, if_neg unequal, ← UInt64.ofNat_add, Function.iterate_succ_apply,
      turn_past bounded _ _ (by omega) room, iterate_faulted]
    exact ⟨_, rfl⟩

omit begun unfinished in
theorem iterate_aligned (turns index : Nat)
    (begun : start.toNat ≤ index * context.hzCache.partition)
    (unfinished : index * context.hzCache.partition < last.toNat)
    (enough : last.toNat ≤ (index + turns) * context.hzCache.partition) :
    (turn context store start last)^[turns + 1]
        (upTo body start.toNat (index * context.hzCache.partition)) =
      if context.hzCache.border (last.toNat - 1) < 2 ^ 64 ∨ last.toNat = body.length then
        .returned (body.extract start.toNat last.toNat)
      else .faulted .illegalRange := by
  induction turns generalizing index with
  | zero =>
      rw [Nat.add_zero] at enough
      omega
  | succ turns ih =>
      have positive := context.hzCache.partition_pos
      have width : (index + 1) * context.hzCache.partition =
          index * context.hzCache.partition + context.hzCache.partition := Nat.succ_mul _ _
      have border : context.hzCache.border (index * context.hzCache.partition) =
          (index + 1) * context.hzCache.partition :=
        context.hzCache.border_eq index _ (Nat.le_refl _) (by omega)
      rcases Nat.lt_or_ge last.toNat ((index + 1) * context.hzCache.partition) with within | reach
      · have final : context.hzCache.border (last.toNat - 1) =
            (index + 1) * context.hzCache.partition := by
          exact context.hzCache.border_eq index _ (by omega) (by omega)
        rw [final]
        rcases Nat.lt_or_ge ((index + 1) * context.hzCache.partition) (2 ^ 64) with fits | wraps
        · rw [if_pos (Or.inl fits), Function.iterate_succ_apply, turn_aligned holds bounded inside
            ordered _ begun unfinished (border ▸ within) (border ▸ fits) (Nat.mul_mod_left _ _),
            iterate_returned]
        · rw [turn_wrapped holds bounded inside ordered _ begun unfinished (border ▸ wraps)]
          simp only [Nat.not_lt.mpr wraps, false_or]
      · rw [Function.iterate_succ_apply, turn_to_border holds bounded inside ordered _ begun
          unfinished (border ▸ reach), border]
        by_cases done : (index + 1) * context.hzCache.partition = last.toNat
        · have final : context.hzCache.border (last.toNat - 1) = last.toNat := by
            rw [context.hzCache.border_eq index _ (by omega) (by omega), done]
          rw [if_pos done, iterate_returned, final, if_pos (Or.inl last.toNat_lt)]
        · rw [if_neg done]
          exact ih (index + 1) (by omega) (by omega)
            (by rwa [Nat.add_assoc, Nat.add_comm 1])

end Held

section Outcome

variable (context : HazelcastLookupContext) (store : Store) (start last : UInt64)

theorem after_reversed (reversed : last < start) (turns : Nat) :
    after context store start last (turns + 1) = .faulted .illegalRange := by
  have different : ([] : Bytes).length ≠ (last - start).toNat := by
    have bound := start.toNat_lt
    rw [UInt64.lt_iff_toNat_lt] at reversed
    rw [List.length_nil, UInt64.toNat_sub]
    omega
  have empty : ¬ start < last := UInt64.not_lt.mpr (UInt64.le_of_lt reversed)
  rw [after, test, if_neg different, Function.iterate_succ_apply, turn, dif_neg empty,
    iterate_faulted]

theorem after_ordered (body : Bytes) (inside : last.toNat ≤ body.length) (ordered : start ≤ last)
    (turns : Nat) :
    after context store start last turns =
      if start.toNat = last.toNat then .returned (body.extract start.toNat last.toNat)
      else (turn context store start last)^[turns] (upTo body start.toNat start.toNat) := by
  have least := UInt64.le_iff_toNat_le.mp ordered
  have nothing : body.extract start.toNat start.toNat = [] := by
    simp [List.extract]
  have begun : test start last (UInt64.ofNat start.toNat) (body.extract start.toNat start.toNat) = _ :=
    test_extract ordered start.toNat (Nat.le_refl _) (Nat.le_trans least inside)
  rw [nothing, UInt64.ofNat_toNat] at begun
  rw [after, begun]
  split
  · exact iterate_returned _ _
  · rfl

variable {context store start last} {headers : HeaderMapImpl} {body : Bytes}
  (holds : Holds context.hzCache context.hashKey store headers body)
  (bounded : body.length < 2 ^ 64) (inside : last.toNat ≤ body.length) (less : start < last)

include holds bounded inside less

theorem iterate_reaching (reaches : context.hzCache.border start.toNat ≤ last.toNat) :
    (turn context store start last)^[body.length / context.hzCache.partition + 2]
        (upTo body start.toNat start.toNat) =
      if context.hzCache.border (last.toNat - 1) < 2 ^ 64 ∨ last.toNat = body.length then
        .returned (body.extract start.toNat last.toNat)
      else .faulted .illegalRange := by
  have ordered := UInt64.le_of_lt less
  have below := UInt64.lt_iff_toNat_lt.mp less
  have beyond := context.hzCache.lt_border start.toNat
  rw [Function.iterate_succ_apply, turn_to_border holds bounded inside ordered _ (Nat.le_refl _)
    below reaches]
  by_cases done : context.hzCache.border start.toNat = last.toNat
  · have final : context.hzCache.border (last.toNat - 1) = last.toNat := by
      rw [context.hzCache.border_of_between start.toNat _ (by omega) (by omega), done]
    rw [if_pos done, iterate_returned, final, if_pos (Or.inl last.toNat_lt)]
  · rw [if_neg done]
    apply iterate_aligned holds bounded inside ordered _
      (start.toNat / context.hzCache.partition + 1) (Nat.le_of_lt beyond)
    · exact Nat.lt_of_le_of_ne reaches done
    · have covered := length_le_partitions context.hzCache body.length
      calc
        last.toNat ≤ body.length := inside
        _ ≤ (body.length / context.hzCache.partition + 1) * context.hzCache.partition := covered
        _ ≤ (start.toNat / context.hzCache.partition + 1 +
            body.length / context.hzCache.partition) * context.hzCache.partition :=
          Nat.mul_le_mul_right _ (by
            rw [Nat.add_assoc, Nat.add_comm 1]
            exact Nat.le_add_left _ _)

theorem iterate_inside (within : last.toNat < context.hzCache.border start.toNat)
    (turns : Nat) :
    ∃ fault, (turn context store start last)^[turns + 2] (upTo body start.toNat start.toNat) =
      if (start.toNat % context.hzCache.partition = 0 ∨
            2 ^ 64 ≤ context.hzCache.border start.toNat) ∧
          (context.hzCache.border start.toNat < 2 ^ 64 ∨ last.toNat = body.length) then
        .returned (body.extract start.toNat last.toNat)
      else .faulted fault := by
  have ordered := UInt64.le_of_lt less
  have below := UInt64.lt_iff_toNat_lt.mp less
  rcases Nat.lt_or_ge (context.hzCache.border start.toNat) (2 ^ 64) with fits | wraps
  · by_cases aligned : start.toNat % context.hzCache.partition = 0
    · refine ⟨.illegalRange, ?_⟩
      rw [Function.iterate_succ_apply, turn_aligned holds bounded inside ordered _ (Nat.le_refl _)
        below within fits aligned, iterate_returned, if_pos ⟨Or.inl aligned, Or.inl fits⟩]
    · obtain ⟨fault, broken⟩ := turn_broken holds bounded inside ordered _ (Nat.le_refl _) below
        within fits aligned turns
      refine ⟨fault, ?_⟩
      rw [broken, if_neg]
      rintro ⟨first | wraps, _⟩
      · exact aligned first
      · omega
  · refine ⟨.illegalRange, ?_⟩
    have condition : (start.toNat % context.hzCache.partition = 0 ∨
          2 ^ 64 ≤ context.hzCache.border start.toNat) ∧
        (context.hzCache.border start.toNat < 2 ^ 64 ∨ last.toNat = body.length) ↔
          last.toNat = body.length := by
      omega
    simp only [turn_wrapped holds bounded inside ordered _ (Nat.le_refl _) below wraps, condition]

omit less in
theorem after_eq : ∃ fault,
    after context store start last (body.length / context.hzCache.partition + 2) =
      if context.hzCache.ReadsRange body.length start.toNat last.toNat then
        .returned (body.extract start.toNat last.toNat)
      else .faulted fault := by
  by_cases reversed : last < start
  · refine ⟨.illegalRange, ?_⟩
    rw [after_reversed context store start last reversed, if_neg]
    rw [UInt64.lt_iff_toNat_lt] at reversed
    rintro (same | ⟨less, _⟩)
    · omega
    · omega
  have ordered := UInt64.not_lt.mp reversed
  rw [after_ordered context store start last body inside ordered]
  unfold HazelcastHttpCache.ReadsRange
  by_cases same : start.toNat = last.toNat
  · exact ⟨.illegalRange, by simp only [same, if_true, true_or]⟩
  have below : start.toNat < last.toNat :=
    Nat.lt_of_le_of_ne (UInt64.le_iff_toNat_le.mp ordered) same
  have less := UInt64.lt_iff_toNat_lt.mpr below
  simp only [same, below, if_false, false_or, true_and]
  rcases Nat.lt_or_ge last.toNat (context.hzCache.border start.toNat) with within | reaches
  · obtain ⟨fault, outcome⟩ := iterate_inside holds bounded inside less within
      (body.length / context.hzCache.partition)
    refine ⟨fault, ?_⟩
    rw [outcome, context.hzCache.border_of_between start.toNat (last.toNat - 1) (by omega)
      (by omega)]
    simp only [Nat.not_le.mpr within, false_or]
  · refine ⟨.illegalRange, ?_⟩
    rw [iterate_reaching holds bounded inside less reaches]
    simp only [reaches, true_or, or_true, true_and]

end Outcome

end RangeLoop

/-- Reading a range in a loop. Over a completely inserted body, `getBody` calls from `start` to
`last` either come to exactly the bytes of the range or run into a fault, within `n / P + 2`
calls, whatever the two numbers are; and they come to the bytes exactly for the ranges that do
not begin inside the partition they end in. (A partition whose end does not fit in 64 bits has
to be read to the end of the body; a range that ends before it starts is refused by the
constructor of `AdjustedByteRange`.) -/
theorem range_loop_exact_iff (cache : HazelcastHttpCache) (hashKey : UInt64) (store : Store)
    (insert : Insert) (few : insert.body.length / cache.partition + 1 < 2 ^ 31)
    (start last : UInt64) (inside : last.toNat ≤ insert.body.length) :
    ∃ final, insert.run cache hashKey store = .ok final ∧
      let context := ((⟨cache, hashKey, none⟩ : HazelcastLookupContext).getHeaders final).1
      let outcome := RangeLoop.after context final start last
        (insert.body.length / cache.partition + 2)
      (outcome = .returned (insert.body.extract start.toNat last.toNat) ↔
        cache.ReadsRange insert.body.length start.toNat last.toNat) ∧
      (outcome = .returned (insert.body.extract start.toNat last.toNat) ∨
        ∃ fault, outcome = .faulted fault) := by
  obtain ⟨final, ran, holds⟩ := insert.run_holds cache hashKey store few
  refine ⟨final, ran, ?_⟩
  have stored : cache.lookupHeader final hashKey =
      some ⟨some insert.headers, UInt64.ofNat insert.body.length⟩ := holds.header
  simp only [HazelcastLookupContext.getHeaders, stored]
  have all : ∃ fault, RangeLoop.after ⟨cache, hashKey, some (UInt64.ofNat insert.body.length)⟩
      final start last (insert.body.length / cache.partition + 2) =
        if cache.ReadsRange insert.body.length start.toNat last.toNat then
          .returned (insert.body.extract start.toNat last.toNat)
        else .faulted fault :=
    RangeLoop.after_eq holds insert.size_lt inside
  obtain ⟨fault, outcome⟩ := all
  rw [outcome]
  by_cases reads : cache.ReadsRange insert.body.length start.toNat last.toNat
  · simp [reads]
  · simp [reads]

theorem range_loop_exact_across :
    let cache : HazelcastHttpCache := ⟨{ bodyPartitionSize := 4 }⟩
    let insert := Insert.single [] ⟨[10, 11, 12, 13, 14, 15], by decide⟩
    ∃ final, insert.run cache 17 Store.empty = .ok final ∧
      RangeLoop.after ((⟨cache, 17, none⟩ : HazelcastLookupContext).getHeaders final).1 final 1 6
        3 = .returned [11, 12, 13, 14, 15] := by
  intro cache insert
  obtain ⟨final, ran, outcome, _⟩ := range_loop_exact_iff cache 17 Store.empty insert (by decide)
    1 6 (by decide)
  have turns : insert.body.length / cache.partition + 2 = 3 := by decide
  have read := outcome.mpr (by decide)
  rw [turns] at read
  exact ⟨final, ran, read⟩

end HazelcastCache
