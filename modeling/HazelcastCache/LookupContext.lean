import HazelcastCache.Cache
import HazelcastCache.Library.Segments

/-! `HazelcastLookupContext`: the reads that serve one request. -/

namespace HazelcastCache

open Library

/-- `totalBodySize` has no value until `getHeaders` has found an entry. -/
structure HazelcastLookupContext where
  hzCache : HazelcastHttpCache
  hashKey : UInt64
  totalBodySize : Option UInt64
  deriving DecidableEq, Repr

/-- `stableHashKey` is the filter's; a request enters only through its key. -/
def HazelcastHttpCache.makeLookupContext {Key : Type} (stableHashKey : Key → UInt64)
    (cache : HazelcastHttpCache) (request : Key) : HazelcastLookupContext :=
  ⟨cache, stableHashKey request, none⟩

/-- The arguments of `makeLookupResult`, or `none` for the default `LookupResult`. -/
abbrev LookupResult := Option (Option HeaderMapImpl × UInt64)

def copyBytes (source : Bytes) (start size : UInt64) : Except Fault Bytes :=
  if start.toNat + size.toNat ≤ source.length then
    .ok (source.extract start.toNat (start.toNat + size.toNat))
  else .error .outOfBounds

namespace HazelcastLookupContext

def bodyPartitionSize (context : HazelcastLookupContext) : UInt64 :=
  context.hzCache.bodySizePerEntry

def getHeaders (context : HazelcastLookupContext) (store : Store) :
    HazelcastLookupContext × LookupResult :=
  match context.hzCache.lookupHeader store context.hashKey with
  | some entry =>
      ({ context with totalBodySize := some entry.totalBodySize },
        some (entry.headerMapPtr, entry.totalBodySize))
  | none => (context, none)

/-- The callback's argument: a buffer, or `none` for the null pointer that aborts the
lookup. The `ASSERT` on `range.end()` is compiled out of a release build. -/
def getBody (context : HazelcastLookupContext) (store : Store) (range : AdjustedByteRange) :
    Except Fault (Option Bytes) :=
  let bodyIndex := range.first / context.bodyPartitionSize
  match context.hzCache.lookupBody store (toString context.hashKey ++ toString bodyIndex) with
  | some body =>
      let start := range.first % context.bodyPartitionSize
      if range.last < (bodyIndex + 1) * context.bodyPartitionSize then
        -- One partition satisfies the range.
        (copyBytes body.bodyBuffer start (range.last % context.bodyPartitionSize)).map some
      else
        -- The next partition is needed too: all bytes up to the end of this one.
        (copyBytes body.bodyBuffer start
          (UInt64.ofNat body.bodyBuffer.length - start)).map some
  | none => .ok none

section Specification

variable (context : HazelcastLookupContext) (store : Store) (range : AdjustedByteRange)

@[simp] theorem toNat_bodyPartitionSize :
    context.bodyPartitionSize.toNat = context.hzCache.partition := rfl

theorem getHeaders_result :
    (context.getHeaders store).2 =
      (store.headerMap (context.hzCache.headerKey context.hashKey)).map
        (fun entry => (entry.headerMapPtr, entry.totalBodySize)) := by
  unfold getHeaders
  change _ = Option.map _ (context.hzCache.lookupHeader store context.hashKey)
  cases context.hzCache.lookupHeader store context.hashKey <;> rfl

def bodyKeyOf : String × String :=
  context.hzCache.bodyKey context.hashKey
    (range.first.toNat / context.hzCache.partition)

theorem lookupBody_bodyKeyOf :
    context.hzCache.lookupBody store (toString context.hashKey ++
      toString (range.first / context.bodyPartitionSize)) =
      store.bodyMap (context.bodyKeyOf range) := by
  have index : toString (range.first / context.bodyPartitionSize) =
      toString (range.first.toNat / context.hzCache.partition) := by
    change toString (range.first / context.bodyPartitionSize).toNat = _
    rw [UInt64.toNat_div, toNat_bodyPartitionSize]
  rw [index]
  rfl

theorem getBody_missing (missing : store.bodyMap (context.bodyKeyOf range) = none) :
    context.getBody store range = .ok none := by
  simp only [getBody, lookupBody_bodyKeyOf, missing]

theorem getBody_congr (other : Store)
    (same : store.bodyMap (context.bodyKeyOf range) = other.bodyMap (context.bodyKeyOf range)) :
    context.getBody store range = context.getBody other range := by
  simp only [getBody, lookupBody_bodyKeyOf, same]

theorem getBody_eq_abort_iff :
    context.getBody store range = .ok none ↔ store.bodyMap (context.bodyKeyOf range) = none := by
  constructor
  · intro aborted
    cases found : store.bodyMap (context.bodyKeyOf range) with
    | none => rfl
    | some body =>
        simp only [getBody, lookupBody_bodyKeyOf, found, copyBytes] at aborted
        split at aborted <;> split at aborted <;> cases aborted
  · exact context.getBody_missing store range

/-- Where the partition of the range's first byte ends, over unbounded integers. -/
def partitionEnd : Nat :=
  (range.first.toNat / context.hzCache.partition + 1) * context.hzCache.partition

theorem partitionEnd_le : context.partitionEnd range ≤
    range.first.toNat + context.hzCache.partition := by
  rw [partitionEnd, Nat.succ_mul]
  exact Nat.add_le_add_right (Nat.div_mul_le_self _ _) _

theorem toNat_partitionEnd :
    ((range.first / context.bodyPartitionSize + 1) * context.bodyPartitionSize).toNat =
      context.partitionEnd range % 2 ^ 64 := by
  have below : range.first.toNat < range.last.toNat :=
    UInt64.lt_iff_toNat_lt.mp range.first_lt_last
  have quotient := Nat.div_le_self range.first.toNat context.hzCache.partition
  have bounded := range.last.toNat_lt
  have next : (range.first / context.bodyPartitionSize + 1).toNat =
      range.first.toNat / context.hzCache.partition + 1 := by
    rw [UInt64.toNat_add, UInt64.toNat_div, toNat_bodyPartitionSize]
    exact Nat.mod_eq_of_lt (Nat.lt_of_le_of_lt (Nat.succ_le_succ quotient) (by omega))
  rw [UInt64.toNat_mul, next, partitionEnd, toNat_bodyPartitionSize]

/-- The comparison that picks the branch of `getBody`. When the product wraps around it
falls to or below the first byte, so the code takes its second branch. -/
theorem last_lt_partitionEnd_iff :
    range.last < (range.first / context.bodyPartitionSize + 1) * context.bodyPartitionSize ↔
      range.last.toNat < context.partitionEnd range ∧ context.partitionEnd range < 2 ^ 64 := by
  rw [UInt64.lt_iff_toNat_lt, toNat_partitionEnd]
  have below : range.first.toNat < range.last.toNat :=
    UInt64.lt_iff_toNat_lt.mp range.first_lt_last
  have size := context.hzCache.partition_lt
  have reach := context.partitionEnd_le range
  have bounded := range.last.toNat_lt
  by_cases wraps : context.partitionEnd range < 2 ^ 64
  · rw [Nat.mod_eq_of_lt wraps]
    exact (and_iff_left wraps).symm
  · rw [Nat.mod_eq_sub_mod (by omega), Nat.mod_eq_of_lt (by omega)]
    omega

/-- Whatever is delivered is a stretch of the stored partition from the range's first byte. -/
theorem getBody_stretch (body : HazelcastBodyEntry) (bytes : Bytes)
    (found : store.bodyMap (context.bodyKeyOf range) = some body)
    (delivered : context.getBody store range = .ok (some bytes)) :
    ∃ size, bytes =
      (body.bodyBuffer.drop (range.first.toNat % context.hzCache.partition)).take size := by
  simp only [getBody, lookupBody_bodyKeyOf, found, copyBytes, List.extract, UInt64.toNat_mod,
    toNat_bodyPartitionSize] at delivered
  split at delivered <;> split at delivered <;> cases delivered <;> exact ⟨_, rfl⟩

/-- The one thing that can go wrong is a copy that leaves the partition. -/
theorem getBody_error (fault : Fault) (failed : context.getBody store range = .error fault) :
    fault = .outOfBounds := by
  simp only [getBody, copyBytes] at failed
  split at failed
  · split at failed <;> split at failed <;> cases failed <;> rfl
  · cases failed

section Found

variable (body : HazelcastBodyEntry)
  (found : store.bodyMap (context.bodyKeyOf range) = some body)

include found

theorem getBody_within (within : range.last.toNat < context.partitionEnd range)
    (exact_product : context.partitionEnd range < 2 ^ 64) :
    context.getBody store range =
      let start := range.first.toNat % context.hzCache.partition
      let size := range.last.toNat % context.hzCache.partition
      if start + size ≤ body.bodyBuffer.length then
        .ok (some (body.bodyBuffer.extract start (start + size)))
      else .error .outOfBounds := by
  have branch := (context.last_lt_partitionEnd_iff range).mpr ⟨within, exact_product⟩
  simp only [getBody, lookupBody_bodyKeyOf, found, branch, if_true, copyBytes, UInt64.toNat_mod,
    toNat_bodyPartitionSize]
  split <;> rfl

theorem getBody_beyond (bounded : body.bodyBuffer.length < 2 ^ 64)
    (beyond : context.partitionEnd range ≤ range.last.toNat ∨
      2 ^ 64 ≤ context.partitionEnd range) :
    context.getBody store range =
      let start := range.first.toNat % context.hzCache.partition
      if start ≤ body.bodyBuffer.length then .ok (some (body.bodyBuffer.drop start))
      else .error .outOfBounds := by
  have branch : ¬ range.last <
      (range.first / context.bodyPartitionSize + 1) * context.bodyPartitionSize := by
    rw [last_lt_partitionEnd_iff]
    omega
  have total : (UInt64.ofNat body.bodyBuffer.length).toNat = body.bodyBuffer.length :=
    UInt64.toNat_ofNat_of_lt' bounded
  simp only [getBody, lookupBody_bodyKeyOf, found, branch, if_false, copyBytes]
  by_cases inside : range.first.toNat % context.hzCache.partition ≤ body.bodyBuffer.length
  · have ordered : range.first % context.bodyPartitionSize ≤
        UInt64.ofNat body.bodyBuffer.length := by
      rw [UInt64.le_iff_toNat_le, UInt64.toNat_mod, total, toNat_bodyPartitionSize]
      exact inside
    rw [UInt64.toNat_sub_of_le _ _ ordered, UInt64.toNat_mod, total, toNat_bodyPartitionSize,
      Nat.add_sub_cancel' inside, if_pos (Nat.le_refl _), if_pos inside]
    simp [Except.map, List.extract, List.take_of_length_le]
  · -- The unsigned length wraps around to nearly `2^64`.
    have wrapped : ¬ (range.first % context.bodyPartitionSize).toNat +
        (UInt64.ofNat body.bodyBuffer.length - range.first % context.bodyPartitionSize).toNat ≤
          body.bodyBuffer.length := by
      rw [UInt64.toNat_mod, toNat_bodyPartitionSize]
      omega
    rw [if_neg wrapped, if_neg inside]
    rfl

end Found

end Specification

end HazelcastLookupContext

end HazelcastCache
