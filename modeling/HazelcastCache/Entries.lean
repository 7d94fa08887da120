import Mathlib.Algebra.Group.Nat.Defs
import Mathlib.Data.List.Basic

/-! The values that the cache moves between the filter and the distributed maps. -/

namespace HazelcastCache

abbrev Bytes := List UInt8

structure HeaderField where
  key : Bytes
  value : Bytes
  deriving DecidableEq, Repr

abbrev HeaderMapImpl := List HeaderField

/-- The value type of the header map. `headerMapPtr` is a `unique_ptr`; `none` is null. -/
structure HazelcastHeaderEntry where
  headerMapPtr : Option HeaderMapImpl
  totalBodySize : UInt64
  deriving DecidableEq, Repr

structure HazelcastBodyEntry where
  bodyBuffer : Bytes
  deriving DecidableEq, Repr

/-- `Buffer::Instance`. Its `length()` is a `uint64_t`, so no buffer holds `2^64` bytes. -/
structure Buffer where
  bytes : Bytes
  length_lt : bytes.length < 2 ^ 64
  deriving DecidableEq, Repr

def Buffer.length (buffer : Buffer) : UInt64 := UInt64.ofNat buffer.bytes.length

@[simp] theorem Buffer.toNat_length (buffer : Buffer) :
    buffer.length.toNat = buffer.bytes.length :=
  UInt64.toNat_ofNat_of_lt' buffer.length_lt

@[ext] theorem Buffer.ext {left right : Buffer} (same : left.bytes = right.bytes) :
    left = right := by
  cases left
  cases right
  cases same
  rfl

/-- `AdjustedByteRange`: from `first` up to but not including `last`. The constructor
rejects an empty range. -/
structure AdjustedByteRange where
  first : UInt64
  last : UInt64
  first_lt_last : first < last
  deriving DecidableEq, Repr

/-- What the C++ program runs into where it has no defined result. -/
inductive Fault where
  | outOfBounds
  | endlessLoop
  | illegalRange
  | nullDereference
  deriving DecidableEq, Repr

end HazelcastCache
