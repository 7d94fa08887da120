import HazelcastCache.Entries
import HazelcastCache.Library.Decimal
import HazelcastCache.Library.KeyedMap

/-! The configured cache and the two distributed maps it reads and writes. -/

namespace HazelcastCache

open Library

/-- The fields of the `HazelcastConfig` message that choose the maps and the partition
size, with the defaults of proto3. -/
structure HazelcastConfig where
  bodyPartitionSize : Int64 := 0
  bodyMapName : String := ""
  headerMapName : String := ""
  deriving DecidableEq, Repr

structure HazelcastHttpCache where
  hzConfig : HazelcastConfig
  deriving DecidableEq, Repr

def defaultPartitionSize : UInt64 := 1024

/-- `BODY_PARTITION_SIZE` as the constructor sets it: the conditional converts the
signed setting to the unsigned type of the default. -/
def HazelcastHttpCache.bodySizePerEntry (cache : HazelcastHttpCache) : UInt64 :=
  if cache.hzConfig.bodyPartitionSize = 0 then defaultPartitionSize
  else cache.hzConfig.bodyPartitionSize.toUInt64

def HazelcastHttpCache.partition (cache : HazelcastHttpCache) : Nat :=
  cache.bodySizePerEntry.toNat

theorem HazelcastHttpCache.partition_lt (cache : HazelcastHttpCache) :
    cache.partition < 2 ^ 64 :=
  cache.bodySizePerEntry.toNat_lt

theorem HazelcastHttpCache.partition_pos (cache : HazelcastHttpCache) :
    0 < cache.partition := by
  unfold partition bodySizePerEntry
  split
  · decide
  · rename_i nonzero
    apply Nat.pos_of_ne_zero
    intro zero
    have unsignedZero : cache.hzConfig.bodyPartitionSize.toUInt64 = 0 := UInt64.toNat_inj.mp zero
    exact nonzero (congrArg UInt64.toInt64 unsignedZero)

/-- Below `2^63` the end of a partition fits 64 bits: a size that could carry it further is
larger than every offset, and then the index is zero. -/
theorem HazelcastHttpCache.border_lt (cache : HazelcastHttpCache) (index : Nat)
    (below : index * cache.partition < 2 ^ 63) : (index + 1) * cache.partition < 2 ^ 64 := by
  have width := cache.partition_lt
  have next : (index + 1) * cache.partition = index * cache.partition + cache.partition :=
    Nat.succ_mul _ _
  cases index with
  | zero => omega
  | succ index =>
      have once : cache.partition ≤ (index + 1) * cache.partition :=
        Nat.le_mul_of_pos_left _ (Nat.succ_pos index)
      omega

/-- The entries of the cluster, keyed by map name and key. An `int64_t` key and a
string key never serialize alike, so the two kinds of map stay apart by type. -/
structure Store where
  headerMap : String × Int64 → Option HazelcastHeaderEntry
  bodyMap : String × String → Option HazelcastBodyEntry

def Store.empty : Store := ⟨fun _ => none, fun _ => none⟩

/-- One `IMap::put`. -/
inductive Put where
  | header (key : String × Int64) (entry : HazelcastHeaderEntry)
  | body (key : String × String) (entry : HazelcastBodyEntry)
  deriving DecidableEq, Repr

def Store.apply (store : Store) : Put → Store
  | .header key entry => { store with headerMap := KeyedMap.write store.headerMap (key, entry) }
  | .body key entry => { store with bodyMap := KeyedMap.write store.bodyMap (key, entry) }

def Store.applyAll (store : Store) (puts : List Put) : Store := puts.foldl Store.apply store

def Store.evictHeader (store : Store) (key : String × Int64) : Store :=
  { store with headerMap := KeyedMap.remove store.headerMap key }

def Store.evictBody (store : Store) (key : String × String) : Store :=
  { store with bodyMap := KeyedMap.remove store.bodyMap key }

namespace HazelcastHttpCache

def lookupBody (cache : HazelcastHttpCache) (store : Store) (key : String) :
    Option HazelcastBodyEntry :=
  store.bodyMap (cache.hzConfig.bodyMapName, key)

def lookupHeader (cache : HazelcastHttpCache) (store : Store) (hashKey : UInt64) :
    Option HazelcastHeaderEntry :=
  store.headerMap (cache.hzConfig.headerMapName, hashKey.toInt64)

def insertBody (cache : HazelcastHttpCache) (key : String) (entry : HazelcastBodyEntry) : Put :=
  .body (cache.hzConfig.bodyMapName, key) entry

def insertHeader (cache : HazelcastHttpCache) (hashKey : UInt64)
    (entry : HazelcastHeaderEntry) : Put :=
  .header (cache.hzConfig.headerMapName, hashKey.toInt64) entry

def headerKey (cache : HazelcastHttpCache) (hashKey : UInt64) : String × Int64 :=
  (cache.hzConfig.headerMapName, hashKey.toInt64)

def bodyKey (cache : HazelcastHttpCache) (hashKey : UInt64) (index : Nat) : String × String :=
  (cache.hzConfig.bodyMapName, toString hashKey ++ toString index)

theorem headerKey_injective (cache : HazelcastHttpCache) :
    Function.Injective cache.headerKey := by
  intro first second same
  exact congrArg Int64.toUInt64 (Prod.mk.inj same).2

theorem bodyKey_injective (cache : HazelcastHttpCache) (hashKey : UInt64) :
    Function.Injective (cache.bodyKey hashKey) := by
  intro first second same
  have texts := (String.append_right_inj _).mp (Prod.mk.inj same).2
  exact Decimal.toString_injective texts

end HazelcastHttpCache

/-! The maps after a sequence of puts, one map at a time. -/

def Put.headerRecord : Put → Option ((String × Int64) × HazelcastHeaderEntry)
  | .header key entry => some (key, entry)
  | .body _ _ => none

def Put.bodyRecord : Put → Option ((String × String) × HazelcastBodyEntry)
  | .header _ _ => none
  | .body key entry => some (key, entry)

@[simp] theorem Store.applyAll_nil (store : Store) : store.applyAll [] = store := rfl

@[simp] theorem Store.applyAll_cons (store : Store) (put : Put) (puts : List Put) :
    store.applyAll (put :: puts) = (store.apply put).applyAll puts := rfl

@[simp] theorem Store.applyAll_append (store : Store) (first second : List Put) :
    store.applyAll (first ++ second) = (store.applyAll first).applyAll second := by
  simp [Store.applyAll, List.foldl_append]

theorem Store.headerMap_applyAll (store : Store) (puts : List Put) :
    (store.applyAll puts).headerMap =
      KeyedMap.writeAll store.headerMap (puts.filterMap Put.headerRecord) := by
  induction puts generalizing store with
  | nil => rfl
  | cons put puts ih =>
      rw [Store.applyAll_cons, ih]
      cases put <;> rfl

theorem Store.bodyMap_applyAll (store : Store) (puts : List Put) :
    (store.applyAll puts).bodyMap =
      KeyedMap.writeAll store.bodyMap (puts.filterMap Put.bodyRecord) := by
  induction puts generalizing store with
  | nil => rfl
  | cons put puts ih =>
      rw [Store.applyAll_cons, ih]
      cases put <;> rfl

theorem Store.headerMap_applyAll_of_notMem (store : Store) (puts : List Put)
    (key : String × Int64) (outside : ∀ entry, .header key entry ∉ puts) :
    (store.applyAll puts).headerMap key = store.headerMap key := by
  rw [Store.headerMap_applyAll]
  apply KeyedMap.writeAll_of_forall_ne
  intro written member same
  rcases List.mem_filterMap.mp member with ⟨put, inside, record⟩
  cases put with
  | header other value =>
      cases Option.some.inj record
      cases same
      exact outside value inside
  | body other value => cases record

theorem Store.bodyMap_applyAll_of_notMem (store : Store) (puts : List Put)
    (key : String × String) (outside : ∀ entry, .body key entry ∉ puts) :
    (store.applyAll puts).bodyMap key = store.bodyMap key := by
  rw [Store.bodyMap_applyAll]
  apply KeyedMap.writeAll_of_forall_ne
  intro written member same
  rcases List.mem_filterMap.mp member with ⟨put, inside, record⟩
  cases put with
  | header other value => cases record
  | body other value =>
      cases Option.some.inj record
      cases same
      exact outside value inside

end HazelcastCache
