import HazelcastCache.Cache
import HazelcastCache.Library.Runs

/-! What the clients of a cluster can do to its maps, one atomic operation at a time. -/

namespace HazelcastCache

open Library

/-- `IMap::clear`. The map of that name loses all its entries, whatever the type of their
keys. -/
def Store.clear (store : Store) (name : String) : Store where
  headerMap key := if key.1 = name then none else store.headerMap key
  bodyMap key := if key.1 = name then none else store.bodyMap key

inductive MapOperation where
  | put (put : Put)
  | evictHeader (key : String × Int64)
  | evictBody (key : String × String)
  | clear (name : String)
  deriving DecidableEq, Repr

def Store.perform (store : Store) : MapOperation → Store
  | .put put => store.apply put
  | .evictHeader key => store.evictHeader key
  | .evictBody key => store.evictBody key
  | .clear name => store.clear name

inductive Removal where
  | header (key : String × Int64)
  | body (key : String × String)
  | clear (name : String)
  deriving DecidableEq, Repr

def Removal.operation : Removal → MapOperation
  | .header key => .evictHeader key
  | .body key => .evictBody key
  | .clear name => .clear name

def Removal.HitsHeader (key : String × Int64) : Removal → Prop
  | .header removed => removed = key
  | .body _ => False
  | .clear name => key.1 = name

def Removal.HitsBody (key : String × String) : Removal → Prop
  | .header _ => False
  | .body removed => removed = key
  | .clear name => key.1 = name

theorem Store.headerMap_remove (store : Store) (removal : Removal) (key : String × Int64) :
    (store.perform removal.operation).headerMap key = store.headerMap key ∨
      removal.HitsHeader key ∧ (store.perform removal.operation).headerMap key = none := by
  cases removal with
  | header removed =>
      by_cases same : removed = key
      · subst same
        exact Or.inr ⟨rfl, KeyedMap.remove_self store.headerMap removed⟩
      · exact Or.inl (KeyedMap.remove_of_ne store.headerMap removed key same)
  | body removed => exact Or.inl rfl
  | clear name =>
      by_cases same : key.1 = name
      · exact Or.inr ⟨same, if_pos same⟩
      · exact Or.inl (if_neg same)

theorem Store.bodyMap_remove (store : Store) (removal : Removal) (key : String × String) :
    (store.perform removal.operation).bodyMap key = store.bodyMap key ∨
      removal.HitsBody key ∧ (store.perform removal.operation).bodyMap key = none := by
  cases removal with
  | header removed => exact Or.inl rfl
  | body removed =>
      by_cases same : removed = key
      · subst same
        exact Or.inr ⟨rfl, KeyedMap.remove_self store.bodyMap removed⟩
      · exact Or.inl (KeyedMap.remove_of_ne store.bodyMap removed key same)
  | clear name =>
      by_cases same : key.1 = name
      · exact Or.inr ⟨same, if_pos same⟩
      · exact Or.inl (if_neg same)

/-- The two operations of `clearMaps`, the body map first. -/
def HazelcastHttpCache.clearMaps (cache : HazelcastHttpCache) : List MapOperation :=
  [.clear cache.hzConfig.bodyMapName, .clear cache.hzConfig.headerMapName]

end HazelcastCache
