import Mathlib.Data.List.Basic

/-! A cache of items that are kept in segments, each of which can get lost on its own.

This is what such a cache is for, without any keys, sizes or maps: a question is answered with
the item stored last, with the segments of it that come before the first lost one, or not at
all. -/

namespace Library.SegmentedCache

variable {K M S : Type}

structure Item (M S : Type) where
  info : M
  segments : List S
  lost : Nat → Bool

/-- How many segments come before the first lost one. -/
def Item.intact (item : Item M S) : Nat :=
  (List.range item.segments.length).findIdx item.lost

inductive Answer (M S : Type) where
  | absent
  | whole (info : M) (segments : List S)
  | cut (info : M) (front : List S)
  deriving DecidableEq, Repr

def Item.answer (item : Item M S) : Answer M S :=
  if item.intact = item.segments.length then .whole item.info item.segments
  else .cut item.info (item.segments.take item.intact)

abbrev Cache (K M S : Type) := K → Option (Item M S)

def Cache.answer (cache : Cache K M S) (key : K) : Answer M S :=
  match cache key with
  | none => .absent
  | some item => item.answer

inductive Event (K M S : Type) where
  | store (key : K) (info : M) (segments : List S)
  | drop (key : K)
  | lose (key : K) (index : Nat)
  | clear
  | ask (key : K)

def Cache.step [DecidableEq K] (cache : Cache K M S) : Event K M S → Cache K M S
  | .store key info segments => Function.update cache key (some ⟨info, segments, fun _ => false⟩)
  | .drop key => Function.update cache key none
  | .lose key index => Function.update cache key ((cache key).map fun item =>
      { item with lost := Function.update item.lost index true })
  | .clear => fun _ => none
  | .ask _ => cache

def Cache.answers [DecidableEq K] (cache : Cache K M S) : List (Event K M S) → List (Answer M S)
  | [] => []
  | .ask key :: events => cache.answer key :: cache.answers events
  | event :: events => (cache.step event).answers events

theorem Item.intact_le (item : Item M S) : item.intact ≤ item.segments.length := by
  have bound : item.intact ≤ (List.range item.segments.length).length := List.findIdx_le_length
  rwa [List.length_range] at bound

theorem Item.lost_of_lt_intact (item : Item M S) (index : Nat) (before : index < item.intact) :
    item.lost index = false := by
  simpa using List.not_of_lt_findIdx before

theorem Item.lost_intact (item : Item M S) (cut : item.intact < item.segments.length) :
    item.lost item.intact = true := by
  have found : item.intact < (List.range item.segments.length).length := by
    rwa [List.length_range]
  have lost : item.lost ((List.range item.segments.length).get ⟨item.intact, found⟩) = true :=
    List.findIdx_getElem
  rwa [List.get_eq_getElem, List.getElem_range] at lost

end Library.SegmentedCache
