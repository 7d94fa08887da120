import Mathlib.Data.List.Basic

/-! Fixed-width blocks of a list: what one block holds, and how blocks tile a list. -/

namespace Library.Segments

variable {α : Type}

/-- Block `index` of `items` cut every `width` positions; the last one may be short or empty. -/
def block (width index : Nat) (items : List α) : List α :=
  items.extract (index * width) ((index + 1) * width)

theorem block_eq_take_drop (width index : Nat) (items : List α) :
    block width index items = (items.drop (index * width)).take width := by
  have hwidth : (index + 1) * width - index * width = width := by
    rw [Nat.succ_mul, Nat.add_sub_cancel_left]
  simp [block, List.extract, hwidth]

theorem block_length (width index : Nat) (items : List α) :
    (block width index items).length = min width (items.length - index * width) := by
  simp [block_eq_take_drop]

theorem block_length_full (width index : Nat) (items : List α)
    (hfull : (index + 1) * width ≤ items.length) : (block width index items).length = width := by
  rw [block_length, Nat.min_eq_left]
  rw [Nat.succ_mul] at hfull
  omega

theorem block_append (width index : Nat) (front back : List α)
    (hfull : (index + 1) * width ≤ front.length) :
    block width index (front ++ back) = block width index front := by
  rw [Nat.succ_mul] at hfull
  rw [block_eq_take_drop, block_eq_take_drop, List.drop_append_of_le_length (by omega),
    List.take_append_of_le_length (by simp only [List.length_drop]; omega)]

theorem block_eq_drop (width index : Nat) (items : List α)
    (hshort : items.length ≤ (index + 1) * width) :
    block width index items = items.drop (index * width) := by
  rw [Nat.succ_mul] at hshort
  rw [block_eq_take_drop, List.take_of_length_le]
  simp only [List.length_drop]
  omega

theorem block_eq_extract_min (width index : Nat) (items : List α) :
    items.extract (index * width) (min ((index + 1) * width) items.length) =
      block width index items := by
  rcases Nat.le_total ((index + 1) * width) items.length with hle | hle
  · rw [Nat.min_eq_left hle, block]
  · rw [Nat.min_eq_right hle, block_eq_drop width index items hle, List.extract,
      List.take_of_length_le (by simp)]

theorem extract_append_extract (items : List α) {first middle last : Nat}
    (before : first ≤ middle) (after : middle ≤ last) :
    items.extract first middle ++ items.extract middle last = items.extract first last := by
  have split : last - first = (middle - first) + (last - middle) := by omega
  have rest : first + (middle - first) = middle := by omega
  simp only [List.extract]
  rw [split, List.take_add, List.drop_drop, rest]

theorem length_extract (items : List α) (first last : Nat) (inside : last ≤ items.length) :
    (items.extract first last).length = last - first := by
  simp only [List.extract, List.length_take, List.length_drop]
  omega

theorem take_append_block (width index : Nat) (items : List α) :
    items.take (index * width) ++ block width index items =
      items.take ((index + 1) * width) := by
  rw [block_eq_take_drop, Nat.succ_mul, List.take_add]

theorem flatMap_block (width count : Nat) (items : List α) :
    (List.range count).flatMap (fun index => block width index items) =
      items.take (count * width) := by
  induction count with
  | zero => simp
  | succ count ih => simp [List.range_succ, ih, take_append_block]

theorem block_drop (width index first : Nat) (items : List α)
    (hlow : index * width ≤ first) :
    (block width index items).drop (first - index * width) =
      items.extract first (min ((index + 1) * width) items.length) := by
  rw [← block_eq_extract_min]
  simp only [List.extract, List.drop_take, List.drop_drop]
  congr 1
  · omega
  · congr 1
    omega

theorem take_drop_block (width first size : Nat) (items : List α) :
    ((block width (first / width) items).drop (first % width)).take size =
      (items.drop first).take (min size (width - first % width)) := by
  calc
    ((block width (first / width) items).drop (first % width)).take size =
        (((items.drop (first / width * width)).take width).drop (first % width)).take size := by
      rw [block_eq_take_drop]
    _ = ((items.drop first).take (width - first % width)).take size := by
      rw [List.drop_take, List.drop_drop, Nat.div_add_mod']
    _ = (items.drop first).take (min size (width - first % width)) := List.take_take

theorem getElem?_block (width index start : Nat) (items : List α) :
    (block width index items)[start]? =
      if start < width then items[index * width + start]? else none := by
  rw [block_eq_take_drop, List.getElem?_take, List.getElem?_drop]

theorem head_of_stretch (start size : Nat) (items : List α) (head : α) (rest : List α)
    (stretch : head :: rest = (items.drop start).take size) : items[start]? = some head := by
  have first := congrArg (fun list => list[0]?) stretch
  simp only [List.getElem?_cons_zero, List.getElem?_take, List.getElem?_drop,
    Nat.add_zero] at first
  split at first
  · exact first.symm
  · cases first

/-! How many full blocks a list has as items are appended to it. -/

theorem length_append_filled (width : Nat) (front back : List α)
    (fills : front.length % width + back.length = width) :
    (front ++ back).length = (front.length / width + 1) * width := by
  have split := Nat.div_add_mod' front.length width
  rw [List.length_append, Nat.succ_mul]
  omega

theorem length_append_short (width : Nat) (front back : List α)
    (short : front.length % width + back.length < width) :
    (front ++ back).length / width = front.length / width ∧
      (front ++ back).length % width = front.length % width + back.length := by
  have positive : 0 < width := by omega
  have split := Nat.div_add_mod' front.length width
  have total : (front ++ back).length =
      front.length % width + back.length + width * (front.length / width) := by
    rw [List.length_append, Nat.mul_comm width]
    omega
  constructor
  · rw [total, Nat.add_mul_div_left _ _ positive, Nat.div_eq_of_lt short, Nat.zero_add]
  · rw [total, Nat.add_mul_mod_self_left, Nat.mod_eq_of_lt short]

theorem ceil_eq (width size : Nat) (positive : 0 < width) :
    (size + width - 1) / width = size / width + if width ∣ size then 0 else 1 := by
  have split := Nat.div_add_mod size width
  have small := Nat.mod_lt size positive
  have carry : size + width - 1 = width * (size / width) + (size % width + width - 1) := by omega
  rw [carry, Nat.mul_add_div positive]
  congr 1
  by_cases whole : width ∣ size
  · rw [if_pos whole, Nat.mod_eq_zero_of_dvd whole]
    exact Nat.div_eq_of_lt (by omega)
  · have left := Nat.pos_of_ne_zero (fun zero => whole (Nat.dvd_of_mod_eq_zero zero))
    rw [if_neg whole]
    exact Nat.div_eq_of_lt_le (by omega) (by omega)

theorem block_eq_nil_iff (width index : Nat) (items : List α) (positive : 0 < width) :
    block width index items = [] ↔ items.length ≤ index * width := by
  rw [← List.length_eq_zero_iff, block_length]
  omega

theorem block_ne_nil (width index : Nat) (items : List α) (broken : ¬ width ∣ items.length)
    (positive : 0 < width) (bound : index ≤ items.length / width) :
    block width index items ≠ [] := by
  intro empty
  have covered := (block_eq_nil_iff width index items positive).mp empty
  have floor : index * width ≤ items.length / width * width := Nat.mul_le_mul_right _ bound
  have whole : items.length / width * width = items.length :=
    Nat.le_antisymm (Nat.div_mul_le_self _ _) (Nat.le_trans covered floor)
  exact broken ⟨_, whole.symm.trans (Nat.mul_comm _ _)⟩

def blocks (width : Nat) (items : List α) : List (List α) :=
  (List.range ((items.length + width - 1) / width)).map (fun index => block width index items)

theorem lt_length_blocks_iff (width index : Nat) (items : List α) (positive : 0 < width) :
    index < (blocks width items).length ↔ index * width < items.length := by
  rw [blocks, List.length_map, List.length_range, Nat.lt_iff_add_one_le,
    Nat.le_div_iff_mul_le positive, Nat.succ_mul]
  omega

theorem flatten_take_blocks (width count : Nat) (items : List α)
    (inside : count ≤ (blocks width items).length) :
    ((blocks width items).take count).flatten = items.take (count * width) := by
  rw [blocks, List.length_map, List.length_range] at inside
  rw [blocks, ← List.map_take, List.take_range, Nat.min_eq_left inside, ← flatMap_block,
    List.flatMap]

theorem length_le_blocks (width : Nat) (items : List α) (positive : 0 < width) :
    items.length ≤ (blocks width items).length * width := by
  have beyond := lt_length_blocks_iff width (blocks width items).length items positive
  omega

theorem flatten_blocks (width : Nat) (items : List α) (positive : 0 < width) :
    (blocks width items).flatten = items := by
  have all := flatten_take_blocks width _ items (Nat.le_refl _)
  rwa [List.take_length, List.take_of_length_le (length_le_blocks width items positive)] at all

/-! A list with its front overwritten. -/

/-- The first `count` positions of `items` overwritten from `front`. -/
def overlay (count : Nat) (front items : List α) : List α :=
  front.take (min count items.length) ++ items.drop count

theorem overlay_eq_self_iff (count : Nat) (front items : List α) :
    overlay count front items = items ↔ front.take (min count items.length) = items.take count := by
  have split := List.take_append_drop count items
  constructor
  · intro same
    exact List.append_cancel_right (same.trans split.symm)
  · intro same
    rw [overlay, same, split]

theorem length_overlay (count : Nat) (front items : List α)
    (covered : min count items.length ≤ front.length) :
    (overlay count front items).length = items.length := by
  rw [overlay, List.length_append, List.length_take, List.length_drop]
  omega

theorem drop_overlay (count position : Nat) (front items : List α)
    (covered : min count items.length ≤ front.length) (beyond : count ≤ position) :
    (overlay count front items).drop position = items.drop position := by
  have filled : (front.take (min count items.length)).length = min count items.length :=
    List.length_take_of_le covered
  rw [overlay, List.drop_append, List.drop_of_length_le (by omega), List.nil_append, filled,
    List.drop_drop]
  rcases Nat.le_total count items.length with inside | outside
  · rw [Nat.min_eq_left inside, Nat.add_sub_cancel' beyond]
  · rw [List.drop_of_length_le (by omega), List.drop_of_length_le (by omega)]

theorem take_drop_overlay (count position size : Nat) (front items : List α)
    (covered : min count items.length ≤ front.length) (inside : position + size ≤ count)
    (short : position + size ≤ items.length) :
    ((overlay count front items).drop position).take size = (front.drop position).take size := by
  have filled : (front.take (min count items.length)).length = min count items.length :=
    List.length_take_of_le covered
  rw [overlay, List.drop_append_of_le_length (by omega),
    List.take_append_of_le_length (by rw [List.length_drop]; omega), List.drop_take, List.take_take,
    Nat.min_eq_left (by omega)]

end Library.Segments
