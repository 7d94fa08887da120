import Mathlib.Logic.Function.Basic

/-! Maps from keys to optional values under a log of writes. -/

namespace Library.KeyedMap

variable {K V : Type} [DecidableEq K]

def write (entries : K → Option V) (record : K × V) : K → Option V :=
  Function.update entries record.1 (some record.2)

def remove (entries : K → Option V) (key : K) : K → Option V :=
  Function.update entries key none

def writeAll (entries : K → Option V) (log : List (K × V)) : K → Option V :=
  log.foldl write entries

@[simp] theorem writeAll_nil (entries : K → Option V) : writeAll entries [] = entries := rfl

@[simp] theorem writeAll_cons (entries : K → Option V) (record : K × V) (log : List (K × V)) :
    writeAll entries (record :: log) = writeAll (write entries record) log := rfl

@[simp] theorem write_self (entries : K → Option V) (record : K × V) :
    write entries record record.1 = some record.2 := by
  simp [write]

theorem write_of_ne (entries : K → Option V) (record : K × V) (key : K)
    (other : record.1 ≠ key) : write entries record key = entries key := by
  simp [write, Function.update_of_ne (Ne.symm other)]

@[simp] theorem remove_self (entries : K → Option V) (key : K) :
    remove entries key key = none := by
  simp [remove]

theorem remove_of_ne (entries : K → Option V) (removed key : K) (other : removed ≠ key) :
    remove entries removed key = entries key := by
  simp [remove, Function.update_of_ne (Ne.symm other)]

theorem writeAll_of_forall_ne (entries : K → Option V) (log : List (K × V)) (key : K)
    (outside : ∀ record ∈ log, record.1 ≠ key) : writeAll entries log key = entries key := by
  induction log generalizing entries with
  | nil => rfl
  | cons record log ih =>
      rw [writeAll_cons, ih _ (fun next member => outside next (List.mem_cons_of_mem _ member))]
      exact write_of_ne entries record key (outside record List.mem_cons_self)

/-- What holds of every value the log writes to a key holds of the value it is left with. -/
theorem writeAll_satisfies (entries : K → Option V) (log : List (K × V)) (key : K)
    (Good : V → Prop) (good : ∀ record ∈ log, record.1 = key → Good record.2)
    (present : (∃ value, entries key = some value ∧ Good value) ∨
      ∃ record ∈ log, record.1 = key) :
    ∃ value, writeAll entries log key = some value ∧ Good value := by
  induction log generalizing entries with
  | nil =>
      rcases present with here | ⟨record, member, _⟩
      · exact here
      · cases member
  | cons record log ih =>
      rw [writeAll_cons]
      apply ih _ (fun next member => good next (List.mem_cons_of_mem _ member))
      by_cases same : record.1 = key
      · left
        exact ⟨record.2, by rw [← same, write_self], good record List.mem_cons_self same⟩
      · rcases present with here | ⟨next, member, hkey⟩
        · left
          rwa [write_of_ne entries record key same]
        · right
          rcases List.mem_cons.mp member with rfl | member
          · exact absurd hkey same
          · exact ⟨next, member, hkey⟩

theorem writeAll_of_agree (entries : K → Option V) (log : List (K × V)) (key : K) (value : V)
    (agree : ∀ record ∈ log, record.1 = key → record.2 = value)
    (present : ∃ record ∈ log, record.1 = key) : writeAll entries log key = some value := by
  rcases writeAll_satisfies entries log key (· = value) agree (Or.inr present) with ⟨_, found, rfl⟩
  exact found

end Library.KeyedMap
