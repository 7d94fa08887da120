import Mathlib.Data.List.Basic

/-! Runs of a step function over a list of actions, with a rule for invariants. -/

namespace Library.Runs

variable {σ α : Type} (step : σ → α → σ)

def run (state : σ) (actions : List α) : σ := actions.foldl step state

@[simp] theorem run_nil (state : σ) : run step state [] = state := rfl

@[simp] theorem run_cons (state : σ) (action : α) (actions : List α) :
    run step state (action :: actions) = run step (step state action) actions := rfl

theorem run_append (state : σ) (first second : List α) :
    run step state (first ++ second) = run step (run step state first) second := by
  simp [run, List.foldl_append]

theorem exists_split_of_lt_count [DecidableEq α] (action : α) (actions : List α) (count : Nat)
    (enough : count < actions.count action) :
    ∃ before after, actions = before ++ action :: after ∧ before.count action = count := by
  induction actions generalizing count with
  | nil => simp at enough
  | cons head actions ih =>
      by_cases same : head = action
      · subst same
        cases count with
        | zero => exact ⟨[], actions, rfl, rfl⟩
        | succ count =>
            rw [List.count_cons_self] at enough
            rcases ih count (by omega) with ⟨before, after, rfl, counted⟩
            exact ⟨head :: before, after, rfl, by rw [List.count_cons_self, counted]⟩
      · rw [List.count_cons_of_ne same] at enough
        rcases ih count enough with ⟨before, after, rfl, counted⟩
        exact ⟨head :: before, after, rfl, by rw [List.count_cons_of_ne same, counted]⟩

theorem last_split (P : α → Prop) (items : List α) :
    (∀ item ∈ items, ¬ P item) ∨
      ∃ before item after, items = before ++ item :: after ∧ P item ∧
        ∀ later ∈ after, ¬ P later := by
  induction items with
  | nil => exact Or.inl (fun item member => absurd member List.not_mem_nil)
  | cons head items ih =>
      rcases ih with none | ⟨before, item, after, rfl, holds, later⟩
      · by_cases first : P head
        · exact Or.inr ⟨[], head, items, rfl, first, none⟩
        · left
          intro item member
          rcases List.mem_cons.mp member with rfl | member
          · exact first
          · exact none item member
      · exact Or.inr ⟨head :: before, item, after, rfl, holds, later⟩

variable (Inv : σ → Prop)

theorem run_invariant (state : σ) (actions : List α) (initially : Inv state)
    (preserved : ∀ action ∈ actions, ∀ current, Inv current → Inv (step current action)) :
    Inv (run step state actions) := by
  induction actions generalizing state with
  | nil => exact initially
  | cons action actions ih =>
      rw [run_cons]
      apply ih
      · exact preserved action List.mem_cons_self state initially
      · intro next member
        exact preserved next (List.mem_cons_of_mem _ member)

/-- Two systems run side by side. What relates their states at the start and is kept by every
action of the run relates them at the end. -/
theorem run_related {τ : Type} (other : τ → α → τ) (Related : σ → τ → Prop) (state : σ) (twin : τ)
    (actions : List α) (initially : Related state twin)
    (preserved : ∀ action ∈ actions, ∀ current shadow, Related current shadow →
      Related (step current action) (other shadow action)) :
    Related (run step state actions) (run other twin actions) := by
  induction actions generalizing state twin with
  | nil => exact initially
  | cons action actions ih =>
      rw [run_cons, run_cons]
      apply ih
      · exact preserved action List.mem_cons_self state twin initially
      · intro next member
        exact preserved next (List.mem_cons_of_mem _ member)

/-- A run beside the run of some of its actions, those that bear the mark. What relates their
states at the start, is kept when both take an action and when only the first does, relates
them at the end. -/
theorem run_marked_related (Related : σ → σ → Prop) (state twin : σ) (marked : List (α × Bool))
    (initially : Related state twin)
    (both : ∀ action, (action, true) ∈ marked → ∀ current shadow, Related current shadow →
      Related (step current action) (step shadow action))
    (alone : ∀ action, (action, false) ∈ marked → ∀ current shadow, Related current shadow →
      Related (step current action) shadow) :
    Related (run step state (marked.map Prod.fst))
      (run step twin ((marked.filter Prod.snd).map Prod.fst)) := by
  induction marked generalizing state twin with
  | nil => exact initially
  | cons entry marked ih =>
      have later := fun current shadow related => ih current shadow related
        (fun next member => both next (List.mem_cons_of_mem _ member))
        (fun next member => alone next (List.mem_cons_of_mem _ member))
      obtain ⟨action, kept⟩ := entry
      cases kept with
      | true => exact later _ _ (both action List.mem_cons_self state twin initially)
      | false => exact later _ _ (alone action List.mem_cons_self state twin initially)

def partialRun (attempt : σ → α → Option σ) (state : σ) (actions : List α) : Option σ :=
  actions.foldlM attempt state

theorem partialRun_invariant (attempt : σ → α → Option σ) (state final : σ) (actions : List α)
    (initially : Inv state)
    (preserved : ∀ current action next, Inv current → attempt current action = some next →
      Inv next)
    (reached : partialRun attempt state actions = some final) : Inv final := by
  induction actions generalizing state with
  | nil =>
      obtain rfl := Option.some.inj reached
      exact initially
  | cons action actions ih =>
      rw [partialRun, List.foldlM_cons] at reached
      obtain ⟨next, stepped, rest⟩ := Option.bind_eq_some_iff.mp reached
      exact ih next (preserved state action next initially stepped) rest

end Library.Runs
