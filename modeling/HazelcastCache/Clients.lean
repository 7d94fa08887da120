import HazelcastCache.Factory

/-! The Hazelcast clients of a process, objects with an identity of their own.

A cache holds its client by a `unique_ptr`, which frees what it points to when it is assigned
to or destroyed. `disconnect` shuts the client down and then calls `release`, which gives up the
pointer and frees nothing. -/

namespace HazelcastCache

open Library

structure Client where
  config : ClientConfig
  running : Bool
  freed : Bool
  deriving DecidableEq, Repr

structure CacheCell where
  config : FilterConfig
  hz : Option Nat
  alive : Bool
  deriving DecidableEq, Repr

/-- All clients and caches that were ever made, and the `cache_` of the factory. -/
structure Process where
  clients : List Client
  caches : List CacheCell
  slot : Option Nat
  deriving DecidableEq, Repr

namespace Process

def initial : Process := ⟨[], [], none⟩

variable (process : Process)

def hz (address : Nat) : Option Nat := (process.caches[address]?).bind CacheCell.hz

def alive (address : Nat) : Bool := (process.caches[address]?).any CacheCell.alive

/-- What the `unique_ptr` does to the client it points to. -/
def free (pointer : Option Nat) : Process :=
  match pointer with
  | none => process
  | some client =>
      { process with
        clients := process.clients.modify client (fun object =>
          { object with running := false, freed := true }) }

def make (config : FilterConfig) : Process :=
  { process with caches := process.caches ++ [⟨config, none, true⟩] }

def disconnect (address : Nat) : Process :=
  match process.hz address with
  | none => process
  | some client =>
      { process with
        clients := process.clients.modify client (fun object => { object with running := false })
        caches := process.caches.modify address (fun cell => { cell with hz := none }) }

/-- `reachable` says whether the constructor of the client returns. If it throws there is no
client. The assignment to `hz` frees what it held. -/
def connect (address : Nat) (reachable : Bool) : Process :=
  match process.caches[address]? with
  | none => process
  | some cell =>
      if cell.hz = none ∧ reachable = true then
        let assigned := process.free cell.hz
        { assigned with
          clients := assigned.clients ++ [⟨cell.config.client, true, false⟩]
          caches := assigned.caches.modify address (fun cell =>
            { cell with hz := some assigned.clients.length }) }
      else process

/-- The destructor disconnects; after it the destructor of `hz` frees what that still holds. -/
def destroy (address : Nat) : Process :=
  let disconnected := process.disconnect address
  let freed := disconnected.free (disconnected.hz address)
  { freed with
    caches := freed.caches.modify address (fun cell => { cell with alive := false }) }

/-- The assignment to `cache_`: the new cache is in the slot before the old one is
destroyed. -/
def assign (config : FilterConfig) : Process :=
  let assigned := { process.make config with slot := some process.caches.length }
  match process.slot with
  | none => assigned
  | some old => assigned.destroy old

/-- `getCache`, and the address of the cache that it returns a reference to. -/
def getCache (call : GetCache) : Process × Except GetCacheError Nat :=
  match call.typedConfig with
  | none => (process, .error .unpack)
  | some config =>
      ((process.assign config).connect process.caches.length call.reachable,
        if call.reachable then .ok process.caches.length else .error .connect)

end Process

inductive ProcessCall where
  | getCache (call : GetCache)
  | make (config : FilterConfig)
  | connect (address : Nat) (reachable : Bool)
  | disconnect (address : Nat)
  | destroy (address : Nat)
  deriving DecidableEq, Repr

namespace Process

/-- There is no next state if the reference dangles, or if the cache to be destroyed is the
factory's. -/
def step (process : Process) : ProcessCall → Option Process
  | .getCache call => some (process.getCache call).1
  | .make config => some (process.make config)
  | .connect address reachable =>
      if process.alive address then some (process.connect address reachable) else none
  | .disconnect address =>
      if process.alive address then some (process.disconnect address) else none
  | .destroy address =>
      if process.alive address ∧ process.slot ≠ some address then some (process.destroy address)
      else none

abbrev run (process : Process) (calls : List ProcessCall) : Option Process :=
  Runs.partialRun step process calls

/-- Who owns the clients. A cache that points to a client is alive, and the client runs with
the settings of that cache; no two caches share one; and every running client has its cache.
None has been freed. -/
structure Owned (process : Process) : Prop where
  owner : ∀ address client, process.hz address = some client →
    ∃ cell, process.caches[address]? = some cell ∧ cell.alive = true ∧
      process.clients[client]? = some ⟨cell.config.client, true, false⟩
  unique : ∀ first second client, process.hz first = some client →
    process.hz second = some client → first = second
  running : ∀ client object, process.clients[client]? = some object → object.running = true →
    ∃ address, process.hz address = some client
  slot : ∀ address, process.slot = some address → process.alive address = true
  kept : ∀ (client : Nat) (object : Client), process.clients[client]? = some object →
    object.freed = false

/-- The clients stay where they are, and what was shut down stays so. -/
def Grows (before after : Process) : Prop :=
  ∀ (client : Nat) (object : Client), before.clients[client]? = some object →
    ∃ later : Client, after.clients[client]? = some later ∧ later.config = object.config ∧
      later.freed = object.freed ∧ (later.running = true → object.running = true)

section Effects

variable (process : Process) (address other : Nat)

theorem alive_iff : process.alive address = true ↔
    ∃ cell, process.caches[address]? = some cell ∧ cell.alive = true := by
  rw [alive, Option.any_eq_true]

theorem hz_disconnect :
    (process.disconnect address).hz other = if other = address then none else process.hz other := by
  unfold disconnect
  cases found : process.hz address with
  | none =>
      by_cases same : other = address
      · rw [if_pos same, same]
        exact found
      · rw [if_neg same]
  | some client =>
      simp only [hz, List.getElem?_modify]
      cases process.caches[other]? with
      | none => simp
      | some cell =>
          by_cases same : other = address
          · simp [same]
          · simp [same, Ne.symm same]

theorem clients_disconnect (client : Nat) :
    (process.disconnect address).clients[client]? =
      (process.clients[client]?).map (fun object =>
        if process.hz address = some client then { object with running := false } else object) := by
  unfold disconnect
  cases found : process.hz address with
  | none => simp
  | some owned => simp [List.getElem?_modify]

theorem caches_disconnect_of_ne (different : other ≠ address) :
    (process.disconnect address).caches[other]? = process.caches[other]? := by
  unfold disconnect
  split
  · rfl
  · simp [Ne.symm different]

theorem alive_pointed (clients : List Client) (slot pointer : Option Nat) :
    (Process.mk clients (process.caches.modify address (fun cell =>
        { cell with hz := pointer })) slot).alive other = process.alive other := by
  simp only [alive, List.getElem?_modify]
  cases process.caches[other]? with
  | none => rfl
  | some cell =>
      by_cases same : address = other
      · simp [same]
      · simp [same]

theorem alive_disconnect : (process.disconnect address).alive other = process.alive other := by
  unfold disconnect
  split
  · rfl
  · exact process.alive_pointed address other _ _ none

theorem slot_disconnect : (process.disconnect address).slot = process.slot := by
  unfold disconnect
  split <;> rfl

/-- `release` has left the destructor of `hz` nothing to free. -/
theorem destroy_eq : process.destroy address = { process.disconnect address with
    caches := (process.disconnect address).caches.modify address (fun cell =>
      { cell with alive := false }) } := by
  have released : (process.disconnect address).hz address = none := by
    rw [hz_disconnect, if_pos rfl]
  simp only [destroy, released, free]

theorem hz_destroy :
    (process.destroy address).hz other = if other = address then none else process.hz other := by
  rw [← hz_disconnect, destroy_eq]
  simp only [hz, List.getElem?_modify]
  cases (process.disconnect address).caches[other]? with
  | none => rfl
  | some cell =>
      by_cases same : address = other
      · simp [same]
      · simp [same]

theorem caches_destroy_of_ne (different : other ≠ address) :
    (process.destroy address).caches[other]? = process.caches[other]? := by
  rw [← process.caches_disconnect_of_ne address other different, destroy_eq]
  simp [Ne.symm different]

theorem hz_make (config : FilterConfig) : (process.make config).hz other = process.hz other := by
  simp only [hz, make, List.getElem?_append]
  split
  · rfl
  · rename_i beyond
    rw [List.getElem?_eq_none (Nat.not_lt.mp beyond), List.getElem?_singleton]
    split <;> rfl

theorem caches_make_of_lt (config : FilterConfig) (inside : other < process.caches.length) :
    (process.make config).caches[other]? = process.caches[other]? :=
  List.getElem?_append_left inside

theorem connect_cases (reachable : Bool) :
    process.connect address reachable = process ∨
    ∃ cell, process.caches[address]? = some cell ∧ cell.hz = none ∧ reachable = true ∧
      process.connect address reachable = ⟨process.clients ++ [⟨cell.config.client, true, false⟩],
        process.caches.modify address (fun cell =>
          { cell with hz := some process.clients.length }), process.slot⟩ := by
  unfold connect
  cases found : process.caches[address]? with
  | none => exact Or.inl rfl
  | some cell =>
      by_cases free : cell.hz = none ∧ reachable = true
      · exact Or.inr ⟨cell, rfl, free.1, free.2, by simp [free, Process.free]⟩
      · left
        simp only [if_neg free]

theorem hz_connected (cell : CacheCell) (here : process.caches[address]? = some cell)
    (clients : List Client) (slot : Option Nat) (client : Nat) :
    (Process.mk clients (process.caches.modify address (fun cell =>
        { cell with hz := some client })) slot).hz other =
      if other = address then some client else process.hz other := by
  by_cases own : other = address
  · subst own
    simp [hz, here]
  · simp [hz, own, Ne.symm own]

theorem step_cases (call : ProcessCall) (next : Process) (stepped : process.step call = some next) :
    (∃ call, next = (process.getCache call).1) ∨
    (∃ config, next = process.make config) ∨
    (∃ address reachable, process.alive address = true ∧
      next = process.connect address reachable) ∨
    (∃ address, process.alive address = true ∧ next = process.disconnect address) ∨
    (∃ address, process.alive address = true ∧ process.slot ≠ some address ∧
      next = process.destroy address) := by
  cases call with
  | getCache call => exact Or.inl ⟨call, (Option.some.inj stepped).symm⟩
  | make config => exact Or.inr (Or.inl ⟨config, (Option.some.inj stepped).symm⟩)
  | connect address reachable =>
      simp only [Process.step, Option.ite_none_right_eq_some] at stepped
      obtain ⟨lives, same⟩ := stepped
      exact Or.inr (Or.inr (Or.inl ⟨address, reachable, lives, (Option.some.inj same).symm⟩))
  | disconnect address =>
      simp only [Process.step, Option.ite_none_right_eq_some] at stepped
      obtain ⟨lives, same⟩ := stepped
      exact Or.inr (Or.inr (Or.inr (Or.inl ⟨address, lives, (Option.some.inj same).symm⟩)))
  | destroy address =>
      simp only [Process.step, Option.ite_none_right_eq_some] at stepped
      obtain ⟨⟨lives, other⟩, same⟩ := stepped
      exact Or.inr (Or.inr (Or.inr (Or.inr ⟨address, lives, other, (Option.some.inj same).symm⟩)))

end Effects

/-! Every call keeps the clients owned. -/

section Owned

variable {process : Process} (owned : process.Owned)

include owned

theorem Owned.disconnect (address : Nat) : (process.disconnect address).Owned := by
  constructor
  · intro other client pointed
    rw [hz_disconnect] at pointed
    split at pointed
    · cases pointed
    · rename_i different
      obtain ⟨cell, here, alive, runs⟩ := owned.owner other client pointed
      refine ⟨cell, ?_, alive, ?_⟩
      · rw [caches_disconnect_of_ne _ _ _ different, here]
      · have kept : process.hz address ≠ some client :=
          fun shared => different (owned.unique other address client pointed shared)
        rw [clients_disconnect, runs, Option.map_some, if_neg kept]
  · intro first second client one two
    rw [hz_disconnect] at one two
    split at one
    · cases one
    · split at two
      · cases two
      · exact owned.unique first second client one two
  · intro client object here runs
    rw [clients_disconnect] at here
    obtain ⟨before, present, rfl⟩ := Option.map_eq_some_iff.mp here
    by_cases stopped : process.hz address = some client
    · rw [if_pos stopped] at runs
      cases runs
    · rw [if_neg stopped] at runs
      obtain ⟨other, pointed⟩ := owned.running client before present runs
      refine ⟨other, ?_⟩
      rw [hz_disconnect, if_neg, pointed]
      rintro rfl
      exact stopped pointed
  · intro other slot
    rw [alive_disconnect]
    exact owned.slot other (by rwa [slot_disconnect] at slot)
  · intro client object here
    rw [clients_disconnect] at here
    obtain ⟨before, present, rfl⟩ := Option.map_eq_some_iff.mp here
    have unfreed := owned.kept client before present
    split
    · exact unfreed
    · exact unfreed

theorem Owned.destroy (address : Nat) (other : process.slot ≠ some address) :
    (process.destroy address).Owned := by
  have disconnected := owned.disconnect address
  have same : ∀ current, (process.destroy address).hz current =
      (process.disconnect address).hz current := by
    intro current
    rw [hz_destroy, hz_disconnect]
  have clients : (process.destroy address).clients = (process.disconnect address).clients := by
    rw [destroy_eq]
  constructor
  · intro current client pointed
    rw [same] at pointed
    obtain ⟨cell, here, alive, runs⟩ := disconnected.owner current client pointed
    have different : current ≠ address := by
      rintro rfl
      rw [hz_disconnect, if_pos rfl] at pointed
      cases pointed
    refine ⟨cell, ?_, alive, clients ▸ runs⟩
    rw [caches_destroy_of_ne _ _ _ different, ← caches_disconnect_of_ne _ _ _ different, here]
  · intro first second client one two
    rw [same] at one two
    exact disconnected.unique first second client one two
  · intro client object here runs
    obtain ⟨current, pointed⟩ := disconnected.running client object (clients ▸ here) runs
    exact ⟨current, (same current).trans pointed⟩
  · intro current slot
    rw [destroy_eq] at slot
    change (process.disconnect address).slot = some current at slot
    rw [slot_disconnect] at slot
    have different : current ≠ address := fun equal => other (equal ▸ slot)
    rw [alive, caches_destroy_of_ne _ _ _ different]
    exact owned.slot current slot
  · intro client object here
    exact disconnected.kept client object (clients ▸ here)

theorem Owned.make (config : FilterConfig) : (process.make config).Owned := by
  have inside : ∀ (address : Nat) (cell : CacheCell), process.caches[address]? = some cell →
      (process.make config).caches[address]? = some cell := by
    intro address cell here
    rw [caches_make_of_lt _ _ _ (List.getElem?_eq_some_iff.mp here).1, here]
  constructor
  · intro address client pointed
    rw [hz_make] at pointed
    obtain ⟨cell, here, alive, runs⟩ := owned.owner address client pointed
    exact ⟨cell, inside address cell here, alive, runs⟩
  · intro first second client one two
    rw [hz_make] at one two
    exact owned.unique first second client one two
  · intro client object here runs
    obtain ⟨address, pointed⟩ := owned.running client object here runs
    exact ⟨address, by rw [hz_make, pointed]⟩
  · intro address slot
    obtain ⟨cell, here, alive⟩ := (process.alive_iff address).mp (owned.slot address slot)
    exact (alive_iff _ address).mpr ⟨cell, inside address cell here, alive⟩
  · exact owned.kept

theorem Owned.lt_clients {address client : Nat} (pointed : process.hz address = some client) :
    client < process.clients.length := by
  obtain ⟨_, _, _, runs⟩ := owned.owner address client pointed
  exact (List.getElem?_eq_some_iff.mp runs).1

theorem Owned.connect (address : Nat) (reachable : Bool) (lives : process.alive address = true) :
    (process.connect address reachable).Owned := by
  rcases process.connect_cases address reachable with
    same | ⟨cell, here, free, _, next⟩
  · rw [same]
    exact owned
  rw [next]
  have pointers := fun other => process.hz_connected address other cell here
    (process.clients ++ [⟨cell.config.client, true, false⟩]) process.slot process.clients.length
  constructor
  · intro other client pointed
    rw [pointers] at pointed
    by_cases own : other = address
    · subst own
      rw [if_pos rfl] at pointed
      obtain rfl := Option.some.inj pointed
      obtain ⟨same, found, alive⟩ := (process.alive_iff other).mp lives
      rw [here] at found
      obtain rfl := Option.some.inj found
      refine ⟨{ cell with hz := some process.clients.length }, ?_, alive, ?_⟩
      · simp [here]
      · simp
    · rw [if_neg own] at pointed
      obtain ⟨found, there, alive, runs⟩ := owned.owner other client pointed
      refine ⟨found, ?_, alive, ?_⟩
      · simpa [Ne.symm own] using there
      · rw [List.getElem?_append_left (owned.lt_clients pointed), runs]
  · intro first second client one two
    rw [pointers] at one two
    split at one
    · split at two
      · simp [*]
      · have := owned.lt_clients two
        cases one
        omega
    · split at two
      · have := owned.lt_clients one
        cases two
        omega
      · exact owned.unique first second client one two
  · intro client object present runs
    rcases Nat.lt_or_ge client process.clients.length with before | new
    · rw [List.getElem?_append_left before] at present
      obtain ⟨other, pointed⟩ := owned.running client object present runs
      refine ⟨other, ?_⟩
      rw [pointers, if_neg, pointed]
      rintro rfl
      rw [hz, here, Option.bind_some, free] at pointed
      cases pointed
    · refine ⟨address, ?_⟩
      have bound := (List.getElem?_eq_some_iff.mp present).1
      rw [List.length_append, List.length_singleton] at bound
      rw [pointers, if_pos rfl]
      exact congrArg some (by omega)
  · intro other slot
    rw [alive_pointed]
    exact owned.slot other slot
  · intro client object present
    rcases Nat.lt_or_ge client process.clients.length with before | new
    · rw [List.getElem?_append_left before] at present
      exact owned.kept client object present
    · rw [List.getElem?_append_right new, List.getElem?_singleton] at present
      split at present
      · exact (Option.some.inj present) ▸ rfl
      · cases present

theorem Owned.lt_caches {address : Nat} (slot : process.slot = some address) :
    address < process.caches.length := by
  obtain ⟨cell, here, _⟩ := (process.alive_iff address).mp (owned.slot address slot)
  exact (List.getElem?_eq_some_iff.mp here).1

theorem Owned.assign (config : FilterConfig) :
    (process.assign config).Owned ∧
      (process.assign config).caches[process.caches.length]? = some ⟨config, none, true⟩ := by
  have made := owned.make config
  have new : { process.make config with slot := some process.caches.length }.caches[
      process.caches.length]? = some ⟨config, none, true⟩ := List.getElem?_concat_length
  have assigned : { process.make config with slot := some process.caches.length }.Owned := by
    refine ⟨made.owner, made.unique, made.running, ?_, made.kept⟩
    intro address slot
    obtain rfl := Option.some.inj slot
    exact (alive_iff _ _).mpr ⟨_, new, rfl⟩
  unfold Process.assign
  split
  · exact ⟨assigned, new⟩
  · rename_i old slot
    have different : process.caches.length ≠ old := Nat.ne_of_gt (owned.lt_caches slot)
    refine ⟨assigned.destroy old (fun same => different (Option.some.inj same)), ?_⟩
    rw [caches_destroy_of_ne _ _ _ different]
    exact new

theorem Owned.getCache (call : GetCache) : (process.getCache call).1.Owned := by
  unfold Process.getCache
  split
  · exact owned
  · rename_i config _
    obtain ⟨assigned, new⟩ := owned.assign config
    exact assigned.connect _ call.reachable ((alive_iff _ _).mpr ⟨_, new, rfl⟩)

theorem Owned.step (call : ProcessCall) (next : Process) (stepped : process.step call = some next) :
    next.Owned := by
  rcases process.step_cases call next stepped with
    ⟨call, rfl⟩ | ⟨config, rfl⟩ | ⟨address, reachable, lives, rfl⟩ | ⟨address, _, rfl⟩ |
      ⟨address, _, other, rfl⟩
  · exact owned.getCache call
  · exact owned.make config
  · exact owned.connect address reachable lives
  · exact owned.disconnect address
  · exact owned.destroy address other

end Owned

/-! The clients over time. -/

section Grows

theorem Grows.refl (process : Process) : process.Grows process :=
  fun _ object here => ⟨object, here, rfl, rfl, id⟩

theorem Grows.trans {first second third : Process} (early : first.Grows second)
    (late : second.Grows third) : first.Grows third := by
  intro client object here
  obtain ⟨middle, there, sameConfig, sameFreed, stays⟩ := early client object here
  obtain ⟨later, found, laterConfig, laterFreed, staysLater⟩ := late client middle there
  exact ⟨later, found, laterConfig.trans sameConfig, laterFreed.trans sameFreed,
    fun runs => stays (staysLater runs)⟩

variable (process : Process)

theorem grows_disconnect (address : Nat) : process.Grows (process.disconnect address) := by
  intro client object here
  refine ⟨_, by rw [clients_disconnect, here]; rfl, ?_, ?_, ?_⟩
  · split <;> rfl
  · split <;> rfl
  · split
    · exact fun runs => Bool.noConfusion runs
    · exact id

theorem grows_connect (address : Nat) (reachable : Bool) :
    process.Grows (process.connect address reachable) := by
  rcases process.connect_cases address reachable with same | ⟨cell, _, _, _, next⟩
  · rw [same]
    exact .refl process
  · intro client object here
    rw [next]
    exact ⟨object, by rw [List.getElem?_append_left (List.getElem?_eq_some_iff.mp here).1, here],
      rfl, rfl, id⟩

theorem grows_destroy (address : Nat) : process.Grows (process.destroy address) := by
  rw [destroy_eq]
  exact process.grows_disconnect address

theorem grows_assign (config : FilterConfig) : process.Grows (process.assign config) := by
  unfold assign
  split
  · exact Grows.refl process
  · exact grows_destroy { process.make config with slot := some process.caches.length } _

theorem grows_getCache (call : GetCache) : process.Grows (process.getCache call).1 := by
  unfold getCache
  split
  · exact .refl process
  · exact (process.grows_assign _).trans (grows_connect _ _ _)

theorem grows_step (call : ProcessCall) (next : Process) (stepped : process.step call = some next) :
    process.Grows next := by
  rcases process.step_cases call next stepped with
    ⟨call, rfl⟩ | ⟨config, rfl⟩ | ⟨address, reachable, _, rfl⟩ | ⟨address, _, rfl⟩ |
      ⟨address, _, _, rfl⟩
  · exact process.grows_getCache call
  · exact .refl process
  · exact process.grows_connect address reachable
  · exact process.grows_disconnect address
  · exact process.grows_destroy address

end Grows

theorem owned_initial : initial.Owned where
  owner address client pointed := by simp [hz, initial] at pointed
  unique first second client pointed := by simp [hz, initial] at pointed
  running client object here := by simp [initial] at here
  slot address slot := by cases slot
  kept client object here := by simp [initial] at here

end Process

/-- Clients are owned and never freed. In every run of the process in which no call goes
through a dangling reference: a connected cache is alive, its client runs with that cache's
settings and belongs to no other cache, every client that runs has its cache, and no client has
been freed; at every later moment every client ever made is still in its place, and runs only if
it has always run. So a client that was shut down is out of reach and still in memory. -/
theorem clients_owned_never_freed (calls later : List ProcessCall) (process final : Process)
    (reached : Process.initial.run calls = some process)
    (ended : process.run later = some final) :
    process.Owned ∧ process.Grows final ∧ final.Owned := by
  have owned := Runs.partialRun_invariant Process.Owned Process.step Process.initial process calls
    Process.owned_initial (fun current call next owned stepped => owned.step call next stepped)
    reached
  refine ⟨owned, ?_, ?_⟩
  · exact Runs.partialRun_invariant process.Grows Process.step process final later (.refl process)
      (fun current call next grown stepped => grown.trans (current.grows_step call next stepped))
      ended
  · exact Runs.partialRun_invariant Process.Owned Process.step process final later owned
      (fun current call next owned stepped => owned.step call next stepped) ended

theorem clients_owned_never_freed_reconnected :
    let calls : List ProcessCall := [.getCache ⟨some {}, true⟩]
    let later : List ProcessCall := [.disconnect 0, .connect 0 true, .getCache ⟨some {}, true⟩]
    ∃ process final, Process.initial.run calls = some process ∧ process.run later = some final ∧
      (process.Owned ∧ process.Grows final ∧ final.Owned) ∧
      final.clients = [⟨{}, false, false⟩, ⟨{}, false, false⟩, ⟨{}, true, false⟩] := by
  intro calls later
  refine ⟨⟨[⟨{}, true, false⟩], [⟨{}, some 0, true⟩], some 0⟩, _, by decide, rfl, ?_, by decide⟩
  exact clients_owned_never_freed calls later _ _ (by decide) rfl

end HazelcastCache
