import HazelcastCache.Clients

/-! The factory and the clients it makes: the process without other callers, against the
factory with one slot. -/

namespace HazelcastCache

open Library

namespace Process

variable (process : Process)

def object (cell : CacheCell) : CacheObject :=
  ⟨cell.config, cell.hz.bind (fun client => (process.clients[client]?).map Client.config),
    cell.alive⟩

/-- The process without the identity of its clients. -/
def erase : HazelcastHttpCacheFactory := ⟨process.caches.map process.object, process.slot⟩

theorem length_erase : process.erase.objects.length = process.caches.length := by
  simp [erase]

theorem config_disconnect (address client : Nat) :
    ((process.disconnect address).clients[client]?).map Client.config =
      (process.clients[client]?).map Client.config := by
  rw [clients_disconnect, Option.map_map]
  congr 1
  funext object
  dsimp only [Function.comp_apply]
  split <;> rfl

theorem caches_destroy_self (address : Nat) :
    (process.destroy address).caches[address]? =
      (process.caches[address]?).map (fun cell => ⟨cell.config, none, false⟩) := by
  rw [destroy_eq]
  unfold disconnect
  cases here : process.caches[address]? with
  | none =>
      have pointed : process.hz address = none := by simp [hz, here]
      simp [pointed, here]
  | some cell =>
      cases owned : cell.hz with
      | none =>
          have pointed : process.hz address = none := by simp [hz, here, owned]
          simp [pointed, here, owned]
      | some client =>
          have pointed : process.hz address = some client := by simp [hz, here, owned]
          simp [pointed, here]

theorem erase_destroy (address : Nat) :
    (process.destroy address).erase =
      ⟨process.erase.objects.modify address CacheObject.destroy, process.slot⟩ := by
  have objects : (process.destroy address).object = process.object := by
    funext cell
    rw [destroy_eq]
    simp only [object, config_disconnect]
  have slot : (process.destroy address).slot = process.slot := by
    rw [destroy_eq]
    exact process.slot_disconnect address
  unfold erase
  rw [slot, objects]
  congr 1
  apply List.ext_getElem?
  intro other
  rw [List.getElem?_map, List.getElem?_modify, List.getElem?_map]
  by_cases same : other = address
  · subst same
    rw [caches_destroy_self]
    cases process.caches[other]? with
    | none => rfl
    | some cell => simp [object, CacheObject.destroy, CacheObject.disconnect]
  · rw [caches_destroy_of_ne _ _ _ same]
    simp [Ne.symm same]

theorem erase_connect (owned : process.Owned) (address : Nat) (reachable : Bool)
    (cell : CacheCell) (here : process.caches[address]? = some cell) (free : cell.hz = none) :
    (process.connect address reachable).erase =
      if reachable then
        ⟨process.erase.objects.set address ⟨cell.config, some cell.config.client, cell.alive⟩,
          process.slot⟩
      else process.erase := by
  have inside := (List.getElem?_eq_some_iff.mp here).1
  cases reachable with
  | false => simp [connect, here]
  | true =>
      simp only [connect, here, free, Process.free, and_self, if_true, erase]
      congr 1
      apply List.ext_getElem?
      intro other
      rw [List.getElem?_map, List.getElem?_modify, List.getElem?_set, List.length_map,
        List.getElem?_map]
      by_cases same : address = other
      · subst same
        rw [here]
        simp [inside, object]
      · simp only [if_neg same]
        cases there : process.caches[other]? with
        | none => rfl
        | some found =>
            simp only [Option.map_some, Option.map_eq_map, object]
            cases pointed : found.hz with
            | none => rfl
            | some client =>
                have mine : process.hz other = some client := by simp [hz, there, pointed]
                have old := owned.lt_clients mine
                simp [List.getElem?_append_left old]

theorem modify_append_singleton {α : Type} (items : List α) (item : α) (index : Nat)
    (change : α → α) (inside : index < items.length) :
    (items ++ [item]).modify index change = items.modify index change ++ [item] := by
  apply List.ext_getElem?
  intro position
  rw [List.getElem?_modify, List.getElem?_append, List.getElem?_append, List.length_modify,
    List.getElem?_modify]
  by_cases before : position < items.length
  · simp [before]
  · have different : index ≠ position := by omega
    simp [before, different]

theorem slot_assign (config : FilterConfig) :
    (process.assign config).slot = some process.caches.length := by
  unfold assign
  split
  · rfl
  · rw [destroy_eq]
    exact slot_disconnect _ _

theorem erase_assign (owned : process.Owned) (config : FilterConfig) :
    (process.assign config).erase = process.erase.assign (.make config) := by
  have assigned : { process.make config with slot := some process.caches.length }.erase =
      ⟨process.erase.objects ++ [.make config], some process.caches.length⟩ := by
    simp [erase, make, object, CacheObject.make]
  unfold assign HazelcastHttpCacheFactory.assign
  cases slot : process.slot with
  | none =>
      have empty : process.erase.cache = none := slot
      simp only [empty, length_erase]
      exact assigned
  | some old =>
      have taken : process.erase.cache = some old := slot
      have inside : old < process.erase.objects.length := by
        rw [length_erase]
        exact owned.lt_caches slot
      simp only [taken, erase_destroy, assigned, length_erase,
        modify_append_singleton _ _ _ _ inside]

theorem erase_getCache (owned : process.Owned) (call : GetCache) :
    ((process.getCache call).1.erase, (process.getCache call).2) =
      process.erase.getCache call := by
  cases unpacked : call.typedConfig with
  | none => simp only [getCache, HazelcastHttpCacheFactory.getCache, unpacked]
  | some config =>
      obtain ⟨assigned, new⟩ := owned.assign config
      simp only [getCache, HazelcastHttpCacheFactory.getCache, unpacked]
      rw [erase_connect _ assigned _ _ _ new rfl, slot_assign, erase_assign _ owned, length_erase]
      cases call.reachable with
      | false => rfl
      | true =>
          simp only [CacheObject.connect, CacheObject.make, if_true,
            HazelcastHttpCacheFactory.assign, length_erase]

theorem length_clients_assign (config : FilterConfig) :
    (process.assign config).clients.length = process.clients.length := by
  unfold assign
  split
  · rfl
  · simp only [destroy_eq, disconnect]
    split
    · rfl
    · exact List.length_modify _ _ _

theorem length_clients_getCache (owned : process.Owned) (call : GetCache) :
    (process.getCache call).1.clients.length =
      process.clients.length + if call.typedConfig.isSome ∧ call.reachable then 1 else 0 := by
  unfold getCache
  cases unpacked : call.typedConfig with
  | none => simp
  | some config =>
      obtain ⟨_, new⟩ := owned.assign config
      simp only [connect, new, free, Option.isSome_some, true_and]
      cases call.reachable with
      | false => simp [length_clients_assign]
      | true => simp [length_clients_assign]

theorem length_clients_run (owned : process.Owned) (calls : List GetCache) :
    (Runs.run (fun process call => (getCache process call).1) process calls).clients.length =
      process.clients.length +
        calls.countP (fun call => call.typedConfig.isSome ∧ call.reachable) := by
  induction calls generalizing process with
  | nil => rfl
  | cons call calls ih =>
      rw [Runs.run_cons, ih _ (owned.getCache call), length_clients_getCache _ owned,
        List.countP_cons]
      simp only [decide_eq_true_eq]
      omega

/-- Nobody but the factory's cache has a client. -/
def OnlySlot : Prop := ∀ address client, process.hz address = some client →
  process.slot = some address

variable {process}

theorem OnlySlot.hz_assign (only : process.OnlySlot) (config : FilterConfig) (address : Nat) :
    (process.assign config).hz address = none := by
  have unconnected : ∀ other, process.slot ≠ some other → process.hz other = none := by
    intro other free
    cases pointed : process.hz other with
    | none => rfl
    | some client => exact absurd (only other client pointed) free
  unfold assign
  split
  · rename_i empty
    exact (hz_make process address config).trans (unconnected address (by rw [empty]; simp))
  · rename_i old taken
    rw [hz_destroy]
    split
    · rfl
    · rename_i different
      refine (hz_make process address config).trans (unconnected address ?_)
      rw [taken]
      exact fun same => different (Option.some.inj same).symm

theorem OnlySlot.getCache (only : process.OnlySlot) (call : GetCache) :
    (process.getCache call).1.OnlySlot := by
  unfold Process.getCache
  split
  · exact only
  · rename_i config _
    intro address client pointed
    rcases (process.assign config).connect_cases process.caches.length call.reachable with
      same | ⟨cell, here, _, _, next⟩
    · rw [same, only.hz_assign] at pointed
      cases pointed
    · rw [next, hz_connected _ _ _ cell here] at pointed
      rw [next]
      split at pointed
      · rename_i own
        exact own ▸ process.slot_assign config
      · rw [only.hz_assign] at pointed
        cases pointed

end Process

/-- The clients of the factory. However often it is asked for a cache: seen without the
identity of the clients it is the factory with one slot; it has made as many clients as calls
have returned a cache, none of which has been freed; and at most one of them runs, the one of
the cache in the slot. -/
theorem factory_runs_one_client (calls : List GetCache) :
    let process := Runs.run (fun process call => (Process.getCache process call).1)
      Process.initial calls
    process.erase = HazelcastHttpCacheFactory.initial.run calls ∧
      process.clients.length =
        calls.countP (fun call => call.typedConfig.isSome ∧ call.reachable) ∧
      (∀ client ∈ process.clients, client.freed = false) ∧
      ∀ (first : Nat) (client : Client), process.clients[first]? = some client →
        client.running = true →
        (∃ address, process.slot = some address ∧ process.hz address = some first) ∧
        ∀ (second : Nat) (other : Client), process.clients[second]? = some other →
          other.running = true → first = second := by
  intro process
  have related : (process.Owned ∧ process.OnlySlot) ∧
      process.erase = HazelcastHttpCacheFactory.initial.run calls := by
    apply Runs.run_related _ _ (fun (process : Process) factory =>
      (process.Owned ∧ process.OnlySlot) ∧ process.erase = factory)
    · exact ⟨⟨Process.owned_initial, fun address client pointed => by
        simp [Process.hz, Process.initial] at pointed⟩, rfl⟩
    · rintro call _ current shadow ⟨⟨owned, only⟩, rfl⟩
      have same := current.erase_getCache owned call
      exact ⟨⟨owned.getCache call, only.getCache call⟩, congrArg Prod.fst same⟩
  obtain ⟨⟨owned, only⟩, same⟩ := related
  refine ⟨same, ?_, ?_, ?_⟩
  · exact (Process.initial.length_clients_run Process.owned_initial calls).trans (Nat.zero_add _)
  · intro client member
    obtain ⟨address, here⟩ := List.mem_iff_getElem?.mp member
    exact owned.kept address client here
  · intro first client here runs
    obtain ⟨address, pointed⟩ := owned.running first client here runs
    refine ⟨⟨address, only address first pointed, pointed⟩, ?_⟩
    intro second other there otherRuns
    obtain ⟨otherAddress, otherPointed⟩ := owned.running second other there otherRuns
    have slots := (only address first pointed).symm.trans (only otherAddress second otherPointed)
    obtain rfl := Option.some.inj slots
    exact Option.some.inj (pointed.symm.trans otherPointed)

end HazelcastCache
