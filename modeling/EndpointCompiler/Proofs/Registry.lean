import EndpointCompiler.Proofs.Matching
import EndpointCompiler.Registry

/-! Registries along whole runs. A module is told apart from others by its number in some tests and
by its name in others; the two go together as long as no number stands for two modules. -/

namespace EndpointCompiler

/-- What can be asked of a registry that may change it. -/
inductive RegistryCall where
  | register (handle : ModuleHandle)
  | configure (number : Nat) (builder : Builder) (definitions : List HandlerDefinition)
      (files : FileTree)

namespace Registry

/-- All modules that a registry holds, whether or not their names differ. -/
def handles (r : Registry) : List ModuleHandle :=
  r.host ++ r.registered

def ids (r : Registry) : List ModuleId :=
  r.handles.map (·.id)

def add (r : Registry) (h : ModuleHandle) : Registry :=
  { r with registered := r.registered ++ [h] }

/-- Whether a call added a module, or why it failed, and the registry after it. -/
def perform (r : Registry) : RegistryCall → Except ConfigureError Bool × Registry
  | .register h =>
    match r.register h with
    | .ok (added, r') => (.ok added, r')
    | .error e => (.error (.registry e), r)
  | .configure number b ds files =>
    match (r.configure number b ds files).1 with
    | .ok (_, r') => (.ok true, r')
    | .error e => (.error e, r)

/-- The registry after calls, one after another. -/
def run (r : Registry) (calls : List RegistryCall) : Registry :=
  calls.foldl (fun r call => (r.perform call).2) r

/-- No number stands for two modules: what is registered under a number that the registry knows is
the module that it knows, and what is built has a new number. -/
def Admits (r : Registry) : RegistryCall → Prop
  | .register h => ∀ k ∈ r.handles, k.number = h.number → k = h
  | .configure number _ _ _ => ∀ k ∈ r.handles, k.number ≠ number

def AdmitsAll (r : Registry) : List RegistryCall → Prop
  | [] => True
  | call :: calls => r.Admits call ∧ (r.perform call).2.AdmitsAll calls

/-- What holds of a registry all along a run. -/
structure Coherent (r : Registry) : Prop where
  ids_nodup : r.ids.Nodup
  numbers_apart : ∀ k ∈ r.host, ∀ h ∈ r.registered, k.number ≠ h.number

variable {r : Registry} {h : ModuleHandle}

theorem id_mem_ids (hh : h ∈ r.handles) : h.id ∈ r.ids :=
  List.mem_map_of_mem hh

theorem mem_handles : h ∈ r.handles ↔ h ∈ r.host ∨ h ∈ r.registered :=
  List.mem_append

@[simp] theorem handles_add (r : Registry) (h : ModuleHandle) :
    (r.add h).handles = r.handles ++ [h] :=
  (List.append_assoc r.host r.registered [h]).symm

/-! The three ways in which registering a module can end. -/

theorem find?_registered_of_unused (hid : h.id ∉ r.ids) :
    r.registered.find? (·.id == h.id) = none := by
  rw [List.find?_eq_none]
  intro k hk
  have hne : k.id ≠ h.id := fun heq => hid (heq ▸ id_mem_ids (mem_handles.mpr (.inr hk)))
  simpa using hne

theorem register_of_unused (hid : h.id ∉ r.ids) : r.register h = .ok (true, r.add h) := by
  have hhost : r.host.any (·.id == h.id) = false := by
    rw [List.any_eq_false]
    intro k hk
    have hne : k.id ≠ h.id := fun heq => hid (heq ▸ id_mem_ids (mem_handles.mpr (.inl hk)))
    simpa using hne
  simp [register, find?_registered_of_unused hid, hhost, add]

theorem Coherent.find?_registered (hr : r.Coherent) (hh : h ∈ r.registered) :
    r.registered.find? (·.id == h.id) = some h := by
  have hids := hr.ids_nodup
  rw [ids, handles, List.map_append] at hids
  exact find?_of_nodup_map hids.of_append_right hh

theorem Coherent.register_of_mem (hr : r.Coherent) (hh : h ∈ r.registered) :
    r.register h = .ok (false, r) := by
  simp [register, hr.find?_registered hh]

theorem register_of_taken (hid : h.id ∈ r.ids) (hh : h ∉ r.registered)
    (hadmits : r.Admits (.register h)) : r.register h = .error ⟨h.id⟩ := by
  rw [register]
  cases hfind : r.registered.find? (·.id == h.id) with
  | some k =>
    have hk : k ∈ r.registered := List.mem_of_find?_eq_some hfind
    have hnumber : k.number ≠ h.number := by
      intro heq
      obtain rfl := hadmits k (mem_handles.mpr (.inr hk)) heq
      exact hh hk
    exact if_neg hnumber
  | none =>
    obtain ⟨k, hk, hkid⟩ := List.mem_map.mp hid
    have hhost : r.host.any (·.id == h.id) = true := by
      rcases mem_handles.mp hk with hk | hk
      · exact List.any_eq_true.mpr ⟨k, hk, by simpa using hkid⟩
      · exact absurd (List.find?_eq_none.mp hfind k hk) (by simpa using hkid)
    exact if_pos hhost

/-- What is built is registered as any new module is. -/
theorem configure_fst (r : Registry) (number : Nat) (b : Builder) (ds : List HandlerDefinition)
    (files : FileTree) (hadmits : r.Admits (.configure number b ds files)) :
    (r.configure number b ds files).1 =
      match (b.build ds files).1 with
      | .error e => .error (.build e)
      | .ok compiled =>
        if compiled.module.id ∈ r.ids then .error (.registry ⟨compiled.module.id⟩)
        else .ok (compiled, r.add ⟨number, compiled.module⟩) := by
  rw [configure]
  rcases b.build ds files with ⟨e | compiled, files'⟩
  · rfl
  · let built : ModuleHandle := ⟨number, compiled.module⟩
    have hnew : built ∉ r.handles := fun hh => hadmits built hh rfl
    by_cases hid : compiled.module.id ∈ r.ids
    · have htaken : r.register built = .error ⟨compiled.module.id⟩ :=
        register_of_taken hid (fun hh => hnew (mem_handles.mpr (.inr hh)))
          fun k hk heq => absurd heq (hadmits k hk)
      simp only [built] at htaken
      simp [htaken, hid]
    · have hadd : r.register built = .ok (true, r.add built) := register_of_unused hid
      simp only [built] at hadd
      simp [hadd, hid]

/-! One call. -/

/-- A call adds a module with a new name and number, or leaves the registry as it is. -/
theorem Coherent.perform_cases (hr : r.Coherent) {call : RegistryCall} (hadmits : r.Admits call) :
    (∃ h, h.id ∉ r.ids ∧ (∀ k ∈ r.host, k.number ≠ h.number) ∧
        r.perform call = (.ok true, r.add h)) ∨
      ∃ report, report ≠ .ok true ∧ r.perform call = (report, r) := by
  cases call with
  | register h =>
    by_cases hid : h.id ∈ r.ids
    · right
      by_cases hh : h ∈ r.registered
      · exact ⟨.ok false, by simp, by simp [perform, hr.register_of_mem hh]⟩
      · exact ⟨.error (.registry ⟨h.id⟩), by simp,
          by simp [perform, register_of_taken hid hh hadmits]⟩
    · refine .inl ⟨h, hid, ?_, by simp [perform, register_of_unused hid]⟩
      intro k hk heq
      have hmem : k ∈ r.handles := mem_handles.mpr (.inl hk)
      exact hid (hadmits k hmem heq ▸ id_mem_ids hmem)
  | configure number b ds files =>
    have hconfigure := configure_fst r number b ds files hadmits
    rcases hbuild : (b.build ds files).1 with e | compiled
    · simp only [hbuild] at hconfigure
      exact .inr ⟨.error (.build e), by simp, by simp [perform, hconfigure]⟩
    · by_cases hid : compiled.module.id ∈ r.ids
      · simp only [hbuild, hid, if_true] at hconfigure
        exact .inr ⟨.error (.registry ⟨compiled.module.id⟩), by simp, by simp [perform, hconfigure]⟩
      · simp only [hbuild, hid, if_false] at hconfigure
        refine .inl ⟨⟨number, compiled.module⟩, hid, ?_, by simp [perform, hconfigure]⟩
        exact fun k hk => hadmits k (mem_handles.mpr (.inl hk))

/-- How a registration ends is told by the name of the module, and by whether it is registered. -/
theorem Coherent.register_iff (hr : r.Coherent) (hadmits : r.Admits (.register h)) :
    (r.register h = .ok (true, r.add h) ↔ h.id ∉ r.ids) ∧
      (r.register h = .ok (false, r) ↔ h ∈ r.registered) ∧
      (r.register h = .error ⟨h.id⟩ ↔ h.id ∈ r.ids ∧ h ∉ r.registered) := by
  have hused : h ∈ r.registered → h.id ∈ r.ids := fun hh => id_mem_ids (mem_handles.mpr (.inr hh))
  by_cases hid : h.id ∈ r.ids
  · by_cases hh : h ∈ r.registered
    · simp [hr.register_of_mem hh, hid, hh]
    · simp [register_of_taken hid hh hadmits, hid, hh]
  · have hh : h ∉ r.registered := mt hused hid
    simp [register_of_unused hid, hid, hh]

theorem Coherent.add (hr : r.Coherent) (hid : h.id ∉ r.ids)
    (hnumber : ∀ k ∈ r.host, k.number ≠ h.number) : (r.add h).Coherent where
  ids_nodup := by
    rw [ids, handles_add, List.map_append, List.map_singleton]
    exact hr.ids_nodup.append (List.nodup_singleton _) (by simpa [List.disjoint_singleton] using hid)
  numbers_apart := by
    intro k hk g hg
    rcases List.mem_append.mp hg with hg | hg
    · exact hr.numbers_apart k hk g hg
    · obtain rfl := List.mem_singleton.mp hg
      exact hnumber k hk

theorem Coherent.perform (hr : r.Coherent) {call : RegistryCall} (hadmits : r.Admits call) :
    (r.perform call).2.Coherent ∧ (r.perform call).2.host = r.host := by
  rcases hr.perform_cases hadmits with ⟨h, hid, hnumber, heq⟩ | ⟨report, -, heq⟩
  · rw [heq]
    exact ⟨hr.add hid hnumber, rfl⟩
  · rw [heq]
    exact ⟨hr, rfl⟩

/-! Whole runs. -/

theorem Coherent.run {calls : List RegistryCall} (hr : r.Coherent) (hadmits : r.AdmitsAll calls) :
    (r.run calls).Coherent ∧ (r.run calls).host = r.host := by
  induction calls generalizing r with
  | nil => exact ⟨hr, rfl⟩
  | cons call calls ih =>
    obtain ⟨hcall, hcalls⟩ := hadmits
    obtain ⟨hnext, hhost⟩ := hr.perform hcall
    obtain ⟨hrun, hrunHost⟩ := ih hnext hcalls
    exact ⟨hrun, hrunHost.trans hhost⟩

theorem coherent_ofHost {host : List ModuleHandle} (hhost : (host.map (·.id)).Nodup) :
    (ofHost host).Coherent where
  ids_nodup := by simpa [ids, handles, ofHost] using hhost
  numbers_apart := by simp [ofHost]

/-! What a registry answers. -/

theorem foldl_known_eq_append {known hs : List ModuleHandle}
    (hnodup : ((known ++ hs).map (·.id)).Nodup) :
    hs.foldl (fun ms h => if ms.any (·.id == h.id) then ms else ms ++ [h]) known = known ++ hs := by
  induction hs generalizing known with
  | nil => simp
  | cons h hs ih =>
    have hsplit : known ++ h :: hs = (known ++ [h]) ++ hs := by simp
    have hfresh : known.any (·.id == h.id) = false := by
      rw [List.any_eq_false]
      intro k hk
      have hids : (known.map (·.id)).Disjoint ((h :: hs).map (·.id)) := by
        rw [List.map_append] at hnodup
        exact List.disjoint_of_nodup_append hnodup
      have hne : k.id ≠ h.id := fun heq =>
        hids (List.mem_map_of_mem hk) (heq ▸ List.mem_map_of_mem List.mem_cons_self)
      simpa using hne
    rw [List.foldl_cons, hfresh, hsplit]
    exact ih (hsplit ▸ hnodup)

theorem Coherent.modules_eq (hr : r.Coherent) : r.modules = r.host ++ r.registered :=
  foldl_known_eq_append hr.ids_nodup

theorem isRegistered_of_mem (hh : h ∈ r.registered) : r.isRegistered h = true :=
  List.any_eq_true.mpr ⟨h, hh, by simp⟩

theorem Coherent.isRegistered_of_host (hr : r.Coherent) (hh : h ∈ r.host) :
    r.isRegistered h = false := by
  rw [isRegistered, List.any_eq_false]
  intro k hk
  have hne : k.number ≠ h.number := fun heq => hr.numbers_apart h hh k hk heq.symm
  simpa using hne

/-- The host finds its own modules, apart from those made at run time, and every registered module
is found. -/
theorem Coherent.endpointTypes_modules (hr : r.Coherent) :
    r.endpointTypes r.modules =
      offeringTypes (r.host.filter (·.module.origin != .dynamic) ++ r.registered) := by
  have hhost : r.modules.filter (!r.isRegistered ·) = r.host := by
    rw [hr.modules_eq, List.filter_append,
      List.filter_eq_self.mpr fun h hh => by simp [hr.isRegistered_of_host hh],
      List.filter_eq_nil_iff.mpr fun h hh => by simp [isRegistered_of_mem hh], List.append_nil]
  have hregistered : r.modules.filter (r.isRegistered ·) = r.registered := by
    rw [hr.modules_eq, List.filter_append,
      List.filter_eq_nil_iff.mpr fun h hh => by simp [hr.isRegistered_of_host hh],
      List.filter_eq_self.mpr fun h hh => by simp [isRegistered_of_mem hh], List.nil_append]
  rw [endpointTypes, hhost, hregistered, hostOfferingTypes, offeringTypes, offeringTypes,
    offeringTypes, List.flatMap_append]

/-- Along every run of a host's registry, the names of the modules differ, the registry answers with
all of them in order, and how the next call ends depends on what it holds alone: unless it adds a
module, nothing changes. -/
theorem run_registers {host : List ModuleHandle} {calls : List RegistryCall}
    (hhost : (host.map (·.id)).Nodup) (hcalls : (ofHost host).AdmitsAll calls) :
    let r := (ofHost host).run calls
    r.host = host ∧ ((host ++ r.registered).map (·.id)).Nodup ∧
      r.modules = host ++ r.registered ∧
      r.endpointTypes r.modules =
        (host.filter (·.module.origin != .dynamic) ++ r.registered).flatMap
          (·.module.types.filter (·.isEndpoint)) ∧
      (∀ h, r.Admits (.register h) →
        (r.register h = .ok (true, ⟨host, r.registered ++ [h]⟩) ↔
            h.id ∉ (host ++ r.registered).map (·.id)) ∧
          (r.register h = .ok (false, r) ↔ h ∈ r.registered) ∧
          (r.register h = .error ⟨h.id⟩ ↔
            h.id ∈ (host ++ r.registered).map (·.id) ∧ h ∉ r.registered)) ∧
      (∀ number b ds files, r.Admits (.configure number b ds files) →
        (r.configure number b ds files).1 =
          match (b.build ds files).1 with
          | .error e => .error (.build e)
          | .ok compiled =>
            if compiled.module.id ∈ (host ++ r.registered).map (·.id) then
              .error (.registry ⟨compiled.module.id⟩)
            else .ok (compiled, ⟨host, r.registered ++ [⟨number, compiled.module⟩]⟩)) ∧
      ∀ call, r.Admits call → (r.perform call).1 ≠ .ok true → (r.perform call).2 = r := by
  intro r
  obtain ⟨hr, hrhost⟩ := (coherent_ofHost hhost).run hcalls
  change r.Coherent at hr
  change r.host = host at hrhost
  have hids : r.ids = (host ++ r.registered).map (·.id) := by rw [ids, handles, hrhost]
  have hadd : ∀ h, r.add h = ⟨host, r.registered ++ [h]⟩ := fun h => by rw [add, hrhost]
  refine ⟨hrhost, hids ▸ hr.ids_nodup, hrhost ▸ hr.modules_eq, hrhost ▸ hr.endpointTypes_modules,
    ?_, ?_, ?_⟩
  · intro h hadmits
    rw [← hids, ← hadd]
    exact hr.register_iff hadmits
  · intro number b ds files hadmits
    simp only [← hids, ← hadd]
    exact configure_fst r number b ds files hadmits
  · intro call hadmits hreport
    -- Only a call that adds a module reports `true`.
    rcases hr.perform_cases hadmits with ⟨h, -, -, heq⟩ | ⟨report, -, heq⟩
    · exact absurd (congrArg Prod.fst heq) hreport
    · rw [heq]

/-- A module with one controller. -/
def pingModule (number : Nat) (id : ModuleId) (origin : ModuleOrigin) : ModuleHandle :=
  ⟨number, id, origin,
    [{ TypeInfo.empty id "PingController" with
        base := some controllerType
        operations := [.hosted ⟨"Ping", ⟨.get, "/ping", none⟩,
          fun _ _ => .ok (.json 200 (.string "pong"))⟩] }]⟩

def pingHost : List ModuleHandle :=
  [pingModule 0 "app" (.static none), pingModule 1 "plugins" .dynamic]

/-- A module is registered, registered again, and followed by another of its name, by one with a
name of the host's, and by a build that fails. -/
def pingCalls : List RegistryCall :=
  [.register (pingModule 2 "made" .dynamic), .register (pingModule 2 "made" .dynamic),
    .register (pingModule 3 "made" .inMemory), .register (pingModule 4 "app" .dynamic),
    .configure 5 ⟨.builtin, .default, 0⟩ [⟨objectType, objectType, ⟨"TRACE"⟩, "/ping", []⟩] ⟨[], []⟩]

theorem admits_of_new (hnew : ∀ k ∈ r.handles, k.number ≠ h.number) : r.Admits (.register h) :=
  fun k hk heq => absurd heq (hnew k hk)

theorem run_registers_ping :
    (pingHost.map (·.id)).Nodup ∧ (ofHost pingHost).AdmitsAll pingCalls ∧
      let r := (ofHost pingHost).run pingCalls
      r.modules = pingHost ++ [pingModule 2 "made" .dynamic] ∧
        (r.endpointTypes r.modules).map (·.module) = ["app", "made"] ∧
        r.register (pingModule 6 "other" .inMemory) =
          .ok (true, ⟨pingHost, [pingModule 2 "made" .dynamic, pingModule 6 "other" .inMemory]⟩) := by
  have hhost : (pingHost.map (·.id)).Nodup := by decide
  have hagain : (⟨pingHost, [pingModule 2 "made" .dynamic]⟩ : Registry).Admits
      (.register (pingModule 2 "made" .dynamic)) := by
    intro k hk heq
    rcases mem_handles.mp hk with hk | hk
    · have hhostNumbers : ∀ k ∈ pingHost, k.number ≠ 2 := by decide
      exact absurd heq (hhostNumbers k hk)
    · exact List.mem_singleton.mp hk
  have hcalls : (ofHost pingHost).AdmitsAll pingCalls := by
    refine ⟨admits_of_new ?_, hagain, admits_of_new ?_, admits_of_new ?_, ?_, trivial⟩
    · decide
    · decide
    · decide
    · show ∀ k ∈ pingHost ++ [pingModule 2 "made" .dynamic], k.number ≠ 5
      decide
  have hrun : (ofHost pingHost).run pingCalls = ⟨pingHost, [pingModule 2 "made" .dynamic]⟩ := rfl
  refine ⟨hhost, hcalls, ?_⟩
  obtain ⟨-, -, hmodules, htypes, hregister, -, -⟩ := run_registers hhost hcalls
  rw [hrun] at hmodules htypes hregister ⊢
  refine ⟨hmodules, ?_, ?_⟩
  · rw [htypes]
    decide
  · have hnew : ∀ k ∈ pingHost ++ [pingModule 2 "made" .dynamic], k.number ≠ 6 := by decide
    exact (hregister (pingModule 6 "other" .inMemory) (admits_of_new hnew)).1.mpr (by decide)

end Registry

end EndpointCompiler
