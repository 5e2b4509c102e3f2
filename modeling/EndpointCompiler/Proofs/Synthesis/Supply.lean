import EndpointCompiler.Proofs.Synthesis.Run
import Mathlib.Data.List.Perm.Subperm

/-! When names do not run out. A name has as many forms as the table allows numbers, so there is a
free one as long as fewer names than that are taken. -/

namespace EndpointCompiler

namespace NameTable

variable {t : NameTable} {base : String}

theorem formsOf_nodup (base : String) (count : Nat) : (formsOf base count).Nodup := by
  rw [formsOf, List.nodup_cons]
  constructor
  · intro hmem
    obtain ⟨k, -, hk⟩ := List.mem_map.mp hmem
    have hempty : natText k = "" := (String.append_right_inj base).mp (hk.trans String.append_empty.symm)
    exact natText_ne_nil k (by rw [hempty]; rfl)
  · exact (List.nodup_range' _).map fun _ _ h => natText_inj ((String.append_right_inj base).mp h)

/-- As long as fewer names are taken than a name may have forms, one of them is free. -/
theorem exists_allocate (base : String) (h : t.assigned.length < t.maxSuffix) :
    ∃ name, t.allocate base = .ok (name, { t with assigned := name :: t.assigned }) := by
  rcases allocate_cases t base with ⟨name, -, halloc⟩ | ⟨hfind, -⟩
  · exact ⟨name, halloc⟩
  · have htaken : ∀ n ∈ formsOf base (t.maxSuffix - 1), n ∈ t.assigned := fun n hn => by
      simpa using List.find?_eq_none.mp hfind n hn
    have hlength := ((formsOf_nodup base (t.maxSuffix - 1)).subperm htaken).length_le
    rw [formsOf, List.length_cons, List.length_map, List.length_range'] at hlength
    omega

end NameTable

theorem exists_nameParams {placeholders : List String} {carrier : String} {names : NameTable}
    {gs : List ParamGroup} (h : names.assigned.length + gs.length ≤ names.maxSuffix) :
    ∃ made, nameParams placeholders carrier names gs = .ok made := by
  induction gs generalizing names with
  | nil => exact ⟨_, rfl⟩
  | cons g gs ih =>
    rw [List.length_cons] at h
    obtain ⟨name, hname⟩ := NameTable.exists_allocate (t := names) (sanitizeIdent g.target)
      (by omega)
    have hrest : ({ names with assigned := name :: names.assigned } : NameTable).assigned.length +
        gs.length ≤ names.maxSuffix := by
      rw [List.length_cons]
      omega
    obtain ⟨made, hmade⟩ := ih hrest
    rw [nameParams, hname]
    simp only [bind, Except.bind, hmade]
    exact ⟨_, rfl⟩

namespace Synthesizer

variable {d : HandlerDefinition} {ds : List HandlerDefinition} {s : Synthesizer}

theorem exists_runs_allocate (base : String) (h : s.names.assigned.length < s.names.maxSuffix) :
    ∃ name, Runs (allocate base) s name
      { s with names := { s.names with assigned := name :: s.names.assigned } } := by
  obtain ⟨name, hname⟩ := NameTable.exists_allocate base h
  exact ⟨name, runs_allocate.mpr ⟨_, hname, rfl⟩⟩

theorem length_wireKeys_le (bs : List ParameterBinding) :
    (wireKeys bs).length ≤ bs.length := by
  have hsub : (wireKeys bs).Subperm (bs.map (·.wireKey)) :=
    (wireKeys_nodup bs).subperm fun key hkey => by
      obtain ⟨b, hb, rfl⟩ := mem_wireKeys.mp hkey
      exact List.mem_map_of_mem hb
  have hlength := hsub.length_le
  rwa [List.length_map] at hlength

theorem exists_runs_bind {α β : Type} {x : Action α} {f : α → Action β} {a : α} {s₁ : Synthesizer}
    {P : Synthesizer → Prop} (hx : Runs x s a s₁) (hf : ∃ b s', Runs (f a) s₁ b s' ∧ P s') :
    ∃ b s', Runs (x >>= f) s b s' ∧ P s' := by
  obtain ⟨b, s', hb, hs'⟩ := hf
  exact ⟨b, s', runs_bind.mpr ⟨a, s₁, hx, hb⟩, hs'⟩

/-- An operation is made if two more names may be taken, and not too many by its parameters. -/
theorem exists_runs (h : s.names.assigned.length + 2 ≤ s.names.maxSuffix)
    (hparams : d.parameters.length < defaultMaxSuffix) :
    ∃ spec s', Runs (synthesize d) s spec s' ∧ s'.names.maxSuffix = s.names.maxSuffix := by
  have hgroups : (groupBindings d.parameters).length ≤ d.parameters.length := by
    rw [groupBindings_eq, List.length_map]
    exact length_wireKeys_le d.parameters
  have hmade : ∀ carrier v, ∃ made, nameParams (Route.placeholders d.route) carrier
      ((NameTable.empty defaultMaxSuffix).reserve v).2 (groupBindings d.parameters) = .ok made := by
    intro carrier v
    refine exists_nameParams ?_
    rw [requestVar_reserved]
    show 1 + (groupBindings d.parameters).length ≤ defaultMaxSuffix
    omega
  obtain ⟨name, hname⟩ :=
    exists_runs_allocate (sanitizeIdent d.request.simpleName) (s := s) (by omega)
  unfold synthesize
  refine exists_runs_bind hname (exists_runs_bind (runs_surrogate.mpr ⟨rfl, rfl⟩) ?_)
  change ∃ spec s', Runs (ite ((bodyBindings d).isEmpty = true) _ _) _ spec s' ∧ _
  by_cases hbody : (bodyBindings d).isEmpty = true
  · rw [if_pos hbody]
    refine exists_runs_bind (runs_pure.mpr ⟨rfl, rfl⟩) ?_
    obtain ⟨made, hmade⟩ := hmade (carrierName none) ("request_" ++ s.surrogates.next.1)
    refine exists_runs_bind (runs_lift.mpr ⟨hmade, rfl⟩) ?_
    exact ⟨_, _, runs_pure.mpr ⟨rfl, rfl⟩, rfl⟩
  · rw [if_neg hbody]
    obtain ⟨shape, hshape⟩ := exists_runs_allocate (name ++ "Body_" ++ s.surrogates.next.1)
      (s := ⟨{ s.names with assigned := name :: s.names.assigned }, s.surrogates.next.2⟩)
      (show s.names.assigned.length + 1 < s.names.maxSuffix by omega)
    refine exists_runs_bind hshape (exists_runs_bind (runs_pure.mpr ⟨rfl, rfl⟩) ?_)
    obtain ⟨made, hmade⟩ := hmade shape ("request_" ++ s.surrogates.next.1)
    refine exists_runs_bind (runs_lift.mpr ⟨hmade, rfl⟩) ?_
    exact ⟨_, _, runs_pure.mpr ⟨rfl, rfl⟩, rfl⟩

theorem Makes.assigned_length_le {spec : OperationSpec} {s' : Synthesizer}
    (h : Makes d s spec s') : s'.names.assigned.length ≤ s.names.assigned.length + 2 := by
  have hunits : spec.units.length ≤ 2 := by
    rw [OperationSpec.units]
    cases spec.carrier with
    | none => exact Nat.le_succ 1
    | some c => exact Nat.le_refl 2
  rw [h.assigned, List.length_append, List.length_map]
  omega

/-- All operations are made if two more names may be taken for each. -/
theorem exists_runs_all (h : s.names.assigned.length + 2 * ds.length ≤ s.names.maxSuffix)
    (hparams : ∀ d ∈ ds, d.parameters.length < defaultMaxSuffix) :
    ∃ specs s', Runs (synthesizeAll ds) s specs s' := by
  unfold synthesizeAll
  induction ds generalizing s with
  | nil =>
    rw [List.mapM_nil]
    exact ⟨_, _, runs_pure.mpr ⟨rfl, rfl⟩⟩
  | cons d ds ih =>
    rw [List.length_cons] at h
    rw [List.forall_mem_cons] at hparams
    obtain ⟨spec, s₁, hspec, hmax⟩ := exists_runs (d := d) (s := s) (by omega) hparams.1
    have hlength := (makes_of_runs hspec).assigned_length_le
    obtain ⟨specs, s₂, hspecs⟩ := ih (s := s₁) (by omega) hparams.2
    rw [List.mapM_cons]
    exact ⟨_, _, runs_bind.mpr ⟨spec, s₁, hspec, runs_bind.mpr ⟨specs, s₂, hspecs,
      runs_pure.mpr ⟨rfl, rfl⟩⟩⟩⟩

end Synthesizer

end EndpointCompiler
