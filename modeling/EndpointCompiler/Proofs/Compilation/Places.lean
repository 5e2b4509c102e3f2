import EndpointCompiler.Proofs.Checking.Places
import EndpointCompiler.Proofs.Compilation.Modes
import EndpointCompiler.Proofs.Diagnostic.Places
import EndpointCompiler.Proofs.Source.Places

/-! Where a compilation reports what it reports. Each diagnostic points into the text of one of its
units, whatever that text is. -/

namespace EndpointCompiler

open Source

section

variable {references : ReferenceSet} {o : CompileOptions} {units : List SourceUnit}
  {d : Diagnostic}

theorem parseUnits_pointsInto (hd : d ∈ (parseUnits units).2) :
    ∃ u ∈ units, d.PointsInto u := by
  obtain ⟨u, hu, e, herror, rfl⟩ := parseUnits_malformed hd
  exact ⟨u, hu, Finding.pointsInto (parseSource_error_points herror)⟩

theorem checkProgram_pointsInto {module : ModuleId}
    (hd : d ∈ (checkProgram references module (parseUnits units).1).diagnostics) :
    ∃ u ∈ units, d.PointsInto u := by
  obtain ⟨p, hp, i, hi, f, rfl, hspan⟩ := checkProgram_atItem references module d hd
  obtain ⟨hunit, hparse⟩ := parseUnits_items hp
  exact ⟨p.unit, hunit, Finding.pointsInto (parseSource_points hparse i hi f.span hspan)⟩

theorem compile_pointsInto (hd : d ∈ reported (compile references o units)) :
    ∃ u ∈ units, d.PointsInto u := by
  rw [reported_compile, List.mem_append] at hd
  rcases hd with hd | hd
  · exact parseUnits_pointsInto hd
  · exact checkProgram_pointsInto hd

theorem Diagnostic.PointsInto.of_unplaced {u u' : SourceUnit} (h : d.PointsInto u)
    (hsame : u'.unplaced = u.unplaced) : d.PointsInto u' := by
  obtain ⟨hname, htext, -⟩ := SourceUnit.mk.inj hsame
  exact ⟨h.unit.trans hname.symm, htext ▸ h.range⟩

end

/-- Every diagnostic of a compilation points into one of its units, and of the diagnostics that
point into a unit, those with the same line and column start at the same place. -/
theorem compilePlaced_pointsInto (references : ReferenceSet) (o : CompileOptions)
    (units : List SourceUnit) (files : FileTree) :
    (∀ d ∈ reported (compilePlaced references o units files), ∃ u ∈ units, d.PointsInto u) ∧
      ∀ d ∈ reported (compilePlaced references o units files),
        ∀ d' ∈ reported (compilePlaced references o units files),
          ∀ u, d.PointsInto u → d'.PointsInto u → d.line = d'.line → d.column = d'.column →
            d.span.start = d'.span.start := by
  refine ⟨fun d hd => ?_, fun d _ d' _ u h h' hline hcolumn => h.start_eq h' hline hcolumn⟩
  obtain ⟨placed, hplaced, hpoints⟩ := compile_pointsInto hd
  have hmem : placed.unplaced ∈ units.map (·.unplaced) :=
    o.place_unplaced units files ▸ List.mem_map_of_mem hplaced
  obtain ⟨u, hu, hsame⟩ := List.mem_map.mp hmem
  exact ⟨u, hu, hpoints.of_unplaced hsame⟩

/-- The text is longer in bytes than in characters. What is found in it is a warning before the
letter of two bytes and an error after it. -/
def greekUnit : SourceUnit :=
  ⟨"greek", "#[note(\"Ω\")] shape S \x7b t: T \x7d", none⟩

theorem compilePlaced_pointsInto_greek :
    ∃ d ∈ reported (compilePlaced ⟨[]⟩ echoOptions [greekUnit] ⟨[], []⟩),
      d.PointsInto greekUnit ∧ d.line = 1 ∧ d.column = 27 ∧ d.span = ⟨27, 28⟩ ∧
        ∀ d' ∈ reported (compilePlaced ⟨[]⟩ echoOptions [greekUnit] ⟨[], []⟩),
          d'.PointsInto greekUnit → d'.line = 1 → d'.column = 27 → d'.span.start = 27 := by
  have hplaces : (reported (compilePlaced ⟨[]⟩ echoOptions [greekUnit] ⟨[], []⟩)).map
      (fun d => (d.line, d.column, d.span)) = [(1, 1, ⟨0, 13⟩), (1, 27, ⟨27, 28⟩)] := by
    decide +kernel
  have hmem : (1, 27, ⟨27, 28⟩) ∈ (reported (compilePlaced ⟨[]⟩ echoOptions [greekUnit]
      ⟨[], []⟩)).map fun d => (d.line, d.column, d.span) := by simp [hplaces]
  obtain ⟨d, hd, heq⟩ := List.mem_map.mp hmem
  simp only [Prod.mk.injEq] at heq
  obtain ⟨hline, hcolumn, hspan⟩ := heq
  obtain ⟨hpoints, hstart⟩ := compilePlaced_pointsInto ⟨[]⟩ echoOptions [greekUnit] ⟨[], []⟩
  obtain ⟨u, hu, hdpoints⟩ := hpoints d hd
  obtain rfl := List.mem_singleton.mp hu
  refine ⟨d, hd, hdpoints, hline, hcolumn, hspan, fun d' hd' hd'points hline' hcolumn' => ?_⟩
  have hsame := hstart d' hd' d hd greekUnit hd'points hdpoints (hline'.trans hline.symm)
    (hcolumn'.trans hcolumn.symm)
  rw [hsame, hspan]

end EndpointCompiler
