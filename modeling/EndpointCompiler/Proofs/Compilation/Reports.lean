import EndpointCompiler.Proofs.Compilation.Places
import EndpointCompiler.Proofs.Diagnostic.Reports

/-! The reports of a failed compilation. Each diagnostic has its report in the message of the error,
which shows its line and column where the text before it is plain. -/

namespace EndpointCompiler

open Source Report

namespace CompilationError

variable {e : CompilationError} {d : Diagnostic}

theorem message_report (hd : d ∈ e.diagnostics) :
    ∃ above below, e.message = above ++ e.report d ++ below := by
  obtain ⟨earlier, later, hsplit⟩ := List.mem_iff_append.mp hd
  have hreports : String.join (e.diagnostics.map e.report) =
      String.join (earlier.map e.report) ++ e.report d ++ String.join (later.map e.report) := by
    rw [hsplit, List.map_append, List.map_cons, String.join_append, String.join_cons,
      String.append_assoc]
  have hassoc : ∀ top before here after mark rest : String,
      top ++ (before ++ here ++ after) ++ mark ++ rest =
        top ++ before ++ here ++ (after ++ mark ++ rest) := by
    intro top before here after mark rest
    simp only [String.append_assoc]
  unfold message
  rw [hreports]
  exact ⟨_, _, hassoc ..⟩

theorem report_eq (hnames : (e.units.map (·.name)).Nodup) {u : SourceUnit} (hu : u ∈ e.units)
    (hunit : d.unit = u.name) : e.report d = d.render u.text := by
  rw [report, unitText?, hunit, find?_of_nodup_map hnames hu]
  rfl

end CompilationError

section

variable {references : ReferenceSet} {o : CompileOptions} {units : List SourceUnit}

theorem compile_error_units {e : CompilationError} (h : compile references o units = .error e) :
    e.units = units := by
  unfold compile at h
  split at h
  · cases h
  · cases h
    rfl

/-- Each diagnostic of a failed compilation is reported with the text of the unit that it points
into. -/
theorem exists_report {files : FileTree} {e : CompilationError} {d : Diagnostic}
    (hnames : (units.map (·.name)).Nodup) (h : compilePlaced references o units files = .error e)
    (hd : d ∈ e.diagnostics) :
    ∃ u ∈ units, d.PointsInto u ∧ e.report d = d.render u.text := by
  have hunits : e.units = (o.place units files).1 := compile_error_units h
  have hreported : d ∈ reported (compile references o (o.place units files).1) := by
    rw [show compile references o (o.place units files).1 = .error e from h]
    exact hd
  obtain ⟨placed, hplaced, hpoints⟩ := compile_pointsInto hreported
  obtain ⟨u, hu, hname, htext⟩ := o.place_same units files hplaced
  refine ⟨u, hu, ⟨hpoints.unit.trans hname.symm, htext ▸ hpoints.range⟩, ?_⟩
  rw [htext]
  refine e.report_eq ?_ (hunits ▸ hplaced) hpoints.unit
  rw [hunits, o.place_names]
  exact hnames

/-- A failed compilation shows the place of each of its diagnostics, unless the text before it has
characters of several bytes, or ends lines otherwise than with line feeds, or the diagnostic has
more bytes than there are characters up to the end of the text. -/
theorem compilePlaced_reports {files : FileTree} {e : CompilationError} {d : Diagnostic}
    (hnames : (units.map (·.name)).Nodup) (h : compilePlaced references o units files = .error e)
    (hd : d ∈ e.diagnostics) (hspan : d.span.start < d.span.stop) :
    ∃ u ∈ units, d.unit = u.name ∧ ∃ before inside after,
      u.text.toList = before ++ inside ++ after ∧
      d.span = ⟨utf8Length before, utf8Length (before ++ inside)⟩ ∧
      (∃ above below, e.message = above ++ e.report d ++ below) ∧
      (d.Shows (e.report d) d.line d.column ↔ (∀ c ∈ before, c.utf8Size = 1) ∧
        OnlyFeeds before (inside ++ after) ∧ d.span.stop ≤ u.text.length + 1) := by
  obtain ⟨u, hu, hpoints, hreport⟩ := exists_report hnames h hd
  obtain ⟨before, inside, after, hsplit, hrange, hshows⟩ := hpoints.shows_iff hspan
  exact ⟨u, hu, hpoints.unit, before, inside, after, hsplit, hrange, e.message_report hd,
    hreport ▸ hshows⟩

end

theorem exists_error {r : Except CompilationError Artifact} {line column : Nat} {span : Span}
    (h : (match r with
      | .ok _ => false
      | .error e => e.diagnostics.any fun d =>
        d.line == line && d.column == column && d.span == span) = true) :
    ∃ e d, r = .error e ∧ d ∈ e.diagnostics ∧ d.line = line ∧ d.column = column ∧
      d.span = span := by
  cases r with
  | ok a => cases h
  | error e =>
    obtain ⟨d, hd, hplace⟩ := List.any_eq_true.mp h
    simp only [Bool.and_eq_true, beq_iff_eq] at hplace
    exact ⟨e, d, rfl, hd, hplace.1.1, hplace.1.2, hplace.2⟩

/-- A type that is not known, in the second line. -/
def unknownUnit : SourceUnit :=
  ⟨"unknown", "shape S \x7b\n  t: T\n\x7d", none⟩

theorem compilePlaced_reports_unknown :
    ∃ e d, compilePlaced ⟨[]⟩ echoOptions [unknownUnit] ⟨[], []⟩ = .error e ∧ d ∈ e.diagnostics ∧
      d.span = ⟨15, 16⟩ ∧ d.Shows (e.report d) 2 6 ∧
      ∃ above below, e.message = above ++ e.report d ++ below := by
  obtain ⟨e, d, he, hd, hline, hcolumn, hspan⟩ : ∃ e d,
      compilePlaced ⟨[]⟩ echoOptions [unknownUnit] ⟨[], []⟩ = .error e ∧ d ∈ e.diagnostics ∧
        d.line = 2 ∧ d.column = 6 ∧ d.span = ⟨15, 16⟩ := exists_error (by decide +kernel)
  have hrange : d.span.start < d.span.stop := by
    rw [hspan]
    decide
  have hnames : ([unknownUnit].map (·.name)).Nodup := List.nodup_singleton _
  obtain ⟨u, hu, -, before, inside, after, htext, -, hmessage, hshows⟩ :=
    compilePlaced_reports hnames he hd hrange
  obtain rfl := List.mem_singleton.mp hu
  have hplain : (unknownUnit.text.toList.all fun c =>
      decide (c.utf8Size = 1 ∧ (endsLine c = true → c = '\n'))) = true := by decide +kernel
  have hbefore : ∀ c ∈ before, c.utf8Size = 1 ∧ (endsLine c = true → c = '\n') := by
    intro c hc
    rw [htext] at hplain
    exact of_decide_eq_true (List.all_eq_true.mp hplain c (by simp [hc]))
  have hstop : d.span.stop ≤ unknownUnit.text.length + 1 := by
    rw [hspan]
    decide +kernel
  have hplace := hshows.mpr ⟨fun c hc => (hbefore c hc).1,
    onlyFeeds_of_forall fun c hc => (hbefore c hc).2, hstop⟩
  rw [hline, hcolumn] at hplace
  exact ⟨e, d, he, hd, hspan, hplace, hmessage⟩

/-- A letter of two bytes, and in the next line a type that is not known. -/
def accentedUnit : SourceUnit :=
  ⟨"accented", "// é\nshape S \x7b t: Type \x7d", none⟩

/-- The report shows the column after that of the diagnostic. -/
theorem compilePlaced_misreports :
    ∃ e d, compilePlaced ⟨[]⟩ echoOptions [accentedUnit] ⟨[], []⟩ = .error e ∧ d ∈ e.diagnostics ∧
      d.span.start < d.span.stop ∧ d.line = 2 ∧ d.column = 14 ∧ d.Shows (e.report d) 2 15 ∧
      ¬ d.Shows (e.report d) d.line d.column := by
  obtain ⟨e, d, he, hd, hline, hcolumn, hspan⟩ : ∃ e d,
      compilePlaced ⟨[]⟩ echoOptions [accentedUnit] ⟨[], []⟩ = .error e ∧ d ∈ e.diagnostics ∧
        d.line = 2 ∧ d.column = 14 ∧ d.span = ⟨19, 23⟩ := exists_error (by decide +kernel)
  have hnames : ([accentedUnit].map (·.name)).Nodup := List.nodup_singleton _
  obtain ⟨u, hu, -, hreport⟩ := exists_report hnames he hd
  obtain rfl := List.mem_singleton.mp hu
  have hreported : d.reportSpan accentedUnit.text = ⟨19, 23⟩ := by
    rw [Diagnostic.reportSpan, hspan]
    decide +kernel
  have hshows : d.Shows (e.report d) 2 15 := by
    rw [hreport, Diagnostic.render_shows_iff, hreported]
    decide +kernel
  refine ⟨e, d, he, hd, ?_, hline, hcolumn, hshows, fun h => ?_⟩
  · rw [hspan]
    decide
  · have hwrong := (h.unique hshows).2
    rw [hcolumn] at hwrong
    cases hwrong

end EndpointCompiler
