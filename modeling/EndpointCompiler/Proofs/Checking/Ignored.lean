import EndpointCompiler.Proofs.Checking.Program

/-! Attributes that have no effect. The checker passes over them, but not without a warning. -/

namespace EndpointCompiler

open Source Checked

namespace Checked

section

variable {α β γ : Type} {x : Checked α} {w : Finding}

theorem mem_findings_bind (h : w ∈ x.findings) (f : α → Checked β) :
    w ∈ (x >>= f).findings := by
  cases hv : x.value with
  | none => simpa [Bind.bind, Checked.bind, hv] using h
  | some a =>
    rw [bind_findings_of_some hv]
    exact List.mem_append_left _ h

theorem mem_findings_bind_of_value {a : α} (ha : x.value = some a) {f : α → Checked β}
    (h : w ∈ (f a).findings) : w ∈ (x >>= f).findings := by
  rw [bind_findings_of_some ha]
  exact List.mem_append_right _ h

theorem mem_findings_attempt (h : w ∈ x.findings) : w ∈ x.attempt.findings :=
  h

/-- What a step of a fold finds, the fold finds. -/
theorem mem_findings_foldlM {f : β → γ → Checked β} {cs : List γ} {b d : β}
    (h : (cs.foldlM f b).Yields d) {c : γ} (hc : c ∈ cs) :
    ∃ b' b'', (f b' c).Yields b'' ∧ ∀ w ∈ (f b' c).findings, w ∈ (cs.foldlM f b).findings := by
  induction cs generalizing b with
  | nil => cases hc
  | cons c' cs ih =>
    obtain ⟨next, hnext, hrest⟩ := yields_foldlM_cons.mp h
    rw [List.foldlM_cons]
    rcases List.mem_cons.mp hc with rfl | hc
    · exact ⟨b, next, hnext, fun w hw => mem_findings_bind hw _⟩
    · obtain ⟨b', b'', hb, hfound⟩ := ih hrest hc
      exact ⟨b', b'', hb, fun w hw => mem_findings_bind_of_value hnext.1 (hfound w hw)⟩

theorem mem_findings_forM {f : γ → Checked Unit} {cs : List γ} (h : (cs.forM f).Yields ()) {c : γ}
    (hc : c ∈ cs) (hw : w ∈ (f c).findings) : w ∈ (cs.forM f).findings := by
  induction cs with
  | nil => cases hc
  | cons c' cs ih =>
    have hcons : (c' :: cs).forM f = f c' >>= fun _ => cs.forM f := rfl
    rw [hcons] at h ⊢
    obtain ⟨_, hfirst, hrest⟩ := yields_bind.mp h
    rcases List.mem_cons.mp hc with rfl | hc
    · exact mem_findings_bind hw _
    · exact mem_findings_bind_of_value hfirst.1 (ih hrest hc)

end

end Checked

/-- The warning that an attribute has no effect. -/
def Source.Attribute.ignoredFinding (a : Attribute) : Finding :=
  ⟨.unknownAttribute a.name.name, a.span⟩

/-- The attributes of a parameter that do not say where it comes from. -/
def Source.ParamDecl.ignored (p : ParamDecl) : List Attribute :=
  p.attributes.filter fun a => (ParamSource.ofKeyword? a.name.name).isNone

/-- The attributes of an operation, and of its parameters, that say nothing about it. -/
def Source.OpDecl.ignored (d : OpDecl) : List Attribute :=
  d.attributes.filter (fun a => a.name.name != "http" && a.name.name != "produces") ++
    d.params.flatMap (·.ignored)

/-- All attributes without effect, with their units. Those of shapes never have one. -/
def ignoredAttributes (parsed : List ParsedUnit) : List (SourceUnit × Attribute) :=
  (declaredShapes parsed).flatMap (fun d => d.2.attributes.map (d.1, ·)) ++
    (declaredOps parsed).flatMap fun d => d.2.ignored.map (d.1, ·)

section

variable {s : TypeScope}

theorem checkShape_warns {d : ShapeDecl} {a : Attribute} (ha : a ∈ d.attributes) :
    a.ignoredFinding ∈ (checkShape s d).findings := by
  have hattrs : (d.attributes.forM fun a =>
      Checked.note (.unknownAttribute a.name.name) a.span).Yields () :=
    yields_forM.mpr fun _ _ => yields_note.mpr rfl
  exact mem_findings_bind (mem_findings_forM hattrs ha (List.mem_singleton_self _)) _

theorem bindingAttributes_warns {attrs : List Attribute} {a : Attribute} (ha : a ∈ attrs)
    (hsource : ParamSource.ofKeyword? a.name.name = none) :
    a.ignoredFinding ∈ (bindingAttributes attrs).findings := by
  induction attrs with
  | nil => cases ha
  | cons b attrs ih =>
    rw [bindingAttributes]
    rcases List.mem_cons.mp ha with rfl | ha
    · rw [hsource]
      exact mem_findings_bind (List.mem_singleton_self _) _
    · split
      · exact mem_findings_bind (ih ha) _
      · exact mem_findings_bind_of_value rfl (ih ha)

theorem checkParam_warns {op : OpDecl} {placeholders : Option (List String)}
    {seen seen' : ParamsSeen} {p : ParamDecl}
    (h : (checkParam s op placeholders seen p).Yields seen') {a : Attribute} (ha : a ∈ p.ignored) :
    a.ignoredFinding ∈ (checkParam s op placeholders seen p).findings := by
  have hnew : ¬ seen.names.contains p.name.name = true := by
    simpa using (checkParam_yields_iff.mp h).1
  obtain ⟨hmem, hsource⟩ := List.mem_filter.mp ha
  have hfound : a.ignoredFinding ∈ (bindingAttributes p.attributes).findings :=
    bindingAttributes_warns hmem (by simpa using hsource)
  have himage : a.ignoredFinding ∈ (checkImage s p).findings :=
    mem_findings_bind (mem_findings_bind hfound _) _
  rw [checkParam_eq, if_neg hnew]
  exact mem_findings_bind (mem_findings_attempt himage) _

theorem checkAttribute_warns {seen : OpAttributes} {a : Attribute}
    (hhttp : a.name.name ≠ "http") (hproduces : a.name.name ≠ "produces") :
    a.ignoredFinding ∈ (checkAttribute s seen a).findings := by
  rw [checkAttribute, if_neg hhttp, if_neg hproduces]
  exact mem_findings_bind (List.mem_singleton_self _) _

/-- An operation that is accepted has a warning for each attribute without effect. -/
theorem checkOp_warns {d : OpDecl} {image : OperationImage} (h : (checkOp s d).Yields image)
    {a : Attribute} (ha : a ∈ d.ignored) : a.ignoredFinding ∈ (checkOp s d).findings := by
  obtain ⟨attrs, route, params, -, -, -, hattrs, hroute, hparams, -, -, -⟩ :=
    checkOp_yields_iff.mp h
  rw [checkOp]
  rcases List.mem_append.mp ha with ha | ha
  · obtain ⟨hmem, hname⟩ := List.mem_filter.mp ha
    have hname : a.name.name ≠ "http" ∧ a.name.name ≠ "produces" := by simpa using hname
    obtain ⟨seen, _, -, hfound⟩ := mem_findings_foldlM (checkAttributes_yields_iff.mp hattrs).1 hmem
    have hchecked : a.ignoredFinding ∈ (checkAttributes s d).findings :=
      mem_findings_bind (hfound _ (checkAttribute_warns hname.1 hname.2)) _
    exact mem_findings_bind hchecked _
  · obtain ⟨p, hp, ha⟩ := List.mem_flatMap.mp ha
    rw [← hroute] at hparams
    obtain ⟨seen, hseen, -⟩ := yields_bind.mp (yields_unlessError.mp hparams)
    obtain ⟨seen, _, hstep, hfound⟩ := mem_findings_foldlM hseen hp
    have hchecked : a.ignoredFinding ∈ (checkParams s d attrs.route).findings :=
      mem_findings_bind (hfound _ (checkParam_warns hstep ha)) _
    exact mem_findings_bind_of_value hattrs.1 (mem_findings_bind (mem_findings_attempt hchecked) _)

end

end EndpointCompiler
