import EndpointCompiler.Proofs.Checking.Operation
import EndpointCompiler.Proofs.Compilation.Emission
import EndpointCompiler.Proofs.Image.Codec
import EndpointCompiler.Proofs.Image.Inlining
import EndpointCompiler.Proofs.Source.Types

/-! All types of an emitted image can be written, since its declarations were read from texts. So
the image comes back from its own text. -/

namespace EndpointCompiler

open Source Checked

section

variable {m : ModuleId}

mutual

theorem TypeRef.Writable.qualify (hm : IsModulePath m) {t : TypeRef} (h : t.Writable) :
    (t.qualify m).Writable := by
  match t with
  | .named module name args =>
    obtain ⟨hmodule, hname, hargs, -⟩ := h
    refine ⟨?_, hname, hargs.qualifyAll hm, fun hn => by simp at hn⟩
    rintro _ ⟨⟩
    cases module with
    | none => exact hm
    | some module => exact hmodule module rfl
  | .array t => exact TypeRef.Writable.qualify hm (t := t) h
  | .async t => exact TypeRef.Writable.qualify hm (t := t) h

theorem TypeRef.WritableAll.qualifyAll (hm : IsModulePath m) {ts : List TypeRef}
    (h : TypeRef.WritableAll ts) : TypeRef.WritableAll (TypeRef.qualifyAll m ts) := by
  match ts with
  | [] => trivial
  | t :: ts => exact ⟨h.1.qualify hm, h.2.qualifyAll hm⟩

end

end

section

variable {s : TypeScope} {vars : Vars}

theorem resolve_writable (hs : IsModulePath s.module) {allowAsync : Bool} {t : TypeExpr}
    {r : TypeRef} (ht : t.toTypeRef.Writable) (h : (s.resolve allowAsync t).Yields r) :
    r.Writable := by
  obtain ⟨-, rfl⟩ := (s.resolve_yields_iff allowAsync t r).mp h
  exact ht.qualify hs

/-- All objects that the values in scope make are of types that can be written. -/
def VarsWritable (vars : Vars) : Prop :=
  ∀ name v, vars.find? name = some (some v) → ∀ t ∈ v.value.types, t.Writable

theorem VarsWritable.cons (hv : VarsWritable vars) (name : String) (i : Nat) (t : TypeRef) :
    VarsWritable ((name, some ⟨.local i, t⟩) :: vars) := by
  intro n v h
  rw [Vars.find?_cons] at h
  split at h
  · cases h
    simp [ValueExpr.types]
  · exact hv n v h

theorem ValueExpr.mem_fieldTypes {inits : List (String × ValueExpr)} {t : TypeRef} :
    t ∈ ValueExpr.fieldTypes inits ↔ ∃ i ∈ inits, t ∈ i.2.types := by
  induction inits with
  | nil => simp [ValueExpr.fieldTypes]
  | cons i inits ih => simp [ValueExpr.fieldTypes, ih]

mutual

/-- A value is made only for types that can be written, since its source mentions no others. -/
theorem checkValue_writable (hs : IsModulePath s.module) (hv : VarsWritable vars) (e : Expr)
    {v : TypedValue} (he : AllWritable e.types) (h : (checkValue s vars e).Yields v) :
    ∀ t ∈ v.value.types, t.Writable := by
  match e with
  | .var name => exact hv _ _ (checkValue_var_yields_iff.mp h)
  | .field base name span =>
    obtain ⟨b, fields, f, hb, -, -, rfl⟩ := checkValue_field_yields_iff.mp h
    have hbase : ∀ t ∈ b.value.types, t.Writable := checkValue_writable hs hv base he hb
    exact hbase
  | .new type inits span =>
    obtain ⟨u, fields, values, hu, -, hi, rfl⟩ := checkValue_new_yields_iff.mp h
    obtain ⟨htype, hinits⟩ := allWritable_cons.mp he
    intro t ht
    rcases List.mem_cons.mp ht with rfl | ht
    · exact resolve_writable hs htype hu
    · exact checkInits_writable hs hv inits hinits hi (by simp [ValueExpr.fieldTypes]) t ht
  | .call .. => exact absurd h not_checkValue_call_yields
  | .await .. => exact absurd h not_checkValue_await_yields

theorem checkInits_writable (hs : IsModulePath s.module) (hv : VarsWritable vars)
    (inits : List (Ident × Expr)) {type : TypeRef} {fields : List Field}
    {done values : List (String × ValueExpr)} (he : AllWritable (Expr.fieldTypes inits))
    (h : (checkInits s vars type fields done inits).Yields values)
    (hd : ∀ t ∈ ValueExpr.fieldTypes done, t.Writable) :
    ∀ t ∈ ValueExpr.fieldTypes values, t.Writable := by
  match inits with
  | [] =>
    rw [checkInits_nil_yields_iff.mp h]
    exact hd
  | (name, e) :: inits =>
    obtain ⟨f, v, -, -, hvalue, -, hr⟩ := checkInits_cons_yields_iff.mp h
    obtain ⟨hfirst, hmore⟩ := allWritable_append.mp he
    refine checkInits_writable hs hv inits hmore hr fun t ht => ?_
    obtain ⟨i, hi, ht⟩ := ValueExpr.mem_fieldTypes.mp ht
    rcases List.mem_append.mp hi with hi | hi
    · exact hd t (ValueExpr.mem_fieldTypes.mpr ⟨i, hi, ht⟩)
    · rw [List.mem_singleton.mp hi] at ht
      exact checkValue_writable hs hv e hfirst hvalue t ht

end

theorem CallsBridge.types {isAsync : Bool} {request response : TypeExpr} {arg value : Expr}
    (h : CallsBridge isAsync request response arg value) :
    value.types = request :: response :: arg.types := by
  cases h <;> simp [Expr.types, Expr.allTypes]

variable {op : OpDecl} {result : Option TypeRef}

theorem checkReturn_writable (hs : IsModulePath s.module) (hv : VarsWritable vars) {value : Expr}
    {call : BridgeCall} (he : AllWritable value.types)
    (h : (checkReturn s op result vars value).Yields call) : ∀ t ∈ call.types, t.Writable := by
  obtain ⟨request, response, arg, r, r', v, hcalls, hr, hr', harg, -, -, rfl⟩ :=
    checkReturn_sound h
  rw [hcalls.types, allWritable_cons, allWritable_cons] at he
  obtain ⟨hrequest, hresponse, hargs⟩ := he
  intro t ht
  simp only [BridgeCall.types, List.mem_cons] at ht
  rcases ht with rfl | rfl | ht
  · exact resolve_writable hs hrequest hr
  · exact resolve_writable hs hresponse hr'
  · exact checkValue_writable hs hv arg hargs harg t ht

theorem checkStmts_writable (hs : IsModulePath s.module) {body : List Stmt} {vars : Vars}
    {locals : List ValueExpr} {r : List ValueExpr × BridgeCall}
    (he : ∀ stmt ∈ body, AllWritable stmt.types)
    (h : (checkStmts s op result vars locals body).Yields r) (hv : VarsWritable vars)
    (hl : ∀ e ∈ locals, ∀ t ∈ e.types, t.Writable) :
    (∀ e ∈ r.1, ∀ t ∈ e.types, t.Writable) ∧ ∀ t ∈ r.2.types, t.Writable := by
  induction body generalizing vars locals with
  | nil => simp [checkStmts] at h
  | cons stmt rest ih =>
    obtain ⟨hstmt, hrest⟩ := List.forall_mem_cons.mp he
    cases stmt with
    | bind name value span =>
      obtain ⟨-, v, hvalue, hr⟩ := checkStmts_bind_yields_iff.mp h
      refine ih hrest hr (hv.cons _ _ _) fun e hmem => ?_
      rcases List.mem_append.mp hmem with hmem | hmem
      · exact hl e hmem
      · rw [List.mem_singleton.mp hmem]
        exact checkValue_writable hs hv value hstmt hvalue
    | result value span =>
      cases rest with
      | nil =>
        obtain ⟨hr, hlocals⟩ := checkStmts_result_yields_iff.mp h
        exact ⟨hlocals ▸ hl, checkReturn_writable hs hv hstmt hr⟩
      | cons next more => simp [checkStmts, yields_proceed] at h

theorem foldlM_checkAttribute_writable (hs : IsModulePath s.module) {attrs : List Attribute}
    {seen found : OpAttributes} (he : ∀ a ∈ attrs, AllWritable a.types)
    (h : (attrs.foldlM (checkAttribute s) seen).Yields found)
    (hseen : ∀ t, seen.produces = some t → t.Writable) :
    ∀ t, found.produces = some t → t.Writable := by
  induction attrs generalizing seen with
  | nil =>
    cases yields_pure.mp h
    exact hseen
  | cons a attrs ih =>
    obtain ⟨ha, hmore⟩ := List.forall_mem_cons.mp he
    obtain ⟨seen', hattr, hrest⟩ := yields_foldlM_cons.mp h
    refine ih hmore hrest ?_
    rw [checkAttribute_yields_iff] at hattr
    split at hattr
    · obtain ⟨-, r, -, rfl⟩ := hattr
      exact hseen
    · split at hattr
      · obtain ⟨t, u, hargs, hu, rfl⟩ := hattr
        rintro _ ⟨⟩
        refine resolve_writable hs (ha t ?_) hu
        simp [Attribute.types, hargs, AttributeArg.types]
      · exact hattr ▸ hseen

theorem paramVars_writable {images : List ParamImage} : VarsWritable (paramVars op (some images)) := by
  intro name v hv
  obtain ⟨i, p, -, -, ho⟩ := paramVars_find? hv
  obtain ⟨image, -, rfl⟩ := Option.map_eq_some_iff.mp ho.symm
  simp [ValueExpr.types]

theorem checkOp_writable (hs : IsModulePath s.module) {image : OperationImage}
    (he : AllWritable op.types) (h : (checkOp s op).Yields image) :
    ∀ t ∈ image.types, t.Writable := by
  obtain ⟨attrs, route, params, result, locals, call, ha, -, hp, -, hb, rfl⟩ :=
    checkOp_yields_iff.mp h
  simp only [OpDecl.types, allWritable_append, allWritable_flatMap] at he
  obtain ⟨⟨⟨hattrs, hparams⟩, -⟩, hbody⟩ := he
  obtain ⟨hlocals, hcall⟩ := checkStmts_writable hs hbody hb paramVars_writable (by simp)
  intro t ht
  rcases OperationImage.mem_types.mp ht with ht | ⟨p, hmem, rfl⟩ | ⟨e, hmem, ht⟩ | ht
  · exact foldlM_checkAttribute_writable hs hattrs (checkAttributes_yields_iff.mp ha).1 (by simp) t ht
  · obtain ⟨d, hd, hof⟩ := exists_left_of_forall₂ (checkParams_yields_iff.mp hp).1.each hmem
    exact resolve_writable hs (hparams d hd d.type (by simp [ParamDecl.types])) hof.type
  · exact hlocals e hmem t ht
  · exact hcall t ht

end

namespace ValueExpr

mutual

/-- A replaced expression makes the objects that it made, and those of what stands for locals. -/
theorem mem_types_substitute {done : List ValueExpr} {t : TypeRef} (e : ValueExpr)
    (h : t ∈ (e.substitute done).types) : t ∈ e.types ∨ ∃ d ∈ done, t ∈ d.types := by
  match e with
  | .param i => exact .inl (by rwa [substitute] at h)
  | .local i =>
    rw [substitute] at h
    cases hd : done[i]? with
    | none => simp [hd, types] at h
    | some d => exact .inr ⟨d, List.mem_of_getElem? hd, by simpa [hd] using h⟩
  | .field base name =>
    rw [substitute] at h
    exact mem_types_substitute base h
  | .new type fields =>
    rw [substitute] at h
    rcases List.mem_cons.mp h with rfl | h
    · exact .inl (by simp [types])
    · exact (mem_fieldTypes_substitute fields h).imp_left fun h => List.mem_cons_of_mem _ h

theorem mem_fieldTypes_substitute {done : List ValueExpr} {t : TypeRef}
    (fields : List (String × ValueExpr)) (h : t ∈ fieldTypes (substituteFields done fields)) :
    t ∈ fieldTypes fields ∨ ∃ d ∈ done, t ∈ d.types := by
  match fields with
  | [] => exact .inl (by rwa [substituteFields] at h)
  | (name, value) :: fields =>
    rw [substituteFields] at h
    rcases List.mem_append.mp h with h | h
    · exact (mem_types_substitute value h).imp_left fun h => List.mem_append_left _ h
    · exact (mem_fieldTypes_substitute fields h).imp_left fun h => List.mem_append_right _ h

end

theorem mem_types_expandLocals {locals : List ValueExpr} {t : TypeRef} :
    ∀ d ∈ expandLocals locals, t ∈ d.types → ∃ e ∈ locals, t ∈ e.types := by
  induction locals using List.reverseRecOn with
  | nil => simp
  | append_singleton locals e ih =>
    intro d hd ht
    rw [expandLocals_concat] at hd
    have hold : (∃ d ∈ expandLocals locals, t ∈ d.types) → ∃ e' ∈ locals ++ [e], t ∈ e'.types := by
      rintro ⟨d, hd, ht⟩
      obtain ⟨e', he', ht⟩ := ih d hd ht
      exact ⟨e', List.mem_append_left _ he', ht⟩
    rcases List.mem_append.mp hd with hd | hd
    · exact hold ⟨d, hd, ht⟩
    · rw [List.mem_singleton.mp hd] at ht
      rcases mem_types_substitute e ht with ht | hd
      · exact ⟨e, by simp, ht⟩
      · exact hold hd

end ValueExpr

theorem OperationImage.mem_types_inlineLocals {o : OperationImage} {t : TypeRef}
    (h : t ∈ o.inlineLocals.types) : t ∈ o.types := by
  rw [inlineLocals] at h
  split at h
  · exact h
  · rw [mem_types] at h ⊢
    rcases h with h | h | ⟨e, he, -⟩ | h
    · exact .inl h
    · exact .inr (.inl h)
    · cases he
    · simp only [BridgeCall.types, List.mem_cons] at h ⊢
      rcases h with h | h | h
      · exact .inr (.inr (.inr (.inl h)))
      · exact .inr (.inr (.inr (.inr (.inl h))))
      · rcases ValueExpr.mem_types_substitute _ h with h | ⟨d, hd, ht⟩
        · exact .inr (.inr (.inr (.inr (.inr h))))
        · exact .inr (.inr (.inl (ValueExpr.mem_types_expandLocals d hd ht)))

section

variable {references : ReferenceSet} {o : CompileOptions} {units : List SourceUnit}

theorem parses_writable {parsed : List ParsedUnit} (h : List.Forall₂ Parses units parsed)
    {p : ParsedUnit} (hp : p ∈ parsed) {i : Item} (hi : i ∈ p.items) : AllWritable i.types := by
  obtain ⟨u, -, hu⟩ := exists_left_of_forall₂ h hp
  exact parseSource_writable hu.items i hi

/-- What a compilation emits comes back from its text as far as types go. -/
theorem emit_legible (hm : IsModulePath o.module) {e : Emission}
    (h : emit references o units = .ok e) : ∀ t ∈ e.image.types, t.Legible := by
  obtain ⟨parsed, p, hparsed, hp, himage⟩ := emit_sound h
  intro t ht
  refine TypeRef.Writable.ofText ?_
  rw [himage, ModuleImage.types, List.mem_append, List.mem_flatMap, List.mem_flatMap] at ht
  rcases ht with ⟨shape, hshape, ht⟩ | ⟨op, hop, ht⟩
  · obtain ⟨f, hf, rfl⟩ := List.mem_map.mp ht
    obtain ⟨d, hd, hof⟩ := exists_left_of_forall₂ hp.shapes hshape
    obtain ⟨u, hu, -, hi⟩ := mem_declaredShapes.mp hd
    obtain ⟨fd, hfd, hfield⟩ := exists_left_of_forall₂ hof.fields.each hf
    exact resolve_writable hm (allWritable_map.mp (parses_writable hparsed hu hi) fd hfd) hfield.type
  · have hops : ∃ op' ∈ p.operations, t ∈ op'.types := by
      cases hmode : o.mode with
      | debug =>
        simp only [CheckedProgram.image, hmode] at hop
        exact ⟨op, hop, ht⟩
      | release =>
        simp only [CheckedProgram.image, hmode] at hop
        obtain ⟨op', hop', rfl⟩ := List.mem_map.mp hop
        exact ⟨op', hop', OperationImage.mem_types_inlineLocals ht⟩
    obtain ⟨op', hop', ht⟩ := hops
    obtain ⟨d, hd, hof⟩ := exists_left_of_forall₂ hp.operations hop'
    obtain ⟨u, hu, -, hi⟩ := mem_declaredOps.mp hd
    exact checkOp_writable hm (parses_writable hparsed hu hi) hof t ht

end

end EndpointCompiler
