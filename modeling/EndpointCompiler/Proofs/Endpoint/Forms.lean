import EndpointCompiler.Proofs.Endpoint.Requests

/-! What forms bind. A form of one of the module's own shapes binds each of its fields that is sent;
a form of a type of another module binds none of them. -/

namespace EndpointCompiler

open Source

theorem BoundParam.bind_form {p : BoundParam} {call : OperationCall} {body : String}
    (hsource : p.source = .form) (hbody : call.body = some body) :
    p.bind call = bindForm p.formFields (formPairs body) := by
  rw [bind, hsource]
  dsimp only
  rw [hbody]

section

variable {references : ReferenceSet} {o : CompileOptions} {units : List SourceUnit}

/-- Every form is of a type with declared fields. If that is a shape of the module itself and all
its fields that are sent are texts of their types, the form binds them; if it is a type of another
module the form binds no fields at all, whatever is sent. -/
theorem form_binds (hm : IsModulePath o.module) {a : Artifact}
    (h : compile references o units = .ok a) {m : CompiledModule} (hload : a.load = .ok m)
    {op : GeneratedOperation} (hop : .generated op ∈ m.operations) {p : BoundParam}
    (hp : p ∈ op.params) (hform : p.source = .form) {call : OperationCall} {body : String}
    (hbody : call.body = some body) :
    ∃ id name fields, p.type = .declared id name ∧
      (compiledScope references o units).fieldsOf? p.type = some fields ∧
      (id = o.module →
        (∀ f ∈ fields, ∀ raw, WireValues.Last (formPairs body) f.name raw →
          ∃ v, coerceWireValue f.name raw f.type = .ok v) →
        ∃ object, p.bind call = .ok (.object object) ∧
          HoldsForm fields (formPairs body) object) ∧
      (id ≠ o.module → p.bind call = .ok (.object [])) := by
  obtain ⟨e, he, rfl⟩ := compile_eq_ok_iff.mp h
  obtain ⟨image, himage, rfl⟩ := exists_image_of_load hm he hload hop
  obtain ⟨d, hsound⟩ := emit_operations_sound he image himage
  obtain ⟨q, hq, rfl⟩ := List.mem_map.mp hp
  have hscope := emit_scope he
  have hmodule : e.image.module = o.module := by
    obtain ⟨-, rfl⟩ := emit_eq_ok_iff.mp he
    rfl
  obtain ⟨hnames, hfieldNames⟩ := emit_names he
  obtain ⟨fields, hfields⟩ := Option.isSome_iff_exists.mp ((hsound.params q hq).form hform)
  obtain ⟨id, name, htype⟩ := TypeScope.declared_of_fieldsOf? hfields
  -- Loading knows the shapes of the image only, and so no fields of another module's types.
  rw [BoundParam.bind_form hform hbody]
  refine ⟨id, name, fields, htype, hfields, fun hid hvalues => ?_, fun hid => ?_⟩
  · rw [hid, ← hmodule] at htype
    rw [← hscope, htype] at hfields
    obtain ⟨s, hs, rfl, rfl⟩ := exists_shape_of_fieldsOf? hfields
    rw [ModuleImage.boundParam_formFields_own hform htype, ModuleImage.shapeFields_eq hnames hs]
    exact exists_bindForm (hfieldNames s hs) hvalues
  · rw [ModuleImage.boundParam_formFields_other htype (hmodule.symm ▸ hid)]
    rfl

end

/-- A parameter is loaded as its declaration says, which can be shown of the characters of its
unit. -/
theorem exists_loaded_param {references : ReferenceSet} {o : CompileOptions}
    {units : List SourceUnit} {name : String} {cs ds : List Char} (hm : IsModulePath o.module)
    (hmode : o.mode = .release)
    (hunits : units = [⟨name, String.ofList cs ++ String.ofList ds, none⟩])
    (test : TypeScope → BoundParam → Bool)
    (h : (lexemesFrom 0 (cs ++ ds) >>= items).toOption.any (fun items =>
      let p := checkProgram references o.module (units.map fun u => ⟨u, items⟩)
      let m := p.image o
      (p.diagnostics.all fun d => !d.isError) && (decide (m.toJson.Readable Json.maxDepth) &&
        m.operations.any fun op => op.params.any fun q =>
          test (scopeOf references m.module m.shapes) (m.boundParam q))) = true) :
    ∃ a m op p, compile references o units = .ok a ∧ a.load = .ok m ∧
      .generated op ∈ m.operations ∧ p ∈ op.params ∧
      test (compiledScope references o units) p = true := by
  obtain ⟨e, he, htest⟩ := exists_emitted hunits (fun m =>
    decide (m.toJson.Readable Json.maxDepth) && m.operations.any fun op => op.params.any fun q =>
      test (scopeOf references m.module m.shapes) (m.boundParam q)) h
  rw [Bool.and_eq_true, decide_eq_true_eq] at htest
  obtain ⟨image, himage, hany⟩ := List.any_eq_true.mp htest.2
  obtain ⟨q, hq, hpass⟩ := List.any_eq_true.mp hany
  rw [emit_scope he] at hpass
  have hsymbols : e.symbols = none := by
    obtain ⟨-, rfl⟩ := emit_eq_ok_iff.mp he
    simp [hmode]
  have hload := load_emitted hm he ⟨htest.1, by simp [hsymbols]⟩
  exact ⟨_, _, _, _, compile_eq_ok_iff.mpr ⟨e, he, rfl⟩, hload,
    ModuleImage.mem_loaded_operations.mpr (List.mem_map_of_mem himage), List.mem_map_of_mem hq, hpass⟩

theorem exists_values_of_all {fields : List Field} {form : WireValues}
    (h : (fields.all fun f => (form.get? f.name).all fun raw =>
      (coerceWireValue f.name raw f.type).isOk) = true) :
    ∀ f ∈ fields, ∀ raw, form.Last f.name raw → ∃ v, coerceWireValue f.name raw f.type = .ok v := by
  intro f hf raw hraw
  have hall := List.all_eq_true.mp h f hf
  rw [WireValues.get?_eq_some_iff.mpr hraw] at hall
  exact exists_eq_ok hall

/-- A form of a shape of the module. -/
def ownFormUnits : List SourceUnit :=
  [⟨"form",
    "shape S \x7b s: core::String, n: core::Int \x7d #[http(POST, \"/\")] op f(#[form] s: S) " ++
      "-> core::Int \x7b return process::<S, core::Int>(s); \x7d",
    none⟩]

theorem form_binds_own : ∃ a m op p object,
    compile ⟨[Catalog.core]⟩ echoOptions ownFormUnits = .ok a ∧ a.load = .ok m ∧
      .generated op ∈ m.operations ∧ p ∈ op.params ∧ p.source = .form ∧
      p.bind ⟨[], [], some "s=a&n=1&s=b&t=c"⟩ = .ok (.object object) ∧
      Json.field? "s" object = some (.string "b") ∧ Json.field? "t" object = none := by
  have hpath : IsModulePath echoOptions.module := ⟨["shop"], by decide, by decide, rfl⟩
  have hbody : (⟨[], [], some "s=a&n=1&s=b&t=c"⟩ : OperationCall).body = some "s=a&n=1&s=b&t=c" :=
    rfl
  obtain ⟨a, m, op, p, hcompile, hload, hop, hp, htest⟩ : ∃ a m op p,
      compile ⟨[Catalog.core]⟩ echoOptions ownFormUnits = .ok a ∧ a.load = .ok m ∧
        .generated op ∈ m.operations ∧ p ∈ op.params ∧
        (p.source == .form && p.type == .declared "shop" "S" &&
          (compiledScope ⟨[Catalog.core]⟩ echoOptions ownFormUnits).fieldsOf? p.type ==
            some [⟨"s", Primitive.string.type⟩, ⟨"n", Primitive.int.type⟩]) = true :=
    exists_loaded_param hpath rfl rfl (fun s p => p.source == .form &&
      p.type == .declared "shop" "S" && s.fieldsOf? p.type ==
        some [⟨"s", Primitive.string.type⟩, ⟨"n", Primitive.int.type⟩]) (by decide +kernel)
  simp only [Bool.and_eq_true, beq_iff_eq] at htest
  obtain ⟨⟨hform, hS⟩, hdeclared⟩ := htest
  obtain ⟨id, name, fields, htype, hfields, hown, -⟩ :=
    form_binds hpath hcompile hload hop hp hform hbody
  obtain ⟨rfl, rfl⟩ : "shop" = id ∧ "S" = name := by
    simpa [TypeRef.declared] using hS.symm.trans htype
  obtain rfl := Option.some.inj (hdeclared.symm.trans hfields)
  obtain ⟨object, hbind, hholds⟩ := hown rfl (exists_values_of_all (by decide +kernel))
  refine ⟨a, m, op, p, object, hcompile, hload, hop, hp, hform, hbind, ?_, ?_⟩
  · exact (hholds.field? _ _).mpr ⟨_, List.mem_cons_self, rfl, "b",
      WireValues.get?_eq_some_iff.mp (by decide +kernel), rfl⟩
  · cases hvalue : Json.field? "t" object with
    | none => rfl
    | some v =>
      obtain ⟨f, hf, hname, -⟩ := (hholds.field? _ _).mp hvalue
      simp only [List.mem_cons, List.not_mem_nil, or_false] at hf
      rcases hf with rfl | rfl
      · exact absurd hname (by decide)
      · exact absurd hname (by decide)

/-- A module with a type that has a field. -/
def accounts : Module :=
  ⟨"app", .dynamic, [{ TypeInfo.empty "app" "Login" with
    fields := [⟨"user", Primitive.string.type⟩] }]⟩

def otherFormUnits : List SourceUnit :=
  [⟨"login",
    "#[http(POST, \"/login\")] op login(#[form] login: app::Login) -> core::Int " ++
      "\x7b return process::<app::Login, core::Int>(login); \x7d",
    none⟩]

/-- What is sent in a form of a type of another module is not bound. -/
theorem form_of_other_module : ∃ a m op p fields,
    compile ⟨[Catalog.core, accounts]⟩ echoOptions otherFormUnits = .ok a ∧ a.load = .ok m ∧
      .generated op ∈ m.operations ∧ p ∈ op.params ∧ p.source = .form ∧
      (compiledScope ⟨[Catalog.core, accounts]⟩ echoOptions otherFormUnits).fieldsOf? p.type =
        some fields ∧
      (∀ f ∈ fields, ∀ raw, WireValues.Last (formPairs "user=ada") f.name raw →
        ∃ v, coerceWireValue f.name raw f.type = .ok v) ∧
      ¬ ∃ object, p.bind ⟨[], [], some "user=ada"⟩ = .ok (.object object) ∧
        HoldsForm fields (formPairs "user=ada") object := by
  have hpath : IsModulePath echoOptions.module := ⟨["shop"], by decide, by decide, rfl⟩
  obtain ⟨a, m, op, p, hcompile, hload, hop, hp, htest⟩ : ∃ a m op p,
      compile ⟨[Catalog.core, accounts]⟩ echoOptions otherFormUnits = .ok a ∧ a.load = .ok m ∧
        .generated op ∈ m.operations ∧ p ∈ op.params ∧
        (p.source == .form && p.formFields.isEmpty &&
          (compiledScope ⟨[Catalog.core, accounts]⟩ echoOptions otherFormUnits).fieldsOf? p.type ==
            some [⟨"user", Primitive.string.type⟩]) = true :=
    exists_loaded_param hpath rfl rfl (fun s p => p.source == .form && p.formFields.isEmpty &&
      s.fieldsOf? p.type == some [⟨"user", Primitive.string.type⟩]) (by decide +kernel)
  simp only [Bool.and_eq_true, beq_iff_eq, List.isEmpty_iff] at htest
  obtain ⟨⟨hform, hnone⟩, hdeclared⟩ := htest
  refine ⟨a, m, op, p, _, hcompile, hload, hop, hp, hform, hdeclared,
    exists_values_of_all (by decide +kernel), ?_⟩
  rintro ⟨object, hbind, hholds⟩
  rw [BoundParam.bind_form hform rfl, hnone] at hbind
  cases hbind
  have huser := (hholds.field? "user" (.string "ada")).mpr ⟨_, List.mem_cons_self, rfl, "ada",
    WireValues.get?_eq_some_iff.mp (by decide +kernel), rfl⟩
  cases huser

end EndpointCompiler
