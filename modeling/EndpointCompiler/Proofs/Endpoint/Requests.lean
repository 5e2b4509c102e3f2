import EndpointCompiler.Proofs.Compilation.Loaded
import EndpointCompiler.Proofs.Endpoint.Binding

/-! What operations hand on. The values that are bound suit the types of the parameters, so the
objects that are made of them suit the types that they are made for, as long as no object is made
where a primitive value is asked for. -/

namespace EndpointCompiler

open Source

namespace ValueExpr

mutual

/-- The objects that an expression makes: of each its type and its initialisers. -/
def objects : ValueExpr → List (TypeRef × List (String × ValueExpr))
  | .param _ | .local _ => []
  | .field base _ => base.objects
  | .new t inits => (t, inits) :: objectsOfAll inits

def objectsOfAll : List (String × ValueExpr) → List (TypeRef × List (String × ValueExpr))
  | [] => []
  | (_, value) :: inits => value.objects ++ objectsOfAll inits

end

mutual

/-- The objects within an object of an expression are its own. -/
theorem mem_objects_trans {e : ValueExpr} {x y : TypeRef × List (String × ValueExpr)}
    (hx : x ∈ e.objects) (hy : y ∈ (ValueExpr.new x.1 x.2).objects) : y ∈ e.objects := by
  match e with
  | .param _ | .local _ => cases hx
  | .field base _ => exact mem_objects_trans (e := base) hx hy
  | .new t inits =>
    rcases List.mem_cons.mp hx with rfl | hx
    · exact hy
    · exact List.mem_cons_of_mem _ (mem_objectsOfAll_trans hx hy)

theorem mem_objectsOfAll_trans {inits : List (String × ValueExpr)}
    {x y : TypeRef × List (String × ValueExpr)} (hx : x ∈ objectsOfAll inits)
    (hy : y ∈ (ValueExpr.new x.1 x.2).objects) : y ∈ objectsOfAll inits := by
  match inits with
  | [] => cases hx
  | (_, value) :: inits =>
    rcases List.mem_append.mp hx with hx | hx
    · exact List.mem_append_left _ (mem_objects_trans hx hy)
    · exact List.mem_append_right _ (mem_objectsOfAll_trans hx hy)

end

end ValueExpr

/-- The objects that a request is made of, whatever locals they go through. -/
def GeneratedOperation.objects (op : GeneratedOperation) :
    List (TypeRef × List (String × ValueExpr)) :=
  (op.call.arg.substitute (ValueExpr.expandLocals op.locals)).objects

/-- Not a type whose values are written as texts. -/
def TypeRef.IsObjectLike (t : TypeRef) : Prop :=
  ∀ q, t.primitive? = some q → q = .object

section

variable {s : TypeScope} {types : List TypeRef} {values : List Json}

mutual

theorem HasType.of_objects : ∀ {e : ValueExpr} {t : TypeRef}, HasType s types [] e t →
    ∀ x ∈ e.objects, HasType s types [] (.new x.1 x.2) x.1
  | _, _, .param _, _, hx => by cases hx
  | _, _, .field hb _ _, _, hx => hb.of_objects _ hx
  | _, _, .new hf hn hi, x, hx => by
    rcases List.mem_cons.mp hx with rfl | hx
    · exact .new hf hn hi
    · exact hi.of_objects x hx

theorem HaveTypes.of_objects : ∀ {declared : List Field} {inits : List (String × ValueExpr)},
    HaveTypes s types [] declared inits →
    ∀ x ∈ ValueExpr.objectsOfAll inits, HasType s types [] (.new x.1 x.2) x.1
  | _, _, .nil, _, hx => by cases hx
  | _, _, .cons _ hv _ hi, x, hx => by
    rcases List.mem_append.mp hx with hx | hx
    · exact hv.of_objects x hx
    · exact hi.of_objects x hx

end

/-- Objects have no fields that are declared. -/
def TypeScope.PlainObjects (s : TypeScope) : Prop :=
  ∀ fields, s.fieldsOf? objectType = some fields → fields = []

mutual

/-- A well-typed expression comes to a value that suits its type, if the parameters do and no object
is made where a primitive value is asked for. -/
theorem HasType.fits (hobject : s.PlainObjects)
    (hvalues : ∀ (i : Nat) t, types[i]? = some t → Fits s t (values[i]?.getD .null)) :
    ∀ {e : ValueExpr} {t : TypeRef}, HasType s types [] e t → (∀ x ∈ e.objects, x.1.IsObjectLike) →
      Fits s t (e.eval values [])
  | .param i, t, .param hp, _ => by
    rw [ValueExpr.eval]
    exact hvalues i t hp
  | .field base name, _, .field hb hf hn, hnew => by
    rw [ValueExpr.eval]
    exact (hb.fits hobject hvalues hnew).member hf hn
  | .new t inits, _, .new hf _ hi, hnew => by
    rw [ValueExpr.objects, List.forall_mem_cons] at hnew
    rw [ValueExpr.eval]
    refine fits_of_members (fun q hq => ?_) fun fields name u hfields hu => ?_
    · obtain rfl := hnew.1 q hq
      exact .inr trivial
    · obtain rfl := Option.some.inj (hf.symm.trans hfields)
      exact hi.fits hobject hvalues hnew.2 (fun _ _ _ => fits_null) hu

/-- Initialisers keep what the fields of an object suit. -/
theorem HaveTypes.fits (hobject : s.PlainObjects)
    (hvalues : ∀ (i : Nat) t, types[i]? = some t → Fits s t (values[i]?.getD .null)) :
    ∀ {declared : List Field} {inits : List (String × ValueExpr)} {object : List (String × Json)},
      HaveTypes s types [] declared inits →
      (∀ x ∈ ValueExpr.objectsOfAll inits, x.1.IsObjectLike) →
      (∀ name u, declaredType? declared name = some u → Fits s u (Json.member name (.object object))) →
      ∀ {name u}, declaredType? declared name = some u →
        Fits s u (Json.member name (.object (ValueExpr.evalFields values [] inits object)))
  | _, _, _, .nil, _, hacc, name, u, hu => by
    rw [ValueExpr.evalFields]
    exact hacc name u hu
  | declared, (n, value) :: inits, object, .cons hn hv ha hi, hnew, hacc, name, u, hu => by
    rw [ValueExpr.objectsOfAll, List.forall_mem_append] at hnew
    rw [ValueExpr.evalFields]
    have hvalue := hv.fits hobject hvalues hnew.1
    refine hi.fits hobject hvalues hnew.2 (fun m w hw => ?_) hu
    rw [Json.member, Json.field?_insertField]
    by_cases hname : m = n
    · rw [if_pos hname, Option.getD_some]
      obtain rfl := Option.some.inj (hn.symm.trans (hname ▸ hw))
      rcases ha with rfl | rfl
      · exact hvalue
      · exact fits_object hobject
    · rw [if_neg hname]
      exact hacc m w hw

end

end

theorem GeneratedOperation.evaluate_eq (op : GeneratedOperation) (values : List Json) :
    op.evaluate values =
      (op.call.arg.substitute (ValueExpr.expandLocals op.locals)).eval values [] := by
  rw [evaluate, ValueExpr.eval_substitute, ValueExpr.eval_expandLocals]

section

variable {s : TypeScope} {b : BoundParam} {call : OperationCall} {v : Json}

/-- A parameter whose form, if it is one, has the fields of its type, or none. -/
def BoundParam.FormOf (s : TypeScope) (b : BoundParam) : Prop :=
  b.source = .form → b.formFields = [] ∨
    s.fieldsOf? b.type = some b.formFields ∧ (b.formFields.map (·.name)).Nodup

/-- What is bound to a parameter suits its type, unless it is a body. -/
theorem BoundParam.bind_fits (h : b.bind call = .ok v) (hbody : b.source ≠ .body)
    (hform : b.source = .form → b.type.IsObjectLike) (hfields : b.FormOf s) : Fits s b.type v := by
  unfold BoundParam.bind at h
  cases hsource : b.source with
  | body => exact absurd hsource hbody
  | path =>
    rw [hsource] at h
    dsimp only at h
    split at h
    · exact fits_of_coerce h
    · cases h
  | query =>
    rw [hsource] at h
    dsimp only at h
    split at h
    · exact fits_of_coerce h
    · cases h
      exact fits_null
  | form =>
    rw [hsource] at h
    dsimp only at h
    split at h
    · refine fits_of_members (fun q hq => ?_) fun fields name u hdeclared hu => ?_
      · obtain rfl := hform hsource q hq
        exact .inr trivial
      · rcases hfields hsource with hnone | ⟨hfields, hnames⟩
        · rw [hnone] at h
          cases h
          exact fits_null
        · obtain rfl := Option.some.inj (hfields.symm.trans hdeclared)
          exact bindForm_members h hnames hu
    · cases h

end

theorem TypeScope.declared_of_fieldsOf? {s : TypeScope} {t : TypeRef} {fields : List Field}
    (h : s.fieldsOf? t = some fields) : ∃ id name, t = .declared id name := by
  unfold fieldsOf? at h
  split at h
  · exact ⟨_, _, rfl⟩
  · cases h

/-- The fields of one of the scope's own types are those of a shape. -/
theorem exists_shape_of_fieldsOf? {references : ReferenceSet} {module : ModuleId}
    {shapes : List ShapeImage} {name : String} {fields : List Field}
    (h : (scopeOf references module shapes).fieldsOf? (.declared module name) = some fields) :
    ∃ s ∈ shapes, s.name = name ∧ s.fields = fields := by
  have hmodule : module = (scopeOf references module shapes).module := rfl
  rw [TypeRef.declared, TypeScope.fieldsOf?, if_pos hmodule] at h
  obtain ⟨entry, hentry, rfl⟩ := Option.map_eq_some_iff.mp h
  obtain ⟨s, hs, rfl⟩ := List.mem_map.mp (List.mem_of_find?_eq_some hentry)
  exact ⟨s, hs, by simpa using List.find?_some hentry, rfl⟩

namespace ModuleImage

variable {m : ModuleImage} {p : ParamImage} {id name : String}

theorem boundParam_formFields_own (hsource : p.source = .form)
    (htype : p.type = .declared m.module name) :
    (m.boundParam p).formFields = m.shapeFields name := by
  rw [boundParam, hsource, htype]
  exact if_pos rfl

theorem boundParam_formFields_other (htype : p.type = .declared id name) (hid : id ≠ m.module) :
    (m.boundParam p).formFields = [] := by
  rw [boundParam, htype]
  cases p.source <;> first | rfl | exact if_neg hid

/-- The fields of a form are those of its type, if that is a shape of the module itself. -/
theorem boundParam_formOf (references : ReferenceSet) (hnames : (m.shapes.map (·.name)).Nodup)
    (hfields : ∀ s ∈ m.shapes, (s.fields.map (·.name)).Nodup)
    (hp : p.source = .form → ((scopeOf references m.module m.shapes).fieldsOf? p.type).isSome = true) :
    (m.boundParam p).FormOf (scopeOf references m.module m.shapes) := by
  intro hsource
  have hsource : p.source = .form := hsource
  obtain ⟨fields, hdeclared⟩ := Option.isSome_iff_exists.mp (hp hsource)
  obtain ⟨id, name, htype⟩ := TypeScope.declared_of_fieldsOf? hdeclared
  by_cases hid : id = m.module
  · rw [hid] at htype
    rw [htype] at hdeclared
    obtain ⟨s, hs, rfl, rfl⟩ := exists_shape_of_fieldsOf? hdeclared
    have htyped : (m.boundParam p).type = .declared m.module s.name := htype
    rw [boundParam_formFields_own hsource htype, shapeFields_eq hnames hs, htyped]
    exact .inr ⟨hdeclared, hfields s hs⟩
  · exact .inl (boundParam_formFields_other htype hid)

end ModuleImage

section

variable {references : ReferenceSet} {o : CompileOptions} {units : List SourceUnit}

/-- The scope that a compilation's operations were checked in. -/
def compiledScope (references : ReferenceSet) (o : CompileOptions) (units : List SourceUnit) :
    TypeScope :=
  scopeOf references o.module (checkProgram references o.module (parseUnits units).1).shapes

theorem emit_scope {e : Emission} (h : emit references o units = .ok e) :
    scopeOf references e.image.module e.image.shapes = compiledScope references o units := by
  obtain ⟨-, rfl⟩ := emit_eq_ok_iff.mp h
  rfl

theorem emit_names {e : Emission} (h : emit references o units = .ok e) :
    (e.image.shapes.map (·.name)).Nodup ∧ ∀ s ∈ e.image.shapes, (s.fields.map (·.name)).Nodup := by
  obtain ⟨parsed, p, -, hp, himage⟩ := emit_sound h
  have hshapes : e.image.shapes = p.shapes := by rw [himage, CheckedProgram.image]
  rw [hshapes]
  constructor
  · rw [map_eq_map_of_forall₂ (fun _ _ hs => hs.name) hp.shapes]
    exact hp.shapeNames
  · intro s hs
    obtain ⟨d, -, hof⟩ := exists_left_of_forall₂ hp.shapes hs
    rw [map_eq_map_of_forall₂ (fun _ _ hf => hf.name) hof.fields.each]
    exact hof.fields.names

theorem emit_operations_sound {e : Emission} (h : emit references o units = .ok e) :
    ∀ image ∈ e.image.operations, ∃ d, SoundFor (compiledScope references o units) d image := by
  have hscope := emit_scope h
  obtain ⟨parsed, p, -, hp, himage⟩ := emit_sound h
  have hsound := hp.image_operations (fun _ _ hy => checkOp_sound hy) fun _ _ hs => hs.inlineLocals
  have hmodule : scopeOf references o.module p.shapes = compiledScope references o units := by
    rw [← hscope, himage, CheckedProgram.image]
  rw [hmodule, ← himage] at hsound
  intro op hop
  obtain ⟨d, -, hd⟩ := exists_left_of_forall₂ hsound hop
  exact ⟨d.2, hd⟩

theorem ModuleImage.mem_loaded_operations {m : ModuleImage} {symbols : Option SymbolTable}
    {op : GeneratedOperation} : .generated op ∈ (m.loaded symbols).operations ↔
      op ∈ m.operations.map (m.loadedOperation symbols) := by
  rw [loaded_operations]
  simp

theorem loaded_of_load (hm : IsModulePath o.module) {e : Emission}
    (h : emit references o units = .ok e) {m : CompiledModule}
    (hload : (e.artifact o units).load = .ok m) : m = e.image.loaded e.symbols := by
  have hformat : e.image.format = imageFormat := by
    obtain ⟨-, rfl⟩ := emit_eq_ok_iff.mp h
    rfl
  have himage := Emission.load_of_load_artifact (emit_legible hm h) hformat hload
  exact (ModuleImage.load_eq_ok_iff.mp himage).2

/-- A loaded operation is one of the image. -/
theorem exists_image_of_load (hm : IsModulePath o.module) {e : Emission}
    (h : emit references o units = .ok e) {m : CompiledModule}
    (hload : (e.artifact o units).load = .ok m) {op : GeneratedOperation}
    (hop : .generated op ∈ m.operations) :
    ∃ image ∈ e.image.operations, op = e.image.loadedOperation e.symbols image := by
  obtain rfl := loaded_of_load hm h hload
  obtain ⟨image, hmem, rfl⟩ := List.mem_map.mp (ModuleImage.mem_loaded_operations.mp hop)
  exact ⟨image, hmem, rfl⟩

/-- The request of a call without a body suits its type, and so does every object that it is made
of: where a field is declared with a primitive type it has a value of that type, or null. -/
theorem request_fits (hm : IsModulePath o.module) {a : Artifact}
    (h : compile references o units = .ok a) {m : CompiledModule} (hload : a.load = .ok m)
    (hobject : (compiledScope references o units).PlainObjects) {op : GeneratedOperation}
    (hop : .generated op ∈ m.operations) (hbody : ∀ p ∈ op.params, p.source ≠ .body)
    (hform : ∀ p ∈ op.params, p.source = .form → p.type.IsObjectLike)
    (hnew : ∀ x ∈ op.objects, x.1.IsObjectLike) {call : OperationCall} {values : List Json}
    (hbind : op.bind call = .ok values) :
    (∃ t, (t = op.call.request ∨ op.call.request = objectType) ∧
      Fits (compiledScope references o units) t (op.evaluate values)) ∧
    ∀ x ∈ op.objects, Fits (compiledScope references o units) x.1
      ((ValueExpr.new x.1 x.2).eval values []) := by
  obtain ⟨e, he, rfl⟩ := compile_eq_ok_iff.mp h
  obtain ⟨image, himage, rfl⟩ := exists_image_of_load hm he hload hop
  obtain ⟨d, hsound⟩ := emit_operations_sound he image himage
  obtain ⟨hnames, hfields⟩ := emit_names he
  obtain ⟨types, t, hlocals, harg, hsuits⟩ := hsound.typed
  -- The request is the argument with the values of the locals put into it, which keeps its type.
  have htyped := harg.substitute hlocals.expanded
  have hbound : List.Forall₂ (fun p v => Fits (compiledScope references o units) p.type v)
      image.params values := by
    have hall := forall₂_of_mapM hbind
    rw [ModuleImage.loadedOperation, List.forall₂_map_left_iff] at hall
    refine List.Forall₂.imp ?_ ((List.forall₂_and_left _ _).mpr ⟨fun p hp => hp, hall⟩)
    rintro p v ⟨hp, hv⟩
    have hmem : e.image.boundParam p ∈ (e.image.loadedOperation e.symbols image).params :=
      List.mem_map_of_mem hp
    have hformOf := ModuleImage.boundParam_formOf references hnames hfields (p := p)
      fun hsource => (emit_scope he).symm ▸ (hsound.params p hp).form hsource
    rw [emit_scope he] at hformOf
    exact BoundParam.bind_fits hv (hbody _ hmem) (hform _ hmem) hformOf
  have hvalues : ∀ (i : Nat) t, (image.params.map (·.type))[i]? = some t →
      Fits (compiledScope references o units) t (values[i]?.getD .null) := by
    intro i t ht
    rw [List.getElem?_map] at ht
    obtain ⟨p, hp, rfl⟩ := Option.map_eq_some_iff.mp ht
    obtain ⟨v, hv, hfits⟩ := getElem?_of_forall₂ hbound hp
    rw [hv, Option.getD_some]
    exact hfits
  refine ⟨⟨t, hsuits, ?_⟩, fun x hx => ?_⟩
  · rw [GeneratedOperation.evaluate_eq]
    exact htyped.fits hobject hvalues hnew
  · exact (htyped.of_objects x hx).fits hobject hvalues fun y hy =>
      hnew y (ValueExpr.mem_objects_trans hx hy)

end

theorem request_fits_echo : ∃ a m op values,
    compile ⟨[Catalog.core]⟩ echoOptions echoUnits = .ok a ∧ a.load = .ok m ∧
      .generated op ∈ m.operations ∧ op.bind ⟨[], [("n", "5")], none⟩ = .ok values ∧
      op.objects ≠ [] ∧ ∀ x ∈ op.objects, Fits (compiledScope ⟨[Catalog.core]⟩ echoOptions echoUnits)
        x.1 ((ValueExpr.new x.1 x.2).eval values []) := by
  have hpath : IsModulePath echoOptions.module := ⟨["shop"], by decide, by decide, rfl⟩
  have hplain : (compiledScope ⟨[Catalog.core]⟩ echoOptions echoUnits).PlainObjects := by
    have hnone : (compiledScope ⟨[Catalog.core]⟩ echoOptions echoUnits).fieldsOf? objectType =
      some [] := by decide +kernel
    exact fun fields hfields => (Option.some.inj (hnone.symm.trans hfields)).symm
  obtain ⟨e, he, htest⟩ : ∃ e, emit ⟨[Catalog.core]⟩ echoOptions echoUnits = .ok e ∧
      ((e.image.operations.map (e.image.loadedOperation e.symbols)).head?.any fun op =>
        op.params.all (·.source == .query) && !op.objects.isEmpty &&
          op.objects.all (·.1.primitive? == none) && (op.bind ⟨[], [("n", "5")], none⟩).isOk) =
        true := exists_emit_of_any (by decide +kernel)
  obtain ⟨op, hfirst, htest⟩ := (Option.any_eq_true _ _).mp htest
  simp only [Bool.and_eq_true, List.all_eq_true, beq_iff_eq] at htest
  obtain ⟨⟨⟨hparams, hsome⟩, hobjects⟩, hbind⟩ := htest
  have hop : .generated op ∈ (e.image.loaded e.symbols).operations := by
    rw [ModuleImage.mem_loaded_operations]
    exact List.mem_of_mem_head? hfirst
  cases hvalues : op.bind ⟨[], [("n", "5")], none⟩ with
  | error error =>
    rw [hvalues] at hbind
    cases hbind
  | ok values =>
    have hload := load_emitted hpath he (echo_readable .release e he)
    have hcompile := compile_eq_ok_iff.mpr ⟨e, he, rfl⟩
    refine ⟨_, _, op, values, hcompile, hload, hop, hvalues, by simpa using hsome, ?_⟩
    refine (request_fits hpath hcompile hload hplain hop (fun p hp hb => ?_) (fun p hp hf => ?_)
      (fun x hx q hq => ?_) hvalues).2
    · rw [hparams p hp] at hb
      cases hb
    · rw [hparams p hp] at hf
      cases hf
    · rw [hobjects x hx] at hq
      cases hq

def Json.isObject : Json → Bool
  | .object _ => true
  | _ => false

/-- A number field that is set to a new object of the type of numbers. -/
def constructedUnits : List SourceUnit :=
  [⟨"constructed",
    "shape S \x7b n: core::Int \x7d #[http(GET, \"/\")] op f() -> core::Int " ++
      "\x7b return process::<S, core::Int>(new S \x7b n = new core::Int \x7b \x7d \x7d); \x7d",
    none⟩]

/-- Types without a declared field are constructed like any others. -/
theorem request_constructed : ∃ a m op values fields,
    compile ⟨[Catalog.core]⟩ echoOptions constructedUnits = .ok a ∧ a.load = .ok m ∧
      .generated op ∈ m.operations ∧ op.params = [] ∧ op.bind ⟨[], [], none⟩ = .ok values ∧
      (compiledScope ⟨[Catalog.core]⟩ echoOptions constructedUnits).fieldsOf? op.call.request =
        some fields ∧ declaredType? fields "n" = some Primitive.int.type ∧
      (op.evaluate values).member "n" ≠ .null ∧
      ¬ Primitive.int.Holds ((op.evaluate values).member "n") := by
  have hpath : IsModulePath echoOptions.module := ⟨["shop"], by decide, by decide, rfl⟩
  -- One evaluation for both: the text is decoded once.
  obtain ⟨hfields, hemitted⟩ : (compiledScope ⟨[Catalog.core]⟩ echoOptions
      constructedUnits).fieldsOf? (.declared "shop" "S") = some [⟨"n", Primitive.int.type⟩] ∧
      ((emit ⟨[Catalog.core]⟩ echoOptions constructedUnits).toOption.any fun e =>
        decide e.Readable &&
          (e.image.operations.map (e.image.loadedOperation e.symbols)).head?.any fun op =>
            op.params.isEmpty && op.call.request == .declared "shop" "S" &&
              ((op.evaluate []).member "n").isObject) = true := by decide +kernel
  obtain ⟨e, he, htest⟩ := exists_emit_of_any hemitted
  rw [Bool.and_eq_true, decide_eq_true_eq] at htest
  obtain ⟨hreadable, htest⟩ := htest
  obtain ⟨op, hfirst, htest⟩ := (Option.any_eq_true _ _).mp htest
  simp only [Bool.and_eq_true, beq_iff_eq, List.isEmpty_iff] at htest
  obtain ⟨⟨hparams, hrequest⟩, hvalue⟩ := htest
  have hop : .generated op ∈ (e.image.loaded e.symbols).operations := by
    rw [ModuleImage.mem_loaded_operations]
    exact List.mem_of_mem_head? hfirst
  have hbind : op.bind ⟨[], [], none⟩ = .ok [] := by
    rw [GeneratedOperation.bind, hparams]
    rfl
  refine ⟨_, _, op, [], _, compile_eq_ok_iff.mpr ⟨e, he, rfl⟩, load_emitted hpath he hreadable,
    hop, hparams, hbind, hrequest ▸ hfields, by decide +kernel, ?_, ?_⟩
  · intro hnull
    rw [hnull] at hvalue
    cases hvalue
  · rintro ⟨n, hn, -⟩
    rw [hn] at hvalue
    cases hvalue

end EndpointCompiler
