import EndpointCompiler.Proofs.Build.Declared
import EndpointCompiler.Proofs.Endpoint.Binding

/-! What a call holds for a definition: for each group of bindings either the values of its
properties or the one error with which its parameter fails. Both are said without the binding of
parameters, which is proved to bind and to fail in just these ways. -/

namespace EndpointCompiler

/-- Nothing but white space. -/
def Blank (text : String) : Prop :=
  ∀ c ∈ text.toList, isWhiteSpace c = true

theorem trim_isEmpty_iff {text : String} : (trim text.toList).isEmpty = true ↔ Blank text := by
  rw [trim, List.isEmpty_iff, List.reverse_eq_nil_iff, List.dropWhile_eq_nil_iff]
  constructor
  · intro h c hc
    rw [← text.toList.takeWhile_append_dropWhile (p := isWhiteSpace), List.mem_append] at hc
    rcases hc with hc | hc
    · exact List.mem_takeWhile_imp hc
    · exact h c (List.mem_reverse.mpr hc)
  · intro h c hc
    exact h c ((List.dropWhile_sublist isWhiteSpace).mem (List.mem_reverse.mp hc))

/-- The body of a call that is not blank, if there is one. -/
theorem filter_blank_eq_some_iff {body : Option String} {text : String} :
    (body.filter fun text => !(trim text.toList).isEmpty) = some text ↔
      body = some text ∧ ¬ Blank text := by
  rw [Option.filter_eq_some_iff, Bool.not_eq_true', ← Bool.not_eq_true, trim_isEmpty_iff]

theorem filter_blank_eq_none_iff {body : Option String} :
    (body.filter fun text => !(trim text.toList).isEmpty) = none ↔
      ∀ text, body = some text → Blank text := by
  rw [Option.filter_eq_none_iff]
  refine forall₂_congr fun text _ => ?_
  rw [Bool.not_eq_true', Bool.not_eq_false, trim_isEmpty_iff]

namespace HandlerDefinition

/-- The type as which a text of the path or the query is read: that of the first binding. -/
def wireType (d : HandlerDefinition) (key : Bool × String) : TypeRef :=
  ((bindingsOf d.parameters key).head?.map (·.type)).getD objectType

def bodyFields (d : HandlerDefinition) : List Field :=
  d.bodyLike.map fun b => ⟨b.source, b.type⟩

/-- The parameter for the bindings of a key. -/
def wireParam (d : HandlerDefinition) (name : String) (key : Bool × String) : BoundParam :=
  ⟨name, key.2, d.sourceOf key, d.wireType key, d.bodyFields⟩

/-- The value of a property in a call. What the path or the query holds for a group is read as the
type of its first binding, and what a form holds for a property as the type of its own; of several
texts of one name the last counts. A query parameter, a member of a body and a field of a form are
null if they are absent. -/
inductive Delivers (d : HandlerDefinition) (call : OperationCall) (b : ParameterBinding) :
    Json → Prop where
  | path {raw : String} {v : Json} : d.sourceOf b.wireKey = .path →
      call.path.get? b.target = some raw →
      coerceWireValue b.target raw (d.wireType b.wireKey) = .ok v → Delivers d call b v
  | query {raw : String} {v : Json} : d.sourceOf b.wireKey = .query →
      call.query.get? b.target = some raw →
      coerceWireValue b.target raw (d.wireType b.wireKey) = .ok v → Delivers d call b v
  | noQuery : d.sourceOf b.wireKey = .query → call.query.get? b.target = none →
      Delivers d call b .null
  | body {text : String} {document : Json} : d.sourceOf b.wireKey = .body →
      call.body = some text → ¬ Blank text → Json.read text = .ok document →
      Delivers d call b (document.normalize.member b.source)
  | form {text raw : String} {v : Json} : d.sourceOf b.wireKey = .form → call.body = some text →
      WireValues.get? (formPairs text) b.source = some raw →
      coerceWireValue b.source raw b.type = .ok v → Delivers d call b v
  | noForm {text : String} : d.sourceOf b.wireKey = .form → call.body = some text →
      WireValues.get? (formPairs text) b.source = none → Delivers d call b .null

/-- The ways in which the parameter for a group fails in a call, given its name. A path parameter is
missing or is not of its type, a query parameter only the latter. There may be no body, or it is
blank or no document. A form may be missing, and its first field that is not of its type counts. -/
inductive Fails (d : HandlerDefinition) (name : String) (call : OperationCall)
    (key : Bool × String) : BindingError → Prop where
  | noPath : d.sourceOf key = .path → call.path.get? key.2 = none →
      Fails d name call key (.missingPathParam key.2)
  | path {raw : String} : d.sourceOf key = .path → call.path.get? key.2 = some raw →
      Unreadable raw (d.wireType key) →
      Fails d name call key (.invalidValue key.2 (d.wireType key) raw)
  | query {raw : String} : d.sourceOf key = .query → call.query.get? key.2 = some raw →
      Unreadable raw (d.wireType key) →
      Fails d name call key (.invalidValue key.2 (d.wireType key) raw)
  | noBody : d.sourceOf key = .body → (∀ text, call.body = some text → Blank text) →
      Fails d name call key (.missingBody name)
  | body {text : String} {e : Json.SyntaxError} : d.sourceOf key = .body →
      call.body = some text → ¬ Blank text → Json.read text = .error e →
      Fails d name call key (.invalidBody name e)
  | noForm : d.sourceOf key = .form → call.body = none → Fails d name call key (.missingBody name)
  | form {text raw : String} {before after : List ParameterBinding} {b : ParameterBinding} :
      d.sourceOf key = .form → call.body = some text →
      bindingsOf d.parameters key = before ++ b :: after →
      (∀ b' ∈ before, ∀ raw, WireValues.get? (formPairs text) b'.source = some raw →
        ¬ Unreadable raw b'.type) →
      WireValues.get? (formPairs text) b.source = some raw → Unreadable raw b.type →
      Fails d name call key (.invalidValue b.source b.type raw)

/-- The error of the first parameter that fails in a call, given the names of parameters. -/
def FirstError (d : HandlerDefinition) (names : Bool × String → String) (call : OperationCall)
    (e : BindingError) : Prop :=
  ∃ before key after, wireKeys d.parameters = before ++ key :: after ∧
    (∀ k ∈ before, ∀ e', ¬ d.Fails (names k) call k e') ∧ d.Fails (names key) call key e

/-- A request with the properties of a definition and no others, as a call has them. -/
structure Fills (d : HandlerDefinition) (call : OperationCall) (request : List (String × Json)) :
    Prop where
  names : (request.map (·.1)).Perm (d.parameters.map (·.source))
  values : ∀ b ∈ d.parameters, ∃ v, Json.field? b.source request = some v ∧ d.Delivers call b v
  sorted : SortedByName (·.1) request

section

variable {d : HandlerDefinition} {call : OperationCall} {b : ParameterBinding} {name : String}
  {key : Bool × String} {v : Json} {e : BindingError}

theorem delivers_path_iff (h : d.sourceOf b.wireKey = .path) : d.Delivers call b v ↔
    ∃ raw, call.path.get? b.target = some raw ∧
      coerceWireValue b.target raw (d.wireType b.wireKey) = .ok v := by
  constructor
  · intro hv
    cases hv with
    | path _ hraw hv => exact ⟨_, hraw, hv⟩
    | query hs | noQuery hs | body hs | form hs | noForm hs => cases h.symm.trans hs
  · rintro ⟨raw, hraw, hv⟩
    exact .path h hraw hv

theorem delivers_query_iff (h : d.sourceOf b.wireKey = .query) : d.Delivers call b v ↔
    (∃ raw, call.query.get? b.target = some raw ∧
      coerceWireValue b.target raw (d.wireType b.wireKey) = .ok v) ∨
      call.query.get? b.target = none ∧ v = .null := by
  constructor
  · intro hv
    cases hv with
    | query _ hraw hv => exact .inl ⟨_, hraw, hv⟩
    | noQuery _ hnone => exact .inr ⟨hnone, rfl⟩
    | path hs | body hs | form hs | noForm hs => cases h.symm.trans hs
  · rintro (⟨raw, hraw, hv⟩ | ⟨hnone, rfl⟩)
    · exact .query h hraw hv
    · exact .noQuery h hnone

theorem delivers_body_iff (h : d.sourceOf b.wireKey = .body) : d.Delivers call b v ↔
    ∃ text document, call.body = some text ∧ ¬ Blank text ∧ Json.read text = .ok document ∧
      v = document.normalize.member b.source := by
  constructor
  · intro hv
    cases hv with
    | body _ htext hblank hread => exact ⟨_, _, htext, hblank, hread, rfl⟩
    | path hs | query hs | noQuery hs | form hs | noForm hs => cases h.symm.trans hs
  · rintro ⟨text, document, htext, hblank, hread, rfl⟩
    exact .body h htext hblank hread

theorem delivers_form_iff (h : d.sourceOf b.wireKey = .form) : d.Delivers call b v ↔
    ∃ text, call.body = some text ∧
      ((∃ raw, WireValues.get? (formPairs text) b.source = some raw ∧
        coerceWireValue b.source raw b.type = .ok v) ∨
        WireValues.get? (formPairs text) b.source = none ∧ v = .null) := by
  constructor
  · intro hv
    cases hv with
    | form _ htext hraw hv => exact ⟨_, htext, .inl ⟨_, hraw, hv⟩⟩
    | noForm _ htext hnone => exact ⟨_, htext, .inr ⟨hnone, rfl⟩⟩
    | path hs | query hs | noQuery hs | body hs => cases h.symm.trans hs
  · rintro ⟨text, htext, ⟨raw, hraw, hv⟩ | ⟨hnone, rfl⟩⟩
    · exact .form h htext hraw hv
    · exact .noForm h htext hnone

/-- What is read of a text, or null without one, is one value. -/
theorem eq_of_read_or_null {raw? : Option String} {read : String → Except BindingError Json}
    {w : Json} (h : (∃ raw, raw? = some raw ∧ read raw = .ok v) ∨ raw? = none ∧ v = .null)
    (h' : (∃ raw, raw? = some raw ∧ read raw = .ok w) ∨ raw? = none ∧ w = .null) : v = w := by
  rcases h with ⟨raw, hraw, hv⟩ | ⟨hnone, rfl⟩
  · rcases h' with ⟨raw', hraw', hw⟩ | ⟨hnone, -⟩
    · obtain rfl : raw = raw' := Option.some.inj (hraw.symm.trans hraw')
      exact Except.ok.inj (hv.symm.trans hw)
    · cases hraw.symm.trans hnone
  · rcases h' with ⟨raw', hraw', -⟩ | ⟨-, rfl⟩
    · cases hnone.symm.trans hraw'
    · rfl

/-- A call has one value at most for a property. -/
theorem Delivers.unique {w : Json} (h : d.Delivers call b v) (h' : d.Delivers call b w) : v = w := by
  cases hsource : d.sourceOf b.wireKey with
  | path =>
    obtain ⟨raw, hraw, hv⟩ := (delivers_path_iff hsource).mp h
    obtain ⟨raw', hraw', hw⟩ := (delivers_path_iff hsource).mp h'
    obtain rfl : raw = raw' := Option.some.inj (hraw.symm.trans hraw')
    exact Except.ok.inj (hv.symm.trans hw)
  | query =>
    exact eq_of_read_or_null ((delivers_query_iff hsource).mp h) ((delivers_query_iff hsource).mp h')
  | body =>
    obtain ⟨text, document, htext, -, hread, rfl⟩ := (delivers_body_iff hsource).mp h
    obtain ⟨text', document', htext', -, hread', rfl⟩ := (delivers_body_iff hsource).mp h'
    obtain rfl : text = text' := Option.some.inj (htext.symm.trans htext')
    obtain rfl : document = document' := Except.ok.inj (hread.symm.trans hread')
    rfl
  | form =>
    obtain ⟨text, htext, h⟩ := (delivers_form_iff hsource).mp h
    obtain ⟨text', htext', h'⟩ := (delivers_form_iff hsource).mp h'
    obtain rfl : text = text' := Option.some.inj (htext.symm.trans htext')
    exact eq_of_read_or_null h h'

/-- The request that is made of a call is determined by the definition. -/
theorem Fills.unique {request request' : List (String × Json)} (h : d.Fills call request)
    (h' : d.Fills call request') : request = request' := by
  refine Json.fields_ext h.sorted h'.sorted (h.names.trans h'.names.symm) fun name hname => ?_
  obtain ⟨b, hb, rfl⟩ := List.mem_map.mp (h.names.mem_iff.mp hname)
  obtain ⟨v, hv, hdelivers⟩ := h.values b hb
  obtain ⟨w, hw, hdelivers'⟩ := h'.values b hb
  rw [hv, hw, hdelivers.unique hdelivers']

theorem Valid.bodyFields_nodup (hd : d.Valid) : (d.bodyFields.map (·.name)).Nodup := by
  have hnames : d.bodyFields.map (·.name) = d.bodyLike.map (·.source) := by
    rw [bodyFields, List.map_map]
    rfl
  rw [hnames]
  exact hd.bindings.nodup.sublist (List.filter_sublist.map _)

/-- What is bound for a group is what its properties have, a body by its members. -/
theorem delivers_of_bind (hd : d.Valid) (hb : b ∈ d.parameters)
    (h : (d.wireParam name b.wireKey).bind call = .ok v) :
    d.Delivers call b (if b.kind.isBodyLike then v.member b.source else v) := by
  have hbody : d.sourceOf b.wireKey = .body ∨ d.sourceOf b.wireKey = .form ↔
      b.kind.isBodyLike = true := bodySource_iff (mem_wireKeys.mpr ⟨b, hb, rfl⟩)
  unfold BoundParam.bind wireParam at h
  -- Only bodies and forms hold several properties, so that only there a member is taken.
  cases hsource : d.sourceOf b.wireKey with
  | path =>
    rw [if_neg (by simpa [hsource] using hbody)]
    rw [hsource] at h
    dsimp only at h
    split at h
    · exact .path hsource ‹_› h
    · cases h
  | query =>
    rw [if_neg (by simpa [hsource] using hbody)]
    rw [hsource] at h
    dsimp only at h
    split at h
    · exact .query hsource ‹_› h
    · cases h
      exact .noQuery hsource ‹_›
  | body =>
    rw [if_pos (hbody.mp (.inl hsource))]
    rw [hsource] at h
    dsimp only at h
    split at h
    · rename_i text htext
      split at h
      · obtain rfl := Except.ok.inj h
        obtain ⟨htext, hblank⟩ := filter_blank_eq_some_iff.mp htext
        exact .body hsource htext hblank ‹_›
      · cases h
    · cases h
  | form =>
    have hbodyLike := hbody.mp (.inr hsource)
    rw [if_pos hbodyLike]
    rw [hsource] at h
    dsimp only at h
    split at h
    · have hfield : (⟨b.source, b.type⟩ : Field) ∈ d.bodyFields :=
        List.mem_map_of_mem (List.mem_filter.mpr ⟨hb, hbodyLike⟩)
      rcases bindForm_member h hd.bodyFields_nodup hfield with ⟨hnone, hnull⟩ | ⟨raw, hraw, hcoerce⟩
      · rw [hnull]
        exact .noForm hsource ‹_› hnone
      · exact .form hsource ‹_› hraw hcoerce
    · cases h

/-- The fields of a form are the bindings of its group, so that the first field to fail is the first
binding to fail. -/
theorem bindForm_bodyFields_eq_error_iff (hd : d.Valid) (hkey : key ∈ wireKeys d.parameters)
    (hbody : key.1 = true) {form : WireValues} : bindForm d.bodyFields form = .error e ↔
      ∃ before b after raw, bindingsOf d.parameters key = before ++ b :: after ∧
        (∀ b' ∈ before, ∀ raw, form.get? b'.source = some raw → ¬ Unreadable raw b'.type) ∧
        form.get? b.source = some raw ∧ Unreadable raw b.type ∧
        e = .invalidValue b.source b.type raw := by
  rw [bindForm_eq_error_iff, hd.bindingsOf_eq hkey hbody, bodyFields]
  constructor
  · rintro ⟨_, _, _, raw, hfields, hbefore, hraw, hnone, he⟩
    obtain ⟨before, rest, hall, rfl, hrest⟩ := List.map_eq_append_iff.mp hfields
    obtain ⟨b, after, rfl, rfl, rfl⟩ := List.map_eq_cons_iff.mp hrest
    exact ⟨before, b, after, raw, hall, List.forall_mem_map.mp hbefore, hraw, hnone, he⟩
  · rintro ⟨before, b, after, raw, hall, hbefore, hraw, hnone, he⟩
    refine ⟨before.map fun b => ⟨b.source, b.type⟩, ⟨b.source, b.type⟩,
      after.map fun b => ⟨b.source, b.type⟩, raw, ?_, ?_, hraw, hnone, he⟩
    · rw [hall, List.map_append, List.map_cons]
    · exact List.forall_mem_map.mpr hbefore

/-- A parameter fails in the ways that are said of its group and in no others. -/
theorem bind_eq_error_iff (hd : d.Valid) (hkey : key ∈ wireKeys d.parameters) :
    (d.wireParam name key).bind call = .error e ↔ d.Fails name call key e := by
  have hbody : d.sourceOf key = .form → key.1 = true :=
    fun hsource => (bodySource_iff hkey).mp (.inr hsource)
  unfold BoundParam.bind wireParam
  constructor
  · intro h
    cases hsource : d.sourceOf key with
    | path =>
      rw [hsource] at h
      dsimp only at h
      split at h
      · obtain ⟨hnone, rfl⟩ := coerceWireValue_eq_error_iff.mp h
        exact .path hsource ‹_› hnone
      · cases h
        exact .noPath hsource ‹_›
    | query =>
      rw [hsource] at h
      dsimp only at h
      split at h
      · obtain ⟨hnone, rfl⟩ := coerceWireValue_eq_error_iff.mp h
        exact .query hsource ‹_› hnone
      · cases h
    | body =>
      rw [hsource] at h
      dsimp only at h
      split at h
      · rename_i text htext
        obtain ⟨htext, hblank⟩ := filter_blank_eq_some_iff.mp htext
        split at h
        · cases h
        · cases h
          exact .body hsource htext hblank ‹_›
      · cases h
        exact .noBody hsource (filter_blank_eq_none_iff.mp ‹_›)
    | form =>
      rw [hsource] at h
      dsimp only at h
      split at h
      · obtain ⟨before, b, after, raw, hall, hbefore, hraw, hnone, rfl⟩ :=
          (bindForm_bodyFields_eq_error_iff hd hkey (hbody hsource)).mp h
        exact .form hsource ‹_› hall hbefore hraw hnone
      · cases h
        exact .noForm hsource ‹_›
  · intro h
    cases h with
    | noPath hsource hnone => simp only [hsource, hnone]
    | path hsource hraw hnone =>
      simp only [hsource, hraw]
      exact coerceWireValue_eq_error_iff.mpr ⟨hnone, rfl⟩
    | query hsource hraw hnone =>
      simp only [hsource, hraw]
      exact coerceWireValue_eq_error_iff.mpr ⟨hnone, rfl⟩
    | noBody hsource hblank => simp only [hsource, filter_blank_eq_none_iff.mpr hblank]
    | body hsource htext hblank hread =>
      simp only [hsource, filter_blank_eq_some_iff.mpr ⟨htext, hblank⟩, hread]
    | noForm hsource hnone => simp only [hsource, hnone]
    | form hsource htext hall hbefore hraw hnone =>
      simp only [hsource, htext]
      exact (bindForm_bodyFields_eq_error_iff hd hkey (hbody hsource)).mpr
        ⟨_, _, _, _, hall, hbefore, hraw, hnone, rfl⟩

theorem exists_bind_iff (hd : d.Valid) (hkey : key ∈ wireKeys d.parameters) :
    (∃ v, (d.wireParam name key).bind call = .ok v) ↔ ∀ e, ¬ d.Fails name call key e := by
  constructor
  · rintro ⟨v, hv⟩ e he
    cases hv.symm.trans ((bind_eq_error_iff hd hkey).mpr he)
  · intro h
    cases hbind : (d.wireParam name key).bind call with
    | ok v => exact ⟨v, rfl⟩
    | error e => exact absurd ((bind_eq_error_iff hd hkey).mp hbind) (h e)

/-- All properties of a group that fails are without a value, except in a form, where one is. -/
theorem Fails.exists_not_delivers (hkey : key ∈ wireKeys d.parameters)
    (h : d.Fails name call key e) :
    ∃ b ∈ bindingsOf d.parameters key, ∀ v, ¬ d.Delivers call b v := by
  obtain ⟨b, hb⟩ := List.exists_mem_of_ne_nil _ (bindingsOf_ne_nil hkey)
  obtain rfl : b.wireKey = key := (mem_bindingsOf.mp hb).2
  cases h with
  | noPath hsource hnone =>
    refine ⟨b, hb, fun v hv => ?_⟩
    obtain ⟨raw, hraw, -⟩ := (delivers_path_iff hsource).mp hv
    cases hnone.symm.trans hraw
  | path hsource hraw hnone =>
    refine ⟨b, hb, fun v hv => ?_⟩
    obtain ⟨raw', hraw', hcoerce⟩ := (delivers_path_iff hsource).mp hv
    obtain rfl := Option.some.inj (hraw.symm.trans hraw')
    exact exists_coerceWireValue_iff.mp ⟨v, hcoerce⟩ hnone
  | query hsource hraw hnone =>
    refine ⟨b, hb, fun v hv => ?_⟩
    rcases (delivers_query_iff hsource).mp hv with ⟨raw', hraw', hcoerce⟩ | ⟨habsent, -⟩
    · obtain rfl := Option.some.inj (hraw.symm.trans hraw')
      exact exists_coerceWireValue_iff.mp ⟨v, hcoerce⟩ hnone
    · cases hraw.symm.trans habsent
  | noBody hsource hblank =>
    refine ⟨b, hb, fun v hv => ?_⟩
    obtain ⟨text, -, htext, hnot, -⟩ := (delivers_body_iff hsource).mp hv
    exact hnot (hblank text htext)
  | body hsource htext _ hread =>
    refine ⟨b, hb, fun v hv => ?_⟩
    obtain ⟨text', document, htext', -, hread', -⟩ := (delivers_body_iff hsource).mp hv
    obtain rfl := Option.some.inj (htext.symm.trans htext')
    cases hread.symm.trans hread'
  | noForm hsource hnone =>
    refine ⟨b, hb, fun v hv => ?_⟩
    obtain ⟨text, htext, -⟩ := (delivers_form_iff hsource).mp hv
    cases hnone.symm.trans htext
  | @form text raw before after b' hsource htext hall _ hraw hnone =>
    have hb' : b' ∈ bindingsOf d.parameters b.wireKey :=
      hall ▸ List.mem_append_right before List.mem_cons_self
    have hsource' : d.sourceOf b'.wireKey = .form := (mem_bindingsOf.mp hb').2 ▸ hsource
    refine ⟨b', hb', fun v hv => ?_⟩
    obtain ⟨text', htext', hvalue⟩ := (delivers_form_iff hsource').mp hv
    obtain rfl := Option.some.inj (htext.symm.trans htext')
    rcases hvalue with ⟨raw', hraw', hcoerce⟩ | ⟨habsent, -⟩
    · obtain rfl := Option.some.inj (hraw.symm.trans hraw')
      exact exists_coerceWireValue_iff.mp ⟨v, hcoerce⟩ hnone
    · cases hraw.symm.trans habsent

/-- A group fails if a call has no value for one of its properties, and only then. -/
theorem exists_fails_iff (hd : d.Valid) (hkey : key ∈ wireKeys d.parameters) :
    (∃ e, d.Fails name call key e) ↔
      ∃ b ∈ bindingsOf d.parameters key, ∀ v, ¬ d.Delivers call b v := by
  constructor
  · rintro ⟨e, h⟩
    exact h.exists_not_delivers hkey
  · rintro ⟨b, hb, hnone⟩
    obtain ⟨hmem, rfl⟩ := mem_bindingsOf.mp hb
    cases hbind : (d.wireParam name b.wireKey).bind call with
    | ok v => exact absurd (delivers_of_bind hd hmem hbind) (hnone _)
    | error e => exact ⟨e, (bind_eq_error_iff hd hkey).mp hbind⟩

/-- A call that fills a request has no error. -/
theorem Fills.not_firstError {request : List (String × Json)} (h : d.Fills call request)
    {names : Bool × String → String} : ¬ d.FirstError names call e := by
  rintro ⟨before, key, after, hkeys, -, hfails⟩
  have hkey : key ∈ wireKeys d.parameters :=
    hkeys ▸ List.mem_append_right before List.mem_cons_self
  obtain ⟨b, hb, hnone⟩ := hfails.exists_not_delivers hkey
  obtain ⟨v, -, hv⟩ := h.values b (mem_bindingsOf.mp hb).1
  exact hnone v hv

/-- Parameters are bound one after the other, up to the first that fails. -/
theorem mapM_bind_eq_error_iff (hd : d.Valid) {names : Bool × String → String} :
    (wireKeys d.parameters).mapM (fun key => (d.wireParam (names key) key).bind call) = .error e ↔
      d.FirstError names call e := by
  rw [mapM_eq_error_iff, FirstError]
  refine exists_congr fun before => exists_congr fun key => exists_congr fun after =>
    and_congr_right fun hkeys => ?_
  have hbefore : ∀ k ∈ before, k ∈ wireKeys d.parameters :=
    fun k hk => hkeys ▸ List.mem_append_left _ hk
  have hkey : key ∈ wireKeys d.parameters :=
    hkeys ▸ List.mem_append_right before List.mem_cons_self
  rw [bind_eq_error_iff hd hkey]
  refine and_congr_left' (forall₂_congr fun k hk => ?_)
  exact exists_bind_iff hd (hbefore k hk)

/-- A call has one error at most. -/
theorem FirstError.unique (hd : d.Valid) {names : Bool × String → String} {e' : BindingError}
    (h : d.FirstError names call e) (h' : d.FirstError names call e') : e = e' := by
  have herror := (mapM_bind_eq_error_iff hd).mpr h
  have herror' := (mapM_bind_eq_error_iff hd).mpr h'
  exact Except.error.inj (herror.symm.trans herror')

end

end HandlerDefinition

/-- Parameters are bound alike if they differ in what their source makes no use of. -/
theorem BoundParam.bind_congr {p q : BoundParam} (call : OperationCall)
    (hsource : p.source = q.source) (hwireName : p.wireName = q.wireName)
    (htype : p.source = .path ∨ p.source = .query → p.type = q.type)
    (hname : p.source = .body ∨ p.source = .form → p.name = q.name)
    (hform : p.source = .form → p.formFields = q.formFields) : p.bind call = q.bind call := by
  unfold bind
  rw [← hsource, ← hwireName]
  cases hs : p.source with
  | path => rw [htype (.inl hs)]
  | query => rw [htype (.inr hs)]
  | body => rw [hname (.inl hs)]
  | form => rw [hname (.inr hs), hform hs]

end EndpointCompiler
