import EndpointCompiler.Endpoint.Binding
import EndpointCompiler.Proofs.Checking.Values
import EndpointCompiler.Proofs.Matching
import Mathlib.Data.List.Induction
import Mathlib.Data.List.Nodup

/-! Values that suit their types. A value of a primitive type is one of that primitive, and the
members of an object suit the fields that its type declares. What is bound from texts does so. -/

namespace EndpointCompiler

/-- A value of a primitive type; objects are of any kind. -/
def Primitive.Holds : Primitive → Json → Prop
  | .object, _ => True
  | .bool, v => ∃ b, v = .bool b
  | .int, v => ∃ n, v = .ofInt n ∧ fitsInt32 n = true
  | .long, v => ∃ n, v = .ofInt n ∧ fitsInt64 n = true
  | .float, v => ∃ n, v = .number n
  | .string, v => ∃ text, v = .string text

/-- Along declared fields a value leads to null or to values of the primitive types that are
declared there. -/
def FitsAlong (s : TypeScope) : List String → TypeRef → Json → Prop
  | [], t, v => ∀ q, t.primitive? = some q → v = .null ∨ q.Holds v
  | name :: path, t, v => ∀ fields u, s.fieldsOf? t = some fields →
      declaredType? fields name = some u → FitsAlong s path u (v.member name)

/-- A value suits a type. Types may be recursive, but every field is some way along. -/
def Fits (s : TypeScope) (t : TypeRef) (v : Json) : Prop :=
  ∀ path, FitsAlong s path t v

section

variable {s : TypeScope} {t u : TypeRef} {v : Json} {fields : List Field} {name : String}

theorem Fits.member (h : Fits s t v) (hfields : s.fieldsOf? t = some fields)
    (hu : declaredType? fields name = some u) : Fits s u (v.member name) :=
  fun path => h (name :: path) fields u hfields hu

theorem fits_of_members (hscalar : ∀ q, t.primitive? = some q → v = .null ∨ q.Holds v)
    (hmembers : ∀ fields name u, s.fieldsOf? t = some fields → declaredType? fields name = some u →
      Fits s u (v.member name)) : Fits s t v := by
  intro path
  cases path with
  | nil => exact hscalar
  | cons name path => exact fun fields u hfields hu => hmembers fields name u hfields hu path

theorem fits_null : Fits s t .null := by
  intro path
  induction path generalizing t with
  | nil => exact fun _ _ => .inl rfl
  | cons name path ih => exact fun _ _ _ _ => ih

theorem fits_object (h : ∀ fields, s.fieldsOf? objectType = some fields → fields = []) :
    Fits s objectType v := by
  refine fits_of_members (fun q hq => .inr ?_) fun fields name u hfields hu => ?_
  · obtain rfl : q = .object := (Option.some.inj hq).symm
    trivial
  · rw [h fields hfields] at hu
    cases hu

/-- The text of a primitive type writes a value of it, which has no members. -/
theorem Primitive.read?_holds {q : Primitive} {raw : String} (h : q.read? raw = some v) :
    q.Holds v ∧ ∀ name, v.member name = .null := by
  unfold Primitive.read? at h
  cases q with
  | object => cases h
  | bool =>
    dsimp only at h
    split at h
    · cases h
      exact ⟨⟨true, rfl⟩, fun _ => rfl⟩
    · split at h
      · cases h
        exact ⟨⟨false, rfl⟩, fun _ => rfl⟩
      · cases h
  | int =>
    obtain ⟨n, hn, rfl⟩ := Option.map_eq_some_iff.mp h
    exact ⟨⟨n, rfl, (Option.filter_eq_some_iff.mp hn).2⟩, fun _ => rfl⟩
  | long =>
    obtain ⟨n, hn, rfl⟩ := Option.map_eq_some_iff.mp h
    exact ⟨⟨n, rfl, (Option.filter_eq_some_iff.mp hn).2⟩, fun _ => rfl⟩
  | float =>
    obtain ⟨x, -, rfl⟩ := Option.map_eq_some_iff.mp h
    exact ⟨⟨.float x, rfl⟩, fun _ => rfl⟩
  | string =>
    cases h
    exact ⟨⟨raw, rfl⟩, fun _ => rfl⟩

theorem fits_of_coerce {param raw : String} (h : coerceWireValue param raw t = .ok v) :
    Fits s t v := by
  unfold coerceWireValue at h
  cases hread : t.primitive?.bind (·.read? raw) with
  | none =>
    rw [hread] at h
    cases h
  | some w =>
    rw [hread] at h
    cases h
    obtain ⟨q, hq, hw⟩ := Option.bind_eq_some_iff.mp hread
    obtain ⟨hholds, hmember⟩ := q.read?_holds hw
    refine fits_of_members (fun q' hq' => .inr ?_) fun fields name u _ _ => ?_
    · obtain rfl : q = q' := Option.some.inj (hq.symm.trans hq')
      exact hholds
    · rw [hmember]
      exact fits_null

/-- A text of which a type makes no value. Only the primitive types make values of texts. -/
def Unreadable (raw : String) (t : TypeRef) : Prop :=
  ∀ q, t.primitive? = some q → q.read? raw = none

/-- A text is refused where it has no value of the type, and then the error says so. -/
theorem coerceWireValue_eq_error_iff {param raw : String} {e : BindingError} :
    coerceWireValue param raw t = .error e ↔
      Unreadable raw t ∧ e = .invalidValue param t raw := by
  have hnone : t.primitive?.bind (·.read? raw) = none ↔ Unreadable raw t := by
    simp [Option.bind_eq_none_iff, Unreadable]
  unfold coerceWireValue
  cases hread : t.primitive?.bind (·.read? raw) with
  | none =>
    rw [Except.error.injEq]
    exact ⟨fun he => ⟨hnone.mp hread, he.symm⟩, fun h => h.2.symm⟩
  | some v =>
    refine ⟨nofun, fun h => ?_⟩
    rw [hnone.mpr h.1] at hread
    cases hread

theorem exists_coerceWireValue_iff {param raw : String} :
    (∃ v, coerceWireValue param raw t = .ok v) ↔ ¬ Unreadable raw t := by
  cases h : coerceWireValue param raw t with
  | ok v =>
    refine ⟨fun _ hnone => ?_, fun _ => ⟨v, rfl⟩⟩
    cases h.symm.trans (coerceWireValue_eq_error_iff.mpr ⟨hnone, rfl⟩)
  | error e => exact ⟨nofun, fun hsome => absurd (coerceWireValue_eq_error_iff.mp h).1 hsome⟩

theorem exists_field?_sortFields {entries : List (String × Json)} (h : (name, v) ∈ entries) :
    ∃ w, Json.field? name (Json.sortFields entries) = some w := by
  induction entries using List.reverseRecOn with
  | nil => cases h
  | append_singleton entries e ih =>
    rw [Json.sortFields, List.foldl_append, List.foldl_cons, List.foldl_nil,
      Json.field?_insertField]
    by_cases hname : name = e.1
    · rw [if_pos hname]
      exact ⟨e.2, rfl⟩
    · rw [if_neg hname]
      refine ih ((List.mem_append.mp h).resolve_right fun he => hname ?_)
      exact congrArg Prod.fst (List.mem_singleton.mp he)

theorem mem_of_field?_sortFields {entries : List (String × Json)}
    (h : Json.field? name (Json.sortFields entries) = some v) : (name, v) ∈ entries := by
  induction entries using List.reverseRecOn with
  | nil => cases h
  | append_singleton entries e ih =>
    rw [Json.sortFields, List.foldl_append, List.foldl_cons, List.foldl_nil,
      Json.field?_insertField] at h
    by_cases hname : name = e.1
    · rw [if_pos hname] at h
      obtain rfl := Option.some.inj h
      exact List.mem_append_right _ (List.mem_singleton.mpr (Prod.ext hname rfl))
    · rw [if_neg hname] at h
      exact List.mem_append_left _ (ih h)

theorem Json.sortFields_sorted (fields : List (String × Json)) :
    SortedByName (·.1) (sortFields fields) := by
  induction fields using List.reverseRecOn with
  | nil => exact .nil
  | append_singleton fields f ih =>
    rw [sortFields, List.foldl_append, List.foldl_cons, List.foldl_nil]
    exact ih.insert f

/-- An object is its names with their values. -/
theorem Json.eq_map_field? {fields : List (String × Json)} (h : (fields.map (·.1)).Nodup) :
    fields = (fields.map (·.1)).map fun name => (name, (field? name fields).getD .null) := by
  have hvalue : ∀ f ∈ fields, (f.1, (field? f.1 fields).getD .null) = f := by
    intro f hf
    rw [field?_eq, find?_of_nodup_map h hf]
    rfl
  calc fields
      = fields.map fun f => (f.1, (field? f.1 fields).getD .null) := by
        rw [List.map_congr_left hvalue, List.map_id']
    _ = (fields.map (·.1)).map fun name => (name, (field? name fields).getD .null) := by
        rw [List.map_map]
        rfl

/-- Objects with the same names are equal if they have the same values for them. -/
theorem Json.fields_ext {fields fields' : List (String × Json)} (h : SortedByName (·.1) fields)
    (h' : SortedByName (·.1) fields') (hnames : (fields.map (·.1)).Perm (fields'.map (·.1)))
    (hvalues : ∀ name ∈ fields.map (·.1), field? name fields = field? name fields') :
    fields = fields' := by
  have hs : SortedByName id (fields.map (·.1)) := List.pairwise_map.mpr h
  have hs' : SortedByName id (fields'.map (·.1)) := List.pairwise_map.mpr h'
  have hsorted : fields.map (·.1) = fields'.map (·.1) := hs.eq_of_perm hs' hnames
  rw [eq_map_field? h.nodup, eq_map_field? h'.nodup, ← hsorted]
  refine List.map_congr_left fun name hname => ?_
  rw [hvalues name hname]

/-- The field of a form, if it is present, as a value of its declared type. -/
def bindFormField (form : WireValues) (f : Field) : Except BindingError (Option (String × Json)) :=
  match form.get? f.name with
  | some raw => (coerceWireValue f.name raw f.type).map fun v => some (f.name, v)
  | none => .ok none

theorem bindForm_eq (fields : List Field) (form : WireValues) : bindForm fields form =
    (fields.filterMapM (bindFormField form)).map fun bound => .object (Json.sortFields bound) := by
  have hbind : bindForm fields form = (fields.filterMapM (bindFormField form) >>= fun bound =>
      .ok (.object (Json.sortFields bound))) := rfl
  rw [hbind]
  cases fields.filterMapM (bindFormField form) <;> rfl

/-- The last text that is sent for a name. -/
def WireValues.Last (values : WireValues) (name raw : String) : Prop :=
  ∃ before after, values = before ++ (name, raw) :: after ∧ ∀ v ∈ after, v.1 ≠ name

theorem WireValues.get?_eq_some_iff {values : WireValues} {name raw : String} :
    values.get? name = some raw ↔ values.Last name raw := by
  rw [get?, Option.map_eq_some_iff]
  constructor
  · rintro ⟨⟨n, raw⟩, hfind, rfl⟩
    obtain ⟨hname, after, before, hvalues, hafter⟩ := List.find?_eq_some_iff_append.mp hfind
    obtain rfl : n = name := by simpa using hname
    refine ⟨before.reverse, after.reverse, ?_, fun v hv => ?_⟩
    · rw [← List.reverse_reverse values, hvalues]
      simp
    · simpa using hafter v (List.mem_reverse.mp hv)
  · rintro ⟨before, after, rfl, hafter⟩
    refine ⟨(name, raw), List.find?_eq_some_iff_append.mpr ⟨by simp, after.reverse,
      before.reverse, by simp, fun v hv => ?_⟩, rfl⟩
    simpa using hafter v (List.mem_reverse.mp hv)

/-- The object of a form: its fields that are sent, each with its last text as a value of its type,
and nothing else. -/
structure HoldsForm (fields : List Field) (form : WireValues) (object : List (String × Json)) :
    Prop where
  names : (object.map (·.1)).Nodup
  field? : ∀ name v, Json.field? name object = some v ↔ ∃ f ∈ fields, f.name = name ∧
    ∃ raw, form.Last name raw ∧ coerceWireValue name raw f.type = .ok v

theorem bindFormField_ok {form : WireValues} {f : Field} {o : Option (String × Json)}
    (h : bindFormField form f = .ok o) : form.get? f.name = none ∧ o = none ∨
      ∃ raw w, form.get? f.name = some raw ∧ coerceWireValue f.name raw f.type = .ok w ∧
        o = some (f.name, w) := by
  unfold bindFormField at h
  cases hraw : form.get? f.name with
  | none =>
    rw [hraw] at h
    exact .inl ⟨rfl, (Except.ok.inj h).symm⟩
  | some raw =>
    rw [hraw] at h
    dsimp only at h
    cases hcoerce : coerceWireValue f.name raw f.type with
    | error e =>
      rw [hcoerce] at h
      cases h
    | ok w =>
      rw [hcoerce] at h
      exact .inr ⟨raw, w, rfl, hcoerce, (Except.ok.inj h).symm⟩

theorem bindFormField_eq_some_iff {form : WireValues} {f : Field} :
    bindFormField form f = .ok (some (name, v)) ↔ f.name = name ∧
      ∃ raw, form.get? f.name = some raw ∧ coerceWireValue f.name raw f.type = .ok v := by
  unfold bindFormField
  cases form.get? f.name with
  | none => simp
  | some raw =>
    cases hv : coerceWireValue f.name raw f.type with
    | error e => simp [Except.map, hv]
    | ok w => simp [Except.map, hv]

/-- The fields that are bound make an object in the order of their names. -/
theorem holdsForm_sortFields {form : WireValues} {bound : List (String × Json)}
    (hbound : fields.filterMapM (bindFormField form) = .ok bound)
    (hnames : (fields.map (·.name)).Nodup) :
    HoldsForm fields form (Json.sortFields bound) := by
  have hmem : ∀ name v, (name, v) ∈ bound ↔ ∃ f ∈ fields, f.name = name ∧
      ∃ raw, form.get? f.name = some raw ∧ coerceWireValue f.name raw f.type = .ok v := by
    intro name v
    rw [mem_filterMapM_iff hbound]
    simp only [bindFormField_eq_some_iff]
  refine ⟨(Json.sortFields_sorted bound).nodup, fun name v => ⟨fun hv => ?_, ?_⟩⟩
  · obtain ⟨f, hf, rfl, raw, hraw, hcoerce⟩ := (hmem name v).mp (mem_of_field?_sortFields hv)
    exact ⟨f, hf, rfl, raw, WireValues.get?_eq_some_iff.mp hraw, hcoerce⟩
  · rintro ⟨f, hf, rfl, raw, hraw, hcoerce⟩
    have hraw := WireValues.get?_eq_some_iff.mpr hraw
    have hv : (f.name, v) ∈ bound := (hmem _ _).mpr ⟨f, hf, rfl, raw, hraw, hcoerce⟩
    obtain ⟨w, hw⟩ := exists_field?_sortFields hv
    -- Another value of the name would be that of another field of the name.
    obtain ⟨g, hg, hname, raw', hraw', hother⟩ := (hmem _ _).mp (mem_of_field?_sortFields hw)
    obtain rfl := List.inj_on_of_nodup_map hnames hg hf hname
    obtain rfl : raw = raw' := Option.some.inj (hraw.symm.trans hraw')
    obtain rfl : v = w := Except.ok.inj (hcoerce.symm.trans hother)
    exact hw

/-- A field of a form has the last value that is sent for it, and is null if none is sent. -/
theorem bindForm_member {form : WireValues} (h : bindForm fields form = .ok v)
    (hnames : (fields.map (·.name)).Nodup) {f : Field} (hf : f ∈ fields) :
    form.get? f.name = none ∧ v.member f.name = .null ∨
      ∃ raw, form.get? f.name = some raw ∧
        coerceWireValue f.name raw f.type = .ok (v.member f.name) := by
  rw [bindForm_eq] at h
  cases hbound : fields.filterMapM (bindFormField form) with
  | error e =>
    rw [hbound] at h
    cases h
  | ok bound =>
    rw [hbound] at h
    obtain rfl := Except.ok.inj h
    have hholds := holdsForm_sortFields hbound hnames
    obtain ⟨o, ho⟩ := exists_filterMapM_iff.mp ⟨bound, hbound⟩ f hf
    rcases bindFormField_ok ho with ⟨hnone, -⟩ | ⟨raw, w, hraw, hcoerce, -⟩
    · refine .inl ⟨hnone, ?_⟩
      rw [Json.member]
      cases hvalue : Json.field? f.name (Json.sortFields bound) with
      | none => rfl
      | some w =>
        obtain ⟨_, -, -, raw, hraw, -⟩ := (hholds.field? f.name w).mp hvalue
        cases hnone.symm.trans (WireValues.get?_eq_some_iff.mpr hraw)
    · have hvalue := (hholds.field? f.name w).mpr
        ⟨f, hf, rfl, raw, WireValues.get?_eq_some_iff.mp hraw, hcoerce⟩
      refine .inr ⟨raw, hraw, ?_⟩
      rw [Json.member, hvalue]
      exact hcoerce

/-- A field that is not sent does not fail. -/
theorem bindFormField_eq_error_iff {form : WireValues} {f : Field} {e : BindingError} :
    bindFormField form f = .error e ↔ ∃ raw, form.get? f.name = some raw ∧
      Unreadable raw f.type ∧ e = .invalidValue f.name f.type raw := by
  unfold bindFormField
  cases form.get? f.name with
  | none => simp
  | some raw =>
    cases hv : coerceWireValue f.name raw f.type with
    | error e' =>
      have hfails := coerceWireValue_eq_error_iff.mp hv
      simp [Except.map, hv, hfails.1, hfails.2, eq_comm]
    | ok w =>
      have hreads := exists_coerceWireValue_iff.mp ⟨w, hv⟩
      simp [Except.map, hv, hreads]

theorem exists_bindFormField_iff {form : WireValues} {f : Field} :
    (∃ o, bindFormField form f = .ok o) ↔
      ∀ raw, form.get? f.name = some raw → ¬ Unreadable raw f.type := by
  unfold bindFormField
  cases form.get? f.name with
  | none => simp
  | some raw =>
    have hreads : (∃ v, coerceWireValue f.name raw f.type = .ok v) ↔ ¬ Unreadable raw f.type :=
      exists_coerceWireValue_iff
    cases hv : coerceWireValue f.name raw f.type with
    | error e => simpa [Except.map, hv] using hreads
    | ok w => simpa [Except.map, hv] using hreads

/-- A form fails at the first field whose text has no value of its type. -/
theorem bindForm_eq_error_iff {form : WireValues} {e : BindingError} :
    bindForm fields form = .error e ↔ ∃ before f after raw, fields = before ++ f :: after ∧
      (∀ g ∈ before, ∀ raw, form.get? g.name = some raw → ¬ Unreadable raw g.type) ∧
      form.get? f.name = some raw ∧ Unreadable raw f.type ∧
      e = .invalidValue f.name f.type raw := by
  have herror : bindForm fields form = .error e ↔
      fields.filterMapM (bindFormField form) = .error e := by
    rw [bindForm_eq]
    cases fields.filterMapM (bindFormField form) <;> simp [Except.map]
  rw [herror, filterMapM_eq_error_iff]
  simp only [exists_bindFormField_iff, bindFormField_eq_error_iff]
  constructor
  · rintro ⟨before, f, after, hfields, hbefore, raw, hraw, hnone, he⟩
    exact ⟨before, f, after, raw, hfields, hbefore, hraw, hnone, he⟩
  · rintro ⟨before, f, after, raw, hfields, hbefore, hraw, hnone, he⟩
    exact ⟨before, f, after, hfields, hbefore, raw, hraw, hnone, he⟩

/-- A form whose texts are all of their types is bound. -/
theorem exists_bindForm {form : WireValues} (hnames : (fields.map (·.name)).Nodup)
    (hvalues : ∀ f ∈ fields, ∀ raw, form.Last f.name raw →
      ∃ v, coerceWireValue f.name raw f.type = .ok v) :
    ∃ object, bindForm fields form = .ok (.object object) ∧ HoldsForm fields form object := by
  have hfields : ∀ f ∈ fields, ∃ o, bindFormField form f = .ok o := by
    intro f hf
    refine exists_bindFormField_iff.mpr fun raw hraw => ?_
    exact exists_coerceWireValue_iff.mp (hvalues f hf raw (WireValues.get?_eq_some_iff.mp hraw))
  obtain ⟨bound, hbound⟩ := exists_filterMapM_iff.mpr hfields
  refine ⟨_, ?_, holdsForm_sortFields hbound hnames⟩
  rw [bindForm_eq, hbound]
  rfl

theorem exists_of_declaredType? (hu : declaredType? fields name = some u) :
    ∃ f ∈ fields, f.name = name ∧ f.type = u := by
  obtain ⟨f, hf, rfl⟩ := Option.map_eq_some_iff.mp hu
  exact ⟨f, List.mem_of_find?_eq_some hf, by simpa using List.find?_some hf, rfl⟩

theorem bindForm_members {form : WireValues} (h : bindForm fields form = .ok v)
    (hnames : (fields.map (·.name)).Nodup) (hu : declaredType? fields name = some u) :
    Fits s u (v.member name) := by
  obtain ⟨f, hf, rfl, rfl⟩ := exists_of_declaredType? hu
  rcases bindForm_member h hnames hf with ⟨-, hnull⟩ | ⟨raw, -, hcoerce⟩
  · rw [hnull]
    exact fits_null
  · exact fits_of_coerce hcoerce

end

end EndpointCompiler
