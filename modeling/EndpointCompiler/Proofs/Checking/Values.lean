import EndpointCompiler.Checking.Body
import EndpointCompiler.Proofs.Checking.Types
import EndpointCompiler.Proofs.Matching

/-! Types of value expressions, said without the checker, and what the checker makes of an
expression of the source language. What it yields has the type that it yields with it. -/

namespace EndpointCompiler

open Source Checked

/-- The type with which the first field of a name is declared. -/
def declaredType? (fields : List Field) (name : String) : Option TypeRef :=
  (fields.find? (·.name == name)).map (·.type)

theorem declaredType?_of_find? {fields : List Field} {name : String} {f : Field}
    (h : fields.find? (·.name == name) = some f) : declaredType? fields name = some f.type := by
  rw [declaredType?, h, Option.map_some]

mutual

/-- A value expression is well typed for the types of the parameters and of the locals before it.
Objects are initialised by name, each name once. -/
inductive HasType (s : TypeScope) (params locals : List TypeRef) : ValueExpr → TypeRef → Prop where
  | param {i : Nat} {t : TypeRef} : params[i]? = some t → HasType s params locals (.param i) t
  | local {i : Nat} {t : TypeRef} : locals[i]? = some t → HasType s params locals (.local i) t
  | field {base : ValueExpr} {t u : TypeRef} {fields : List Field} {name : String} :
      HasType s params locals base t → s.fieldsOf? t = some fields →
      declaredType? fields name = some u → HasType s params locals (.field base name) u
  | new {t : TypeRef} {declared : List Field} {inits : List (String × ValueExpr)} :
      s.fieldsOf? t = some declared → (inits.map (·.1)).Nodup →
      HaveTypes s params locals declared inits → HasType s params locals (.new t inits) t

/-- Initialisers suit the declared fields: each value has the type of its field, or any type where
the field takes objects. -/
inductive HaveTypes (s : TypeScope) (params locals : List TypeRef) :
    List Field → List (String × ValueExpr) → Prop where
  | nil {declared : List Field} : HaveTypes s params locals declared []
  | cons {declared : List Field} {name : String} {value : ValueExpr} {t u : TypeRef}
      {inits : List (String × ValueExpr)} :
      declaredType? declared name = some u → HasType s params locals value t →
      t = u ∨ u = objectType → HaveTypes s params locals declared inits →
      HaveTypes s params locals declared ((name, value) :: inits)

end

theorem assignable_iff {target value : TypeRef} :
    assignable target value = true ↔ value = target ∨ target = objectType := by
  rw [assignable, Bool.or_eq_true, beq_iff_eq, beq_iff_eq, eq_comm (a := target) (b := value)]

section

variable {s : TypeScope} {params locals locals' : List TypeRef} {declared : List Field}

theorem HaveTypes.append {inits more : List (String × ValueExpr)}
    (h : HaveTypes s params locals declared inits) (h' : HaveTypes s params locals declared more) :
    HaveTypes s params locals declared (inits ++ more) := by
  induction inits with
  | nil => exact h'
  | cons i inits ih =>
    cases h with
    | cons hf hv ha hi => exact .cons hf hv ha (ih hi)

theorem getElem?_eq_some_mono {i : Nat} {t : TypeRef} (hl : locals <+: locals')
    (h : locals[i]? = some t) : locals'[i]? = some t := by
  obtain ⟨more, rfl⟩ := hl
  rw [List.getElem?_append_left (List.getElem?_eq_some_iff.mp h).1, h]

mutual

theorem HasType.weaken (hl : locals <+: locals') :
    ∀ {e : ValueExpr} {t : TypeRef}, HasType s params locals e t → HasType s params locals' e t
  | _, _, .param hp => .param hp
  | _, _, .local hi => .local (getElem?_eq_some_mono hl hi)
  | _, _, .field hb hf hn => .field (hb.weaken hl) hf hn
  | _, _, .new hf hn hi => .new hf hn (hi.weaken hl)

theorem HaveTypes.weaken (hl : locals <+: locals') :
    ∀ {declared : List Field} {inits : List (String × ValueExpr)},
      HaveTypes s params locals declared inits → HaveTypes s params locals' declared inits
  | _, _, .nil => .nil
  | _, _, .cons hf hv ha hi => .cons hf (hv.weaken hl) ha (hi.weaken hl)

end

end

section

variable {s : TypeScope} {vars : Vars}

/-- The check of one initialiser by itself, after those that are in order so far. -/
def checkInit (s : TypeScope) (vars : Vars) (type : TypeRef) (fields : List Field)
    (done : List (String × ValueExpr)) (name : Ident) (e : Expr) : Checked ValueExpr :=
  if done.any (·.1 == name.name) then .fail (.repeatedField name.name) name.span
  else match fields.find? (·.name == name.name) with
    | none => .fail (.unknownField name.name type) name.span
    | some f => do
      let v ← checkValue s vars e
      if assignable f.type v.type then return v.value
      else .fail (.mismatchedField name.name f.type v.type) e.span

theorem checkInits_cons (type : TypeRef) (fields : List Field)
    (done : List (String × ValueExpr)) (name : Ident) (e : Expr) (inits : List (Ident × Expr)) :
    checkInits s vars type fields done ((name, e) :: inits) =
      (checkInit s vars type fields done name e).proceed fun
        | some v => checkInits s vars type fields (done ++ [(name.name, v)]) inits
        | none => checkInits s vars type fields done inits := by
  rw [checkInits]
  rfl

attribute [local simp] checkValue checkInits

theorem checkValue_var_yields_iff {name : Ident} {v : TypedValue} :
    (checkValue s vars (.var name)).Yields v ↔ vars.find? name.name = some (some v) := by
  rw [checkValue]
  split <;> rename_i h
  · rw [h, yields_pure', Option.some.injEq, Option.some.injEq]
  · simp [h]
  · simp [h]

theorem checkValue_field_yields_iff {base : Expr} {name : Ident} {span : Span} {v : TypedValue} :
    (checkValue s vars (.field base name span)).Yields v ↔
      ∃ b fields f, (checkValue s vars base).Yields b ∧ s.fieldsOf? b.type = some fields ∧
        fields.find? (·.name == name.name) = some f ∧ v = ⟨.field b.value name.name, f.type⟩ := by
  rw [checkValue, yields_bind]
  refine exists_congr fun b => ?_
  cases hf : s.fieldsOf? b.type with
  | none => simp
  | some fields =>
    cases hn : fields.find? (·.name == name.name) with
    | none => simp [hn]
    | some f =>
      simp only [Option.some.injEq, hn, yields_pure]
      constructor
      · rintro ⟨hb, rfl⟩
        exact ⟨fields, f, hb, rfl, hn, rfl⟩
      · rintro ⟨_, g, hb, rfl, hg, rfl⟩
        cases hn.symm.trans hg
        exact ⟨hb, rfl⟩

theorem checkValue_new_yields_iff {type : TypeExpr} {inits : List (Ident × Expr)} {span : Span}
    {v : TypedValue} :
    (checkValue s vars (.new type inits span)).Yields v ↔
      ∃ t fields values, (s.resolve false type).Yields t ∧ s.fieldsOf? t = some fields ∧
        (checkInits s vars t fields [] inits).Yields values ∧ v = ⟨.new t values, t⟩ := by
  rw [checkValue, yields_bind]
  refine exists_congr fun t => ?_
  cases hf : s.fieldsOf? t with
  | none => simp
  | some fields =>
    simp only [Option.some.injEq, yields_bind, yields_pure]
    constructor
    · rintro ⟨ht, values, hv, rfl⟩
      exact ⟨fields, values, ht, rfl, hv, rfl⟩
    · rintro ⟨_, values, ht, rfl, hv, rfl⟩
      exact ⟨ht, values, hv, rfl⟩

theorem not_checkValue_call_yields {function : Ident} {types : List TypeExpr} {args : List Expr}
    {span : Span} {v : TypedValue} :
    ¬ (checkValue s vars (.call function types args span)).Yields v := by
  simp [checkValue]

theorem not_checkValue_await_yields {inner : Expr} {span : Span} {v : TypedValue} :
    ¬ (checkValue s vars (.await inner span)).Yields v := by
  simp [checkValue]

theorem checkInits_nil_yields_iff {type : TypeRef} {fields : List Field}
    {done values : List (String × ValueExpr)} :
    (checkInits s vars type fields done []).Yields values ↔ values = done := by
  rw [checkInits, yields_pure', eq_comm]

/-- One initialiser is taken in if its name is new and declared and its value suits the field. -/
theorem checkInits_cons_yields_iff {type : TypeRef} {fields : List Field}
    {done values : List (String × ValueExpr)} {name : Ident} {e : Expr}
    {inits : List (Ident × Expr)} :
    (checkInits s vars type fields done ((name, e) :: inits)).Yields values ↔
      ∃ f v, name.name ∉ done.map (·.1) ∧ fields.find? (·.name == name.name) = some f ∧
        (checkValue s vars e).Yields v ∧ (v.type = f.type ∨ f.type = objectType) ∧
        (checkInits s vars type fields (done ++ [(name.name, v.value)]) inits).Yields values := by
  rw [checkInits, yields_proceed]
  have hd : done.any (·.1 == name.name) = true ↔ name.name ∈ done.map (·.1) := by
    simp
  by_cases hn : name.name ∈ done.map (·.1)
  · simp [hd.mpr hn, hn]
  · have hn' : done.any (·.1 == name.name) = false := Bool.eq_false_iff.mpr fun h => hn (hd.mp h)
    simp only [hn', Bool.false_eq_true, if_false, hn, not_false_iff, true_and]
    cases hf : fields.find? (·.name == name.name) with
    | none => simp
    | some f =>
      simp only [yields_bind, Option.some.injEq, exists_and_left, exists_eq_left']
      constructor
      · rintro ⟨e', ⟨v, hv, hx⟩, hr⟩
        by_cases ha : assignable f.type v.type = true
        · simp only [ha, if_true, yields_pure] at hx
          exact ⟨v, hv, assignable_iff.mp ha, hx ▸ hr⟩
        · simp [ha] at hx
      · rintro ⟨v, hv, ha, hr⟩
        refine ⟨v.value, ⟨v, hv, ?_⟩, hr⟩
        simp [assignable_iff.mpr ha]

/-- Initialisers of different declared fields are accepted if their values suit them. -/
theorem exists_checkInits {type : TypeRef} {fields : List Field} {done : List (String × ValueExpr)}
    {inits : List (Ident × Expr)} (hnames : (inits.map (·.1.name)).Nodup)
    (hfresh : ∀ init ∈ inits, init.1.name ∉ done.map (·.1))
    (h : ∀ init ∈ inits, ∃ f v, fields.find? (·.name == init.1.name) = some f ∧
      (checkValue s vars init.2).Yields v ∧ (v.type = f.type ∨ f.type = objectType)) :
    ∃ values, (checkInits s vars type fields done inits).Yields values := by
  induction inits generalizing done with
  | nil => exact ⟨done, checkInits_nil_yields_iff.mpr rfl⟩
  | cons init inits ih =>
    obtain ⟨name, e⟩ := init
    rw [List.map_cons, List.nodup_cons] at hnames
    rw [List.forall_mem_cons] at hfresh h
    obtain ⟨f, v, hf, hv, hsuits⟩ := h.1
    have hfresh' : ∀ init ∈ inits, init.1.name ∉ (done ++ [(name.name, v.value)]).map (·.1) := by
      intro init hinit hmem
      rw [List.map_append, List.mem_append] at hmem
      rcases hmem with hmem | hmem
      · exact hfresh.2 init hinit hmem
      · have he : init.1.name = name.name := List.mem_singleton.mp hmem
        exact hnames.1 (he ▸ List.mem_map_of_mem hinit)
    obtain ⟨values, hvalues⟩ := ih hnames.2 hfresh' h.2
    exact ⟨values, checkInits_cons_yields_iff.mpr ⟨f, v, hfresh.1, hf, hv, hsuits, hvalues⟩⟩

/-- Initialisers that are accepted have a value each, in order, after those before them. -/
theorem checkInits_values {type : TypeRef} {fields : List Field}
    {done values : List (String × ValueExpr)} {inits : List (Ident × Expr)}
    (h : (checkInits s vars type fields done inits).Yields values) :
    ∃ more, values = done ++ more ∧ List.Forall₂ (fun init i => i.1 = init.1.name ∧
      ∃ v, (checkValue s vars init.2).Yields v ∧ i.2 = v.value) inits more := by
  induction inits generalizing done with
  | nil => exact ⟨[], by rw [checkInits_nil_yields_iff.mp h, List.append_nil], .nil⟩
  | cons init inits ih =>
    obtain ⟨name, e⟩ := init
    obtain ⟨f, v, -, -, hv, -, hrest⟩ := checkInits_cons_yields_iff.mp h
    obtain ⟨more, rfl, hmore⟩ := ih hrest
    refine ⟨(name.name, v.value) :: more, ?_, .cons ⟨rfl, v, hv, rfl⟩ hmore⟩
    rw [List.append_assoc, List.singleton_append]

end

/-- What a name stands for has its type. -/
def VarsTyped (s : TypeScope) (params locals : List TypeRef) (vars : Vars) : Prop :=
  ∀ name v, vars.find? name = some (some v) → HasType s params locals v.value v.type

section

variable {s : TypeScope} {vars : Vars} {params locals : List TypeRef}

mutual

/-- An expression that is accepted denotes a value of the type that it is given. -/
theorem checkValue_hasType (hv : VarsTyped s params locals vars) (e : Expr) {v : TypedValue}
    (h : (checkValue s vars e).Yields v) : HasType s params locals v.value v.type := by
  match e with
  | .var name => exact hv _ _ (checkValue_var_yields_iff.mp h)
  | .field base name span =>
    obtain ⟨b, fields, f, hb, hf, hn, rfl⟩ := checkValue_field_yields_iff.mp h
    exact .field (checkValue_hasType hv base hb) hf (declaredType?_of_find? hn)
  | .new type inits span =>
    obtain ⟨t, fields, values, -, hf, hi, rfl⟩ := checkValue_new_yields_iff.mp h
    have ht := checkInits_haveTypes hv inits hi .nil List.nodup_nil
    exact .new hf ht.2 ht.1
  | .call .. => exact absurd h not_checkValue_call_yields
  | .await .. => exact absurd h not_checkValue_await_yields

theorem checkInits_haveTypes (hv : VarsTyped s params locals vars) (inits : List (Ident × Expr))
    {type : TypeRef} {fields : List Field} {done values : List (String × ValueExpr)}
    (h : (checkInits s vars type fields done inits).Yields values)
    (hd : HaveTypes s params locals fields done) (hn : (done.map (·.1)).Nodup) :
    HaveTypes s params locals fields values ∧ (values.map (·.1)).Nodup := by
  match inits with
  | [] =>
    rw [checkInits_nil_yields_iff.mp h]
    exact ⟨hd, hn⟩
  | (name, e) :: inits =>
    obtain ⟨f, v, hnew, hf, he, ha, hr⟩ := checkInits_cons_yields_iff.mp h
    have hvalue := checkValue_hasType hv e he
    refine checkInits_haveTypes hv inits hr (hd.append (.cons (declaredType?_of_find? hf) hvalue ha .nil)) ?_
    rw [List.map_append, List.nodup_append]
    refine ⟨hn, by simp, ?_⟩
    intro a ha b hb
    have hb' : b = name.name := by simpa using hb
    rintro rfl
    exact hnew (hb' ▸ ha)

end

/-- No name in scope is without a value. -/
def VarsComplete (vars : Vars) : Prop :=
  ∀ name, vars.find? name ≠ some none

mutual

/-- An expression that is not accepted is reported. -/
theorem checkValue_loud (hv : VarsComplete vars) (e : Expr) : (checkValue s vars e).Loud := by
  match e with
  | .var name =>
    rw [checkValue]
    split
    · exact loud_pure' _
    · rename_i h
      exact absurd h (hv _)
    · exact loud_fail rfl
  | .field base name span =>
    rw [checkValue]
    refine (checkValue_loud hv base).bind fun b _ => ?_
    split
    · exact loud_fail rfl
    · split
      · exact loud_fail rfl
      · exact loud_pure _
  | .new type inits span =>
    rw [checkValue]
    refine (s.resolve_loud false type).bind fun t _ => ?_
    split
    · exact loud_fail rfl
    · exact (checkInits_loud hv inits _ _ _).bind fun _ _ => loud_pure _
  | .call .. =>
    rw [checkValue]
    exact loud_fail rfl
  | .await .. =>
    rw [checkValue]
    exact loud_fail rfl

theorem checkInits_loud (hv : VarsComplete vars) (inits : List (Ident × Expr)) (type : TypeRef)
    (fields : List Field) (done : List (String × ValueExpr)) :
    (checkInits s vars type fields done inits).Loud := by
  match inits with
  | [] =>
    rw [checkInits]
    exact loud_pure' _
  | (name, e) :: inits =>
    rw [checkInits]
    refine Loud.proceed ?_ fun v _ => checkInits_loud hv inits _ _ _
    split
    · exact loud_fail rfl
    · split
      · exact loud_fail rfl
      · refine (checkValue_loud hv e).bind fun v _ => ?_
        split
        · exact loud_pure _
        · exact loud_fail rfl

end

end

end EndpointCompiler
