import EndpointCompiler.Image.Codec
import EndpointCompiler.Proofs.Json.Decoding

/-! Images and symbol tables come back from the JSON that they are written as, if their types come
back from their texts. -/

namespace EndpointCompiler

open Document

/-- The text of a type is read as the type itself. -/
def TypeRef.Legible (t : TypeRef) : Prop :=
  TypeRef.ofText t.text = .ok t

mutual

/-- The types of all objects that an expression makes. -/
def ValueExpr.types : ValueExpr → List TypeRef
  | .param _ => []
  | .local _ => []
  | .field base _ => base.types
  | .new type fields => type :: ValueExpr.fieldTypes fields

def ValueExpr.fieldTypes : List (String × ValueExpr) → List TypeRef
  | [] => []
  | (_, value) :: fields => value.types ++ ValueExpr.fieldTypes fields

end

def BridgeCall.types (c : BridgeCall) : List TypeRef :=
  c.request :: c.response :: c.arg.types

def OperationImage.types (o : OperationImage) : List TypeRef :=
  o.produces.toList ++ o.params.map (·.type) ++ o.locals.flatMap (·.types) ++ o.call.types

def ModuleImage.types (m : ModuleImage) : List TypeRef :=
  m.shapes.flatMap (fun s => s.fields.map (·.type)) ++ m.operations.flatMap (·.types)

section

variable {depth : Nat} {fits : Prop}

theorem recovers_text (s : String) : Recovers (asText (readAs depth (.string s))) s fits :=
  recovers_ok

theorem recovers_bool (b : Bool) : Recovers (asBool (readAs depth (.bool b))) b fits :=
  recovers_ok

theorem recovers_type {t : TypeRef} (ht : t.Legible) :
    Recovers (asType (readAs depth t.toJson)) t fits := by
  have ht : TypeRef.ofText t.text = .ok t := ht
  refine .inl ?_
  simp only [TypeRef.toJson, readAs_string, asType, asText, bind, Except.bind, ht]
  rfl

theorem recovers_source (s : ParamSource) :
    Recovers (asWord ParamSource.ofKeyword? (readAs depth (.string s.keyword))) s fits := by
  cases s <;> exact recovers_ok

theorem recovers_kind (k : SymbolKind) :
    Recovers (asWord SymbolKind.ofKeyword? (readAs depth (.string k.keyword))) k fits := by
  cases k <;> exact recovers_ok

theorem Field.recovers {f : Field} (hf : f.type.Legible) (depth : Nat) :
    Recovers (Field.decode (readAs depth f.toJson)) f (f.toJson.Readable depth) := by
  refine recovers_record (by simp) (by simp) fun depth => ?_
  simp only [List.map_cons, List.map_nil, Record.required_cons, String.reduceEq,
    reduceIte]
  refine (recovers_text f.name).bind ?_
  refine (recovers_type hf).bind ?_
  exact recovers_ok

theorem ShapeImage.recovers {s : ShapeImage} (hs : ∀ f ∈ s.fields, f.type.Legible) (depth : Nat) :
    Recovers (ShapeImage.decode (readAs depth s.toJson)) s (s.toJson.Readable depth) := by
  refine recovers_record (by simp) (by simp) fun depth => ?_
  simp only [List.map_cons, List.map_nil, Record.required_cons, String.reduceEq,
    reduceIte]
  refine (recovers_text s.name).bind ?_
  refine ((recovers_list s.fields (fun f hf => f.recovers (hs f hf)) depth).imp ?_).bind ?_
  · exact fun h => h.2.1
  · exact recovers_ok

theorem ParamImage.recovers {p : ParamImage} (hp : p.type.Legible) (depth : Nat) :
    Recovers (ParamImage.decode (readAs depth p.toJson)) p (p.toJson.Readable depth) := by
  refine recovers_record (by simp) (by simp) fun depth => ?_
  simp only [List.map_cons, List.map_nil, Record.required_cons, String.reduceEq,
    reduceIte]
  refine (recovers_text p.name).bind ?_
  refine (recovers_text p.wireName).bind ?_
  refine (recovers_source p.source).bind ?_
  refine (recovers_type hp).bind ?_
  exact recovers_ok

/-- A reference to a parameter or a local has no body, but a number. -/
theorem recovers_index {n : Nat} {form : Nat → ValueExpr} {name : String} (depth : Nat)
    (hform : ∀ body, ValueExpr.decode (.map [(.text name, body)]) =
      asNatural 64 body >>= fun i => pure (form i)) :
    Recovers (ValueExpr.decode (readAs depth (.object [(name, .ofNat n)]))) (form n)
      ((Json.object [(name, .ofNat n)]).Readable depth) := by
  cases depth with
  | zero => exact recovers_error id
  | succ depth =>
    rw [readAs_object_succ, List.map_singleton, hform, readAs_ofNat]
    exact (recovers_natural n fun h => h.1).bind recovers_ok

/-- A form with a body of its own. -/
theorem recovers_form {e : ValueExpr} {name : String} {fields : List (String × Json)}
    {decodeBody : Document → Decoded ValueExpr} {depth : Nat}
    (hform : ∀ body, ValueExpr.decode (.map [(.text name, body)]) = decodeBody body)
    (hbody : ∃ err, decodeBody .unreadable = .error err)
    (h : ∀ depth, Recovers (decodeBody (.map (fields.map fun f => (.text f.1, readAs depth f.2)))) e
      (Json.ReadableFields depth fields)) :
    Recovers (ValueExpr.decode (readAs depth (.object [(name, .object fields)]))) e
      ((Json.object [(name, .object fields)]).Readable depth) := by
  match depth with
  | 0 => exact recovers_error id
  | 1 =>
    obtain ⟨err, herr⟩ := hbody
    rw [readAs_object_succ, List.map_singleton, hform, readAs_object_zero, herr]
    exact recovers_error fun hr => hr.1
  | depth + 2 =>
    rw [readAs_object_succ, List.map_singleton, hform, readAs_object_succ]
    exact (h depth).imp fun hr => hr.1

theorem decodeNamed_text (name n : String) (d : Document) (fields : List (Document × Document)) :
    ValueExpr.decodeNamed name ((.text n, d) :: fields) =
      if n = name then ValueExpr.decode d else ValueExpr.decodeNamed name fields := by
  by_cases h : n = name <;> simp [ValueExpr.decodeNamed, hasText, asText, h]

theorem decodeInitsNamed_text (name n : String) (d : Document)
    (fields : List (Document × Document)) :
    ValueExpr.decodeInitsNamed name ((.text n, d) :: fields) =
      if n = name then ValueExpr.decodeInits d else ValueExpr.decodeInitsNamed name fields := by
  by_cases h : n = name <;> simp [ValueExpr.decodeInitsNamed, hasText, asText, h]

theorem asRecord_pair {n m : String} (hne : n ≠ m) (d e : Document) :
    asRecord [n, m] (.map [(.text n, d), (.text m, e)]) = .ok ⟨[(n, d), (m, e)], false⟩ := by
  have hnames : ([(n, d), (m, e)].map (·.1)).Nodup := by simpa using hne
  have hknown : ∀ f ∈ [(n, d), (m, e)], f.1 ∈ [n, m] := by simp
  exact asRecord_map hnames hknown

mutual

/-- An expression comes back from its JSON, unless it lies deeper than can be read. Each form with a
body takes two levels of nesting, and its type has to come back from its text. -/
theorem ValueExpr.recovers (e : ValueExpr) (he : ∀ t ∈ e.types, t.Legible) (depth : Nat) :
    Recovers (ValueExpr.decode (readAs depth e.toJson)) e (e.toJson.Readable depth) := by
  match e with
  | .param i => exact recovers_index depth fun _ => rfl
  | .local i => exact recovers_index depth fun _ => rfl
  | .field base name =>
    have hform : ∀ body, ValueExpr.decode (.map [(.text "field", body)]) =
        ValueExpr.decodeField body := fun _ => rfl
    rw [ValueExpr.toJson]
    refine recovers_form hform ⟨_, rfl⟩ fun depth => ?_
    refine Recovers.bind (.inl (asRecord_pair (by decide) _ _)) ?_
    simp only [List.map_cons, List.map_nil, Record.required_cons, decodeNamed_text,
      String.reduceEq, reduceIte]
    refine ((ValueExpr.recovers base he depth).imp fun h => h.1).bind ?_
    exact (recovers_text name).bind recovers_ok
  | .new type fields =>
    have ht : type.Legible := he type (by simp [ValueExpr.types])
    have hf : ∀ t ∈ ValueExpr.fieldTypes fields, t.Legible :=
      fun t h => he t (by simp [ValueExpr.types, h])
    have hform : ∀ body, ValueExpr.decode (.map [(.text "new", body)]) =
        ValueExpr.decodeNew body := fun _ => rfl
    rw [ValueExpr.toJson]
    refine recovers_form hform ⟨_, rfl⟩ fun depth => ?_
    refine Recovers.bind (.inl (asRecord_pair (by decide) _ _)) ?_
    simp only [List.map_cons, List.map_nil, Record.required_cons, decodeInitsNamed_text,
      String.reduceEq, reduceIte]
    refine (recovers_type ht).bind ?_
    refine Recovers.bind ?_ recovers_ok
    -- At the deepest level the list of fields cannot be read, and the text was not readable either.
    cases depth with
    | zero => exact recovers_error fun h => h.2.1
    | succ depth =>
      rw [readAs_array_succ]
      exact (ValueExpr.recovers_fields fields hf depth).imp fun h => h.2.1

theorem ValueExpr.recovers_fields (fields : List (String × ValueExpr))
    (hf : ∀ t ∈ ValueExpr.fieldTypes fields, t.Legible) (depth : Nat) :
    Recovers (ValueExpr.decodeInitList ((ValueExpr.fieldsToJson fields).map (readAs depth))) fields
      (Json.ReadableItems depth (ValueExpr.fieldsToJson fields)) := by
  match fields with
  | [] => exact recovers_ok
  | (name, value) :: fields =>
    have hvalue := ValueExpr.recovers value fun t h => hf t (by simp [ValueExpr.fieldTypes, h])
    have hrest := ValueExpr.recovers_fields fields
      (fun t h => hf t (by simp [ValueExpr.fieldTypes, h])) depth
    refine Recovers.bind (a := (name, value)) ?_ ((hrest.imp fun h => h.2).bind recovers_ok)
    cases depth with
    | zero => exact recovers_error fun h => h.1
    | succ depth =>
      rw [readAs_array_succ]
      refine (recovers_text name).bind ?_
      exact ((hvalue depth).imp fun h => h.1.2.1).bind recovers_ok

end

/-- Only the argument of a call can be too deep to be read; its other members are texts and a
flag. -/
theorem BridgeCall.recovers {c : BridgeCall} (hc : ∀ t ∈ c.types, t.Legible) (depth : Nat) :
    Recovers (BridgeCall.decode (readAs depth c.toJson)) c (c.toJson.Readable depth) := by
  have harg := c.arg.recovers fun t h => hc t (by simp [BridgeCall.types, h])
  refine recovers_record (by simp) (by simp) fun depth => ?_
  simp only [List.map_cons, List.map_nil, Record.required_cons, String.reduceEq,
    reduceIte]
  refine (recovers_type (hc c.request (by simp [BridgeCall.types]))).bind ?_
  refine (recovers_type (hc c.response (by simp [BridgeCall.types]))).bind ?_
  refine (recovers_bool c.isAsync).bind ?_
  exact ((harg depth).imp fun h => h.2.2.2.1).bind recovers_ok

theorem recovers_some_type {t : TypeRef} (ht : t.Legible) :
    Recovers (asOption asType (readAs depth t.toJson)) (some t) fits := by
  refine Recovers.bind (a := false) recovers_ok ?_
  exact (recovers_type ht).bind recovers_ok

theorem recovers_some_text (s : String) :
    Recovers (asOption asText (readAs depth (.string s))) (some s) fits :=
  recovers_ok

theorem OperationImage.mem_types {o : OperationImage} {t : TypeRef} :
    t ∈ o.types ↔ o.produces = some t ∨ (∃ p ∈ o.params, p.type = t) ∨
      (∃ e ∈ o.locals, t ∈ e.types) ∨ t ∈ o.call.types := by
  simp [OperationImage.types, eq_comm]

/-- The members of an operation: those that it always has, and two that it may have. -/
structure OperationImage.Members (o : OperationImage) (fields : List (String × Json)) : Prop where
  object : o.toJson = .object fields
  nodup : (fields.map (·.1)).Nodup
  known : ∀ f ∈ fields, f.1 ∈ ["name", "method", "route", "produces", "params", "locals", "call"]
  name : ("name", .string o.name) ∈ fields
  method : ("method", .string o.method) ∈ fields
  route : ("route", .string o.route) ∈ fields
  produces : (∃ t, o.produces = some t ∧ ("produces", t.toJson) ∈ fields) ∨
    "produces" ∉ fields.map (·.1) ∧ o.produces = none
  params : ("params", .array (o.params.map (·.toJson))) ∈ fields
  locals : ("locals", .array (o.locals.map (·.toJson))) ∈ fields ∨
    "locals" ∉ fields.map (·.1) ∧ o.locals = []
  call : ("call", o.call.toJson) ∈ fields

/-- Which members an operation has is decided by its result type and by its locals, each of which is
left out where there is none. -/
theorem OperationImage.exists_members (o : OperationImage) : ∃ fields, o.Members fields := by
  obtain ⟨name, method, route, produces, params, locals, call⟩ := o
  cases produces with
  | none =>
    cases locals with
    | nil => exact ⟨_, rfl, by simp, by simp, by simp, by simp, by simp, by simp, by simp, by simp,
        by simp⟩
    | cons e locals => exact ⟨_, rfl, by simp, by simp, by simp, by simp, by simp, by simp,
        by simp, by simp, by simp⟩
  | some t =>
    cases locals with
    | nil => exact ⟨_, rfl, by simp, by simp, by simp, by simp, by simp, by simp, by simp, by simp,
        by simp⟩
    | cons e locals => exact ⟨_, rfl, by simp, by simp, by simp, by simp, by simp, by simp,
        by simp, by simp, by simp⟩

/-- An operation comes back from its JSON. A member that was left out is read as what it was left
out for. -/
theorem OperationImage.recovers {o : OperationImage} (ho : ∀ t ∈ o.types, t.Legible)
    (depth : Nat) :
    Recovers (OperationImage.decode (readAs depth o.toJson)) o (o.toJson.Readable depth) := by
  have hproduces : ∀ t, o.produces = some t → t.Legible := fun t ht => ho t (mem_types.mpr (.inl ht))
  have hparams := recovers_list o.params fun p hp depth =>
    p.recovers (ho p.type (mem_types.mpr (.inr (.inl ⟨p, hp, rfl⟩)))) depth
  have hlocals := recovers_list o.locals fun e he depth =>
    e.recovers (fun t ht => ho t (mem_types.mpr (.inr (.inr (.inl ⟨e, he, ht⟩))))) depth
  have hcall := o.call.recovers fun t ht => ho t (mem_types.mpr (.inr (.inr (.inr ht))))
  obtain ⟨fields, h⟩ := o.exists_members
  rw [h.object]
  refine recovers_record h.nodup h.known fun depth => ?_
  refine (recovers_required h.nodup h.name (recovers_text _)).bind ?_
  refine (recovers_required h.nodup h.method (recovers_text _)).bind ?_
  refine (recovers_required h.nodup h.route (recovers_text _)).bind ?_
  refine Recovers.bind (a := o.produces) (recovers_withDefault h.nodup ?_) ?_
  · rcases h.produces with ⟨t, ht, hm⟩ | ⟨hm, hnone⟩
    · rw [ht]
      exact .inl ⟨_, hm, recovers_some_type (hproduces t ht)⟩
    · exact .inr ⟨hm, hnone.symm⟩
  refine (recovers_required h.nodup h.params (hparams depth)).bind ?_
  refine Recovers.bind (a := o.locals) (recovers_withDefault h.nodup ?_) ?_
  · rcases h.locals with hm | ⟨hm, hnil⟩
    · exact .inl ⟨_, hm, hlocals depth⟩
    · exact .inr ⟨hm, hnil.symm⟩
  exact (recovers_required h.nodup h.call (hcall depth)).bind recovers_ok

theorem recovers_format {n : Nat} (hn : n < 2 ^ 32) :
    Recovers (asNatural 32 (readAs depth (.ofNat n))) n fits := by
  refine .inl ?_
  rw [readAs_ofNat, ofNatText_of_lt (Nat.lt_trans hn (by decide)), asNatural_integer hn]

/-- An image comes back from its JSON if its types come back from their texts. -/
theorem ModuleImage.recovers {m : ModuleImage} (hm : ∀ t ∈ m.types, t.Legible)
    (hformat : m.format < 2 ^ 32) (depth : Nat) :
    Recovers (ModuleImage.decode (readAs depth m.toJson)) m (m.toJson.Readable depth) := by
  have hshapes := recovers_list m.shapes fun s hs depth =>
    s.recovers (fun f hf => hm f.type (by
      simp only [types, List.mem_append, List.mem_flatMap, List.mem_map]
      exact .inl ⟨s, hs, f, hf, rfl⟩)) depth
  have hops := recovers_list m.operations fun o ho depth =>
    o.recovers (fun t ht => hm t (by
      simp only [types, List.mem_append, List.mem_flatMap]
      exact .inr ⟨o, ho, ht⟩)) depth
  refine recovers_record (by simp) (by simp) fun depth => ?_
  simp only [List.map_cons, List.map_nil, Record.required_cons, String.reduceEq, reduceIte]
  refine (recovers_format hformat).bind ?_
  refine (recovers_text m.module).bind ?_
  refine (recovers_text m.controller).bind ?_
  refine ((hshapes depth).imp fun h => h.2.2.2.1).bind ?_
  exact ((hops depth).imp fun h => h.2.2.2.2.1).bind recovers_ok

/-- The members of a symbol: those that it always has, and one that it may have. -/
structure Symbol.Members (s : Symbol) (fields : List (String × Json)) : Prop where
  object : s.toJson = .object fields
  nodup : (fields.map (·.1)).Nodup
  known : ∀ f ∈ fields, f.1 ∈ ["kind", "name", "unit", "path", "line", "column"]
  kind : ("kind", .string s.kind.keyword) ∈ fields
  name : ("name", .string s.name) ∈ fields
  unit : ("unit", .string s.unit) ∈ fields
  path : (∃ p, s.path = some p ∧ ("path", .string p) ∈ fields) ∨
    "path" ∉ fields.map (·.1) ∧ s.path = none
  line : ("line", .ofNat s.line) ∈ fields
  column : ("column", .ofNat s.column) ∈ fields

theorem Symbol.exists_members (s : Symbol) : ∃ fields, s.Members fields := by
  obtain ⟨kind, name, unit, path, line, column⟩ := s
  cases path with
  | none => exact ⟨_, rfl, by simp, by simp, by simp, by simp, by simp, by simp, by simp, by simp⟩
  | some p => exact ⟨_, rfl, by simp, by simp, by simp, by simp, by simp, by simp, by simp, by simp⟩

theorem recovers_place (n : Nat) :
    Recovers (asNatural 64 (readAs depth (.ofNat n))) n ((Json.ofNat n).Readable depth) := by
  rw [readAs_ofNat]
  exact recovers_natural n id

/-- A symbol comes back from its JSON, with a path or without one. -/
theorem Symbol.recovers (s : Symbol) (depth : Nat) :
    Recovers (Symbol.decode (readAs depth s.toJson)) s (s.toJson.Readable depth) := by
  obtain ⟨fields, h⟩ := s.exists_members
  rw [h.object]
  refine recovers_record h.nodup h.known fun depth => ?_
  refine (recovers_required h.nodup h.kind (recovers_kind _)).bind ?_
  refine (recovers_required h.nodup h.name (recovers_text _)).bind ?_
  refine (recovers_required h.nodup h.unit (recovers_text _)).bind ?_
  refine Recovers.bind (a := s.path) (recovers_withDefault h.nodup ?_) ?_
  · rcases h.path with ⟨p, hp, hm⟩ | ⟨hm, hnone⟩
    · rw [hp]
      exact .inl ⟨_, hm, recovers_some_text p⟩
    · exact .inr ⟨hm, hnone.symm⟩
  refine (recovers_required h.nodup h.line (recovers_place _)).bind ?_
  exact (recovers_required h.nodup h.column (recovers_place _)).bind recovers_ok

theorem SymbolTable.recovers (t : SymbolTable) (depth : Nat) :
    Recovers (SymbolTable.decode (readAs depth t.toJson)) t (t.toJson.Readable depth) := by
  have hsymbols := recovers_list t.symbols fun s _ depth => s.recovers depth
  refine recovers_record (by simp) (by simp) fun depth => ?_
  simp only [List.map_cons, List.map_nil, Record.required_cons, String.reduceEq, reduceIte]
  refine (recovers_text t.module).bind ?_
  exact ((hsymbols depth).imp fun h => h.2.1).bind recovers_ok

end

end EndpointCompiler
