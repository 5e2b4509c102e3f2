import EndpointCompiler.Handler.Expansion
import EndpointCompiler.Proofs.Matching

/-! What requests of declared types are expanded to. Every field has its binding, and a placeholder that
is the first of its name, whatever the case, is bound if any field has this name. -/

namespace EndpointCompiler

theorem sameWord_iff {a b : String} : sameWord a b = true ↔ lowercase a = lowercase b :=
  beq_iff_eq

theorem sameWord_refl (a : String) : sameWord a a = true :=
  sameWord_iff.mpr rfl

/-- A placeholder before which no other has its name, whatever the case. -/
def Route.IsFirst (placeholders : List String) (p : String) : Prop :=
  ∃ earlier later, placeholders = earlier ++ p :: later ∧ ∀ q ∈ earlier, sameWord q p = false

/-- A binding of a field: it has the name and the type of the field, and is for the placeholder of
this name, the first of them if they differ in case only. -/
structure Field.BoundBy (placeholders : List String) (f : Field) (b : ParameterBinding) : Prop where
  source : b.source = f.name
  type : b.type = f.type
  placeholder : ∀ p, Route.IsFirst placeholders p → sameWord p f.name = true →
    b.kind = .queryOrPath ∧ b.target = p

/-- The handler of a request on one of its routes. -/
structure RequestDefinition.ExpandsTo (d : RequestDefinition) (fields : List Field)
    (r : Method × String) (handler : HandlerDefinition) : Prop where
  request : handler.request = d.request
  response : handler.response = d.response
  method : handler.method = r.1
  route : handler.route = r.2
  bindings : List.Forall₂ (Field.BoundBy (Route.placeholders r.2)) fields handler.parameters
  placeholders : ∀ p, Route.IsFirst (Route.placeholders r.2) p →
    (∃ f ∈ fields, sameWord p f.name = true) →
      ∃ b ∈ handler.parameters, b.kind = .queryOrPath ∧ b.target = p

section

variable {placeholders : List String} {f : Field}

/-- The first placeholder of a field's name is the one that is found for it. -/
theorem Route.IsFirst.find? {p : String} (h : IsFirst placeholders p)
    (hp : sameWord p f.name = true) : placeholders.find? (sameWord · f.name) = some p := by
  obtain ⟨earlier, later, rfl, hearlier⟩ := h
  have hname := sameWord_iff.mp hp
  have hnone : ∀ q ∈ earlier, ¬ sameWord q f.name = true := by
    intro q hq hsame
    have hword : sameWord q p = true := sameWord_iff.mpr ((sameWord_iff.mp hsame).trans hname.symm)
    rw [hearlier q hq] at hword
    cases hword
  rw [List.find?_append, List.find?_eq_none.mpr hnone, Option.none_or]
  exact List.find?_cons_of_pos hp

theorem bindField_of_none (method : Method) (h : placeholders.find? (sameWord · f.name) = none) :
    (bindField method placeholders f).source = f.name ∧
      (bindField method placeholders f).type = f.type := by
  rw [bindField, h]
  dsimp only
  split
  · exact ⟨rfl, rfl⟩
  · exact ⟨rfl, rfl⟩

theorem bindField_boundBy (method : Method) (placeholders : List String) (f : Field) :
    f.BoundBy placeholders (bindField method placeholders f) := by
  cases hfind : placeholders.find? (sameWord · f.name) with
  | none =>
    obtain ⟨hsource, htype⟩ := bindField_of_none method hfind
    refine ⟨hsource, htype, fun p hp hname => ?_⟩
    cases hfind.symm.trans (hp.find? hname)
  | some q =>
    rw [bindField, hfind]
    refine ⟨rfl, rfl, fun p hp hname => ⟨rfl, ?_⟩⟩
    exact Option.some.inj (hfind.symm.trans (hp.find? hname))

end

theorem RequestDefinition.handler_expandsTo (d : RequestDefinition) (fields : List Field)
    (r : Method × String) : d.ExpandsTo fields r (d.handler fields r) := by
  have hfields : List.Forall₂ (Field.BoundBy (Route.placeholders r.2)) fields
      (d.handler fields r).parameters :=
    List.forall₂_map_right_iff.mpr (List.forall₂_same.mpr fun f _ => bindField_boundBy ..)
  refine ⟨rfl, rfl, rfl, rfl, hfields, ?_⟩
  rintro p hp ⟨f, hf, hname⟩
  obtain ⟨b, hb, hbound⟩ := exists_right_of_forall₂ hfields hf
  exact ⟨b, hb, hbound.placeholder p hp hname⟩

theorem RequestDefinition.expand_eq_ok {c : Catalog} {d : RequestDefinition} {info : TypeInfo}
    (h : c.lookup? d.request = some info) :
    d.expand c = .ok (d.routes.map (d.handler info.fields)) := by
  rw [expand, h]

/-- Requests of declared types are expanded, to one handler for each of their routes. A handler has
one binding for each field, in the order of the fields, and binds each placeholder that has the name
of a field and is the first to have it, the case of letters aside. -/
theorem expandRequests_binds (c : Catalog) (ds : List RequestDefinition)
    (hdeclared : ∀ d ∈ ds, ∃ info, c.lookup? d.request = some info) :
    ∃ handlers, expandRequests c ds = .ok handlers ∧
      List.Forall₂ (fun r handler => ∃ info, c.lookup? r.1.request = some info ∧
        r.1.ExpandsTo info.fields r.2 handler) (ds.flatMap fun d => d.routes.map (d, ·)) handlers := by
  induction ds with
  | nil => exact ⟨[], rfl, .nil⟩
  | cons d ds ih =>
    obtain ⟨⟨info, hinfo⟩, hmore⟩ := List.forall_mem_cons.mp hdeclared
    obtain ⟨handlers, hhandlers, hall⟩ := ih hmore
    have hfirst : List.Forall₂ (fun r handler => ∃ info, c.lookup? r.1.request = some info ∧
        r.1.ExpandsTo info.fields r.2 handler) (d.routes.map (d, ·))
          (d.routes.map (d.handler info.fields)) := by
      rw [List.forall₂_map_left_iff, List.forall₂_map_right_iff, List.forall₂_same]
      exact fun r _ => ⟨info, hinfo, d.handler_expandsTo info.fields r⟩
    refine ⟨d.routes.map (d.handler info.fields) ++ handlers, ?_, ?_⟩
    · unfold expandRequests at hhandlers ⊢
      obtain ⟨rest, hrest, hflatten⟩ := bind_eq_ok_iff.mp hhandlers
      cases hflatten
      rw [List.mapM_cons, RequestDefinition.expand_eq_ok hinfo, hrest]
      rfl
    · exact List.rel_append hfirst hall

/-- A type with two fields whose names differ in case only, and two routes of which the second has
two placeholders of this kind. -/
def pairCatalog : Catalog :=
  .ofModules [⟨"shop", .static none, [{ TypeInfo.empty "shop" "Pair" with
    fields := [⟨"id", Primitive.int.type⟩, ⟨"Id", Primitive.int.type⟩] }]⟩]

def pairRequest : RequestDefinition :=
  ⟨.declared "shop" "Pair", .declared "shop" "Pair",
    [(.delete, "/\x7bID\x7d"), (.get, "/\x7bid\x7d/\x7bID\x7d")]⟩

theorem pairCatalog_fields : ∃ info, pairCatalog.lookup? pairRequest.request = some info ∧
    info.fields = [⟨"id", Primitive.int.type⟩, ⟨"Id", Primitive.int.type⟩] := by
  have hlookup : (pairCatalog.lookup? pairRequest.request).map (·.fields) =
      some [⟨"id", Primitive.int.type⟩, ⟨"Id", Primitive.int.type⟩] := by decide +kernel
  exact Option.map_eq_some_iff.mp hlookup

theorem expandRequests_binds_pair :
    ∃ info first second, pairCatalog.lookup? pairRequest.request = some info ∧
      expandRequests pairCatalog [pairRequest] = .ok [first, second] ∧
      List.Forall₂ (Field.BoundBy ["ID"]) info.fields first.parameters ∧
      ∃ b ∈ second.parameters, b.kind = .queryOrPath ∧ b.target = "id" := by
  obtain ⟨info, hinfo, hfields⟩ := pairCatalog_fields
  obtain ⟨handlers, hexpand, hall⟩ :=
    expandRequests_binds pairCatalog [pairRequest] (List.forall_mem_singleton.mpr ⟨info, hinfo⟩)
  obtain ⟨first, _, ⟨_, hinfo₁, hfirst⟩, hmore, rfl⟩ := List.forall₂_cons_left_iff.mp hall
  obtain ⟨second, _, ⟨_, hinfo₂, hsecond⟩, hnil, rfl⟩ := List.forall₂_cons_left_iff.mp hmore
  obtain rfl := List.forall₂_nil_left_iff.mp hnil
  cases hinfo.symm.trans hinfo₁
  cases hinfo.symm.trans hinfo₂
  have hone : Route.placeholders "/\x7bID\x7d" = ["ID"] := by decide +kernel
  have htwo : Route.placeholders "/\x7bid\x7d/\x7bID\x7d" = ["id", "ID"] := by decide +kernel
  have hplace : Route.IsFirst (Route.placeholders "/\x7bid\x7d/\x7bID\x7d") "id" :=
    ⟨[], ["ID"], htwo, nofun⟩
  have hfield : (⟨"id", Primitive.int.type⟩ : Field) ∈ info.fields := by simp [hfields]
  exact ⟨info, first, second, hinfo, hexpand, hone ▸ hfirst.bindings,
    hsecond.placeholders "id" hplace ⟨_, hfield, sameWord_refl "id"⟩⟩

/-- Both fields are bound to the first of two placeholders that differ in case only, and none to the
second. -/
theorem expandRequests_folds :
    ∃ info first second, pairCatalog.lookup? pairRequest.request = some info ∧
      expandRequests pairCatalog [pairRequest] = .ok [first, second] ∧
      "ID" ∈ Route.placeholders second.route ∧ (∃ f ∈ info.fields, sameWord "ID" f.name = true) ∧
      ¬ ∃ b ∈ second.parameters, b.kind = .queryOrPath ∧ b.target = "ID" := by
  obtain ⟨info, hinfo, hfields⟩ := pairCatalog_fields
  have hexpand : expandRequests pairCatalog [pairRequest] =
      .ok (pairRequest.routes.map (pairRequest.handler info.fields)) := by
    rw [expandRequests, List.mapM_cons, RequestDefinition.expand_eq_ok hinfo]
    rfl
  refine ⟨info, _, _, hinfo, hexpand, ?_, ?_, ?_⟩
  · show "ID" ∈ Route.placeholders "/\x7bid\x7d/\x7bID\x7d"
    decide +kernel
  · rw [hfields]
    decide +kernel
  · rw [RequestDefinition.handler, hfields]
    decide +kernel

end EndpointCompiler
