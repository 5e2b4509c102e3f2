import EndpointCompiler.Proofs.Image.Text

/-! How deep images nest. Expressions aside they are never deeper than a few levels, and their
numbers are the places of parameters and of names in texts. -/

namespace EndpointCompiler

namespace ValueExpr

variable {depth i : Nat} {base : ValueExpr} {type : TypeRef} {name : String}
  {inits : List (String × ValueExpr)}

theorem readable_param (hi : i < 2 ^ 64) : (param i).toJson.Readable (depth + 1) := by
  rw [toJson, Json.Readable, Json.readableFields_iff]
  exact List.forall_mem_singleton.mpr hi

theorem readable_local (hi : i < 2 ^ 64) : (ValueExpr.local i).toJson.Readable (depth + 1) := by
  rw [toJson, Json.Readable, Json.readableFields_iff]
  exact List.forall_mem_singleton.mpr hi

theorem readable_field (h : base.toJson.Readable depth) :
    (field base name).toJson.Readable (depth + 2) := by
  rw [toJson, Json.Readable, Json.ReadableFields, Json.Readable]
  exact ⟨⟨h, trivial, trivial⟩, trivial⟩

theorem fieldsToJson_eq (inits : List (String × ValueExpr)) :
    fieldsToJson inits = inits.map fun init => .array [.string init.1, init.2.toJson] := by
  induction inits with
  | nil => rfl
  | cons init inits ih => rw [fieldsToJson, ih, List.map_cons]

theorem readable_new (h : ∀ init ∈ inits, init.2.toJson.Readable depth) :
    (new type inits).toJson.Readable (depth + 4) := by
  have hinits : Json.ReadableItems (depth + 1) (fieldsToJson inits) := by
    rw [fieldsToJson_eq, Json.readableItems_iff]
    intro v hv
    obtain ⟨init, hinit, rfl⟩ := List.mem_map.mp hv
    exact ⟨trivial, h init hinit, trivial⟩
  rw [toJson, Json.Readable, Json.ReadableFields, Json.Readable]
  exact ⟨⟨trivial, hinits, trivial⟩, trivial⟩

end ValueExpr

variable {depth : Nat}

theorem ParamImage.readable (p : ParamImage) : p.toJson.Readable (depth + 1) :=
  ⟨trivial, trivial, trivial, trivial, trivial⟩

theorem Field.readable (f : Field) : f.toJson.Readable (depth + 1) :=
  ⟨trivial, trivial, trivial⟩

theorem ShapeImage.readable (s : ShapeImage) : s.toJson.Readable (depth + 3) := by
  have hfields : Json.ReadableItems (depth + 1) (s.fields.map (·.toJson)) :=
    Json.readableItems_iff.mpr (List.forall_mem_map.mpr fun f _ => f.readable)
  exact ⟨trivial, hfields, trivial⟩

theorem OperationImage.readable {o : OperationImage}
    (hlocals : ∀ e ∈ o.locals, e.toJson.Readable (depth + 1))
    (harg : o.call.arg.toJson.Readable (depth + 1)) : o.toJson.Readable (depth + 3) := by
  have hparams : Json.ReadableItems (depth + 1) (o.params.map (·.toJson)) :=
    Json.readableItems_iff.mpr (List.forall_mem_map.mpr fun p _ => p.readable)
  have hitems : Json.ReadableItems (depth + 1) (o.locals.map (·.toJson)) :=
    Json.readableItems_iff.mpr (List.forall_mem_map.mpr hlocals)
  have hcall : o.call.toJson.Readable (depth + 2) := ⟨trivial, trivial, trivial, harg, trivial⟩
  rw [toJson, Json.Readable, Json.readableFields_iff]
  simp only [List.forall_mem_append, List.forall_mem_singleton]
  refine ⟨⟨⟨⟨?_, fun f hf => ?_⟩, hparams⟩, fun f hf => ?_⟩, hcall⟩
  · exact Json.readableFields_iff.mp ⟨trivial, trivial, trivial, trivial⟩
  · obtain ⟨t, -, rfl⟩ := Option.map_eq_some_iff.mp (Option.mem_toList.mp hf)
    trivial
  · split at hf
    · cases hf
    · obtain rfl := List.mem_singleton.mp hf
      exact hitems

theorem ModuleImage.readable {m : ModuleImage} (hformat : m.format < 2 ^ 64)
    (h : ∀ o ∈ m.operations, o.toJson.Readable (depth + 3)) : m.toJson.Readable (depth + 5) := by
  have hshapes : Json.ReadableItems (depth + 3) (m.shapes.map (·.toJson)) :=
    Json.readableItems_iff.mpr (List.forall_mem_map.mpr fun s _ => s.readable)
  have hoperations : Json.ReadableItems (depth + 3) (m.operations.map (·.toJson)) :=
    Json.readableItems_iff.mpr (List.forall_mem_map.mpr h)
  exact ⟨hformat, trivial, trivial, hshapes, hoperations, trivial⟩

/-- The place of a symbol can be read. -/
structure Symbol.Placed (s : Symbol) : Prop where
  line : s.line < 2 ^ 64
  column : s.column < 2 ^ 64

theorem Symbol.Placed.readable {s : Symbol} (h : s.Placed) : s.toJson.Readable (depth + 1) := by
  rw [Symbol.toJson, Json.Readable, Json.readableFields_iff]
  simp only [List.forall_mem_append]
  refine ⟨⟨?_, fun f hf => ?_⟩, ?_⟩
  · exact Json.readableFields_iff.mp ⟨trivial, trivial, trivial, trivial⟩
  · obtain ⟨p, -, rfl⟩ := Option.map_eq_some_iff.mp (Option.mem_toList.mp hf)
    trivial
  · exact Json.readableFields_iff.mp ⟨h.line, h.column, trivial⟩

theorem SymbolTable.readable {t : SymbolTable} (h : ∀ s ∈ t.symbols, s.Placed) :
    t.toJson.Readable (depth + 3) := by
  have hsymbols : Json.ReadableItems (depth + 1) (t.symbols.map (·.toJson)) :=
    Json.readableItems_iff.mpr (List.forall_mem_map.mpr fun s hs => (h s hs).readable)
  exact ⟨trivial, hsymbols, trivial⟩

end EndpointCompiler
