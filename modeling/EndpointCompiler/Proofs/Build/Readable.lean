import EndpointCompiler.Proofs.Build.Generated
import EndpointCompiler.Proofs.Build.Units
import EndpointCompiler.Proofs.Compilation.Modes
import EndpointCompiler.Proofs.Image.Depth
import EndpointCompiler.Proofs.Synthesis.Supply

/-! What is emitted for definitions can be read back. The request of an operation nests by one level,
and all places lie within texts and lists that fit into memory. -/

namespace EndpointCompiler

open Source Checked

namespace HandlerDefinition

variable {s : TypeScope} {d : HandlerDefinition} {carrier : Option String} {o : OpDecl} {depth : Nat}

theorem Initialises.readable {b : ParameterBinding} {init : String × ValueExpr}
    (h : d.Initialises b init) (hlength : d.parameters.length < 2 ^ 63) :
    init.2.toJson.Readable (depth + 3) := by
  obtain ⟨-, i, hi, hvalue⟩ := h
  have hindex : i < 2 ^ 64 := by
    have hkey : i < (wireKeys d.parameters).length := (List.getElem?_eq_some_iff.mp hi).1
    have hle := Synthesizer.length_wireKeys_le d.parameters
    omega
  rw [hvalue]
  split
  · exact ValueExpr.readable_field (ValueExpr.readable_param hindex)
  · exact ValueExpr.readable_param hindex

/-- The image of an operation nests no deeper than its request. -/
theorem SaysOp.image_readable (ho : d.SaysOp carrier o) (hlocated : ∀ t ∈ d.types, t.Located)
    (hlength : d.parameters.length < 2 ^ 63) {image : OperationImage}
    (h : (checkOp s o).Yields image) :
    image.toJson.Readable (depth + 9) ∧ image.inlineLocals.toJson.Readable (depth + 9) := by
  obtain ⟨attrs, route, params, result, locals, call, -, -, -, -, hbody, rfl⟩ :=
    checkOp_yields_iff.mp h
  obtain ⟨-, -, -, -, t, inits, rfl, harg, hinits⟩ := ho.body_yields hlocated hbody
  have hrequest : (ValueExpr.new t inits).toJson.Readable (depth + 7) := by
    refine ValueExpr.readable_new fun init hinit => ?_
    obtain ⟨b, -, hsets⟩ := exists_left_of_forall₂ hinits hinit
    exact hsets.readable hlength
  constructor
  · refine OperationImage.readable ?_ ?_
    · exact List.forall_mem_singleton.mpr hrequest
    · rw [harg]
      exact ValueExpr.readable_local (by decide)
  · have hinlined : call.arg.substitute (ValueExpr.expandLocals [.new t inits]) = .new t inits := by
      have hexpand : ValueExpr.expandLocals [.new t inits] = [.new t inits] :=
        congrArg (fun e => [e]) (ValueExpr.substitute_nil _)
      rw [hexpand, harg]
      rfl
    refine OperationImage.readable nofun ?_
    show (call.arg.substitute (ValueExpr.expandLocals [.new t inits])).toJson.Readable (depth + 7)
    rw [hinlined]
    exact hrequest

end HandlerDefinition

theorem CheckedProgram.image_readable {p : CheckedProgram} {depth : Nat} (o : CompileOptions)
    (h : ∀ op ∈ p.operations, op.toJson.Readable (depth + 3) ∧
      op.inlineLocals.toJson.Readable (depth + 3)) : (p.image o).toJson.Readable (depth + 5) := by
  have hformat : imageFormat < 2 ^ 64 := by decide
  refine ModuleImage.readable hformat ?_
  unfold image
  cases o.mode with
  | debug => exact fun op hop => (h op hop).1
  | release => exact List.forall_mem_map.mpr fun op hop => (h op hop).2

end EndpointCompiler
