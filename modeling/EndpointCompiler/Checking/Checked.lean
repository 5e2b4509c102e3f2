import EndpointCompiler.Checking.Problem

/-! Checks: what they found, and their result if they came to one. -/

namespace EndpointCompiler

structure Checked (α : Type) where
  findings : List Finding
  value : Option α

namespace Checked

variable {α β γ : Type}

def pure (a : α) : Checked α :=
  ⟨[], some a⟩

def bind (x : Checked α) (f : α → Checked β) : Checked β :=
  match x.value with
  | some a => ⟨x.findings ++ (f a).findings, (f a).value⟩
  | none => ⟨x.findings, none⟩

instance : Monad Checked where
  pure := Checked.pure
  bind := Checked.bind

/-- A problem that leaves no result. -/
def fail (problem : Problem) (span : Span) : Checked α :=
  ⟨[⟨problem, span⟩], none⟩

def note (problem : Problem) (span : Span) : Checked Unit :=
  ⟨[⟨problem, span⟩], some ()⟩

/-- No result, for a reason that was found before. -/
def abandon : Checked α :=
  ⟨[], none⟩

/-- The result or its absence as a result. -/
def attempt (x : Checked α) : Checked (Option α) :=
  ⟨x.findings, some x.value⟩

/-- Goes on with the result or its absence, but keeps no later result if there was none. -/
def proceed (x : Checked α) (f : Option α → Checked β) : Checked β :=
  let y := f x.value
  ⟨x.findings ++ y.findings, if x.value.isSome then y.value else none⟩

/-- Both results, each checked whatever becomes of the other. -/
def both (x : Checked α) (y : Checked β) : Checked (α × β) :=
  ⟨x.findings ++ y.findings, x.value.bind fun a => y.value.map (a, ·)⟩

/-- A result, kept only if no error was found on the way. -/
def unlessError (x : Checked α) : Checked α :=
  ⟨x.findings, if x.findings.any (·.problem.isError) then none else x.value⟩

@[simp] theorem pure_findings (a : α) : (Pure.pure a : Checked α).findings = [] := rfl

@[simp] theorem pure_value (a : α) : (Pure.pure a : Checked α).value = some a := rfl

theorem bind_findings_of_some {x : Checked α} {a : α} (h : x.value = some a) (f : α → Checked β) :
    (x >>= f).findings = x.findings ++ (f a).findings := by
  simp [Bind.bind, Checked.bind, h]

theorem bind_value (x : Checked α) (f : α → Checked β) :
    (x >>= f).value = x.value.bind fun a => (f a).value := by
  simp only [Bind.bind, Checked.bind]
  cases x.value <;> rfl

end Checked

end EndpointCompiler
