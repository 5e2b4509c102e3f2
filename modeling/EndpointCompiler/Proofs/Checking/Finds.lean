import EndpointCompiler.Checking.Signature
import EndpointCompiler.Proofs.Checking.Types

/-! What a check may find, whether or not it comes to a result. A check that is `Quiet` finds nothing
where it has a result. -/

namespace EndpointCompiler

namespace Checked

section

variable {α β γ : Type} {x : Checked α} {y : Checked β}

/-- All findings are such. -/
def Each (P : Finding → Prop) (x : Checked α) : Prop :=
  ∀ f ∈ x.findings, P f

/-- All problems that are found are of one kind. -/
def Finds (P : Problem → Prop) (x : Checked α) : Prop :=
  ∀ f ∈ x.findings, P f.problem

def Quiet (x : Checked α) : Prop :=
  ∀ a, x.value = some a → x.findings = []

theorem Quiet.yields (hx : x.Quiet) {a : α} (h : x.value = some a) : x.Yields a :=
  ⟨h, fun f hf => by rw [hx a h] at hf; cases hf⟩

theorem attempt_bind_value (f : Option α → Checked β) :
    (x.attempt >>= f).value = (f x.value).value := by
  rw [bind_value, Checked.attempt, Option.bind_some]

section

variable {P : Finding → Prop}

theorem each_of_nil (h : x.findings = []) : x.Each P :=
  fun f hf => by rw [h] at hf; cases hf

@[simp] theorem each_pure (a : α) : (Pure.pure a : Checked α).Each P :=
  each_of_nil rfl

@[simp] theorem each_pure' (a : α) : (Checked.pure a).Each P :=
  each_of_nil rfl

@[simp] theorem each_abandon : (Checked.abandon : Checked α).Each P :=
  each_of_nil rfl

@[simp] theorem each_fail {p : Problem} {span : Span} :
    (Checked.fail p span : Checked α).Each P ↔ P ⟨p, span⟩ := by
  simp [Each, Checked.fail]

@[simp] theorem each_note {p : Problem} {span : Span} :
    (Checked.note p span).Each P ↔ P ⟨p, span⟩ := by
  simp [Each, Checked.note]

theorem each_append {z : Checked γ} (h : z.findings = x.findings ++ y.findings) :
    z.Each P ↔ x.Each P ∧ y.Each P := by
  simp only [Each, h, List.mem_append, or_imp, forall_and]

/-- What follows is looked at only with a result. -/
theorem Each.bind {f : α → Checked β} (hx : x.Each P)
    (hf : ∀ a, x.value = some a → (f a).Each P) : (x >>= f).Each P := by
  cases hv : x.value with
  | none =>
    have hfindings : (x >>= f).findings = x.findings := by simp [Bind.bind, Checked.bind, hv]
    intro g hg
    exact hx g (hfindings ▸ hg)
  | some a => exact (each_append (bind_findings_of_some hv f)).mpr ⟨hx, hf a hv⟩

theorem Each.attempt (hx : x.Each P) : x.attempt.Each P :=
  hx

/-- What follows an attempt is looked at in any case. -/
theorem Each.attempt_bind {f : Option α → Checked β} (hx : x.Each P)
    (hf : (f x.value).Each P) : (x.attempt >>= f).Each P :=
  hx.attempt.bind fun _ ha => Option.some.inj ha ▸ hf

theorem Each.proceed {f : Option α → Checked β} (hx : x.Each P) (hf : (f x.value).Each P) :
    (x.proceed f).Each P :=
  (each_append rfl).mpr ⟨hx, hf⟩

theorem Each.both (hx : x.Each P) (hy : y.Each P) : (x.both y).Each P :=
  (each_append rfl).mpr ⟨hx, hy⟩

theorem Each.unlessError (hx : x.Each P) : x.unlessError.Each P :=
  hx

theorem Each.note_if {c : Prop} [Decidable c] {p : Problem} {span : Span} (h : c → P ⟨p, span⟩) :
    (if c then Checked.note p span else Pure.pure ()).Each P := by
  by_cases hc : c
  · rw [if_pos hc]
    exact each_note.mpr (h hc)
  · rw [if_neg hc]
    exact each_pure ()

theorem Each.unless {c : Prop} [Decidable c] {p : Problem} {span : Span} {k : Checked α}
    (h : c → P ⟨p, span⟩) (hk : k.Each P) :
    (if c then (Checked.note p span >>= fun _ => k) else k).Each P := by
  by_cases hc : c
  · rw [if_pos hc]
    exact (each_note.mpr (h hc)).bind fun _ _ => hk
  · rw [if_neg hc]
    exact hk

theorem Each.forM {f : α → Checked Unit} {as : List α} (hf : ∀ a ∈ as, (f a).Each P) :
    (as.forM f).Each P := by
  induction as with
  | nil => exact each_pure ()
  | cons a as ih =>
    rw [List.forall_mem_cons] at hf
    exact hf.1.bind fun _ _ => ih hf.2

/-- A fold keeps what every step keeps, given what is left to do. -/
theorem Each.foldlM {f : β → α → Checked β} {as : List α} {b : β} (I : List α → β → Prop)
    (hstep : ∀ a as b, I (a :: as) b →
      (f b a).Each P ∧ ∀ b', (f b a).value = some b' → I as b')
    (h : I as b) :
    (as.foldlM f b).Each P ∧ ∀ b', (as.foldlM f b).value = some b' → I [] b' := by
  induction as generalizing b with
  | nil => exact ⟨each_pure b, fun b' hb' => Option.some.inj hb' ▸ h⟩
  | cons a as ih =>
    rw [List.foldlM_cons]
    obtain ⟨heach, hnext⟩ := hstep a as b h
    refine ⟨heach.bind fun b' hb' => (ih (hnext b' hb')).1, fun b' hb' => ?_⟩
    rw [bind_value] at hb'
    obtain ⟨b'', hb'', hb'⟩ := Option.bind_eq_some_iff.mp hb'
    exact (ih (hnext b'' hb'')).2 b' hb'

end

/-! The same of problems, wherever they are found. -/

section

variable {P : Problem → Prop}

theorem finds_of_nil (h : x.findings = []) : x.Finds P :=
  each_of_nil h

@[simp] theorem finds_pure (a : α) : (Pure.pure a : Checked α).Finds P :=
  finds_of_nil rfl

@[simp] theorem finds_pure' (a : α) : (Checked.pure a).Finds P :=
  finds_of_nil rfl

@[simp] theorem finds_abandon : (Checked.abandon : Checked α).Finds P :=
  finds_of_nil rfl

@[simp] theorem finds_fail {p : Problem} {span : Span} :
    (Checked.fail p span : Checked α).Finds P ↔ P p :=
  each_fail

theorem Finds.bind {f : α → Checked β} (hx : x.Finds P)
    (hf : ∀ a, x.value = some a → (f a).Finds P) : (x >>= f).Finds P :=
  Each.bind hx hf

theorem Finds.attempt (hx : x.Finds P) : x.attempt.Finds P :=
  hx

theorem Finds.attempt_bind {f : Option α → Checked β} (hx : x.Finds P)
    (hf : (f x.value).Finds P) : (x.attempt >>= f).Finds P :=
  Each.attempt_bind hx hf

theorem Finds.proceed {f : Option α → Checked β} (hx : x.Finds P) (hf : (f x.value).Finds P) :
    (x.proceed f).Finds P :=
  Each.proceed hx hf

theorem Finds.both (hx : x.Finds P) (hy : y.Finds P) : (x.both y).Finds P :=
  Each.both hx hy

theorem Finds.unlessError (hx : x.Finds P) : x.unlessError.Finds P :=
  hx

theorem Finds.note_if {c : Prop} [Decidable c] {p : Problem} {span : Span} (h : c → P p) :
    (if c then Checked.note p span else Pure.pure ()).Finds P :=
  Each.note_if h

theorem Finds.unless {c : Prop} [Decidable c] {p : Problem} {span : Span} {k : Checked α}
    (h : c → P p) (hk : k.Finds P) :
    (if c then (Checked.note p span >>= fun _ => k) else k).Finds P :=
  Each.unless h hk

theorem Finds.forM {f : α → Checked Unit} {as : List α} (hf : ∀ a ∈ as, (f a).Finds P) :
    (as.forM f).Finds P :=
  Each.forM hf

theorem Finds.foldlM {f : β → α → Checked β} {as : List α} {b : β} (I : List α → β → Prop)
    (hstep : ∀ a as b, I (a :: as) b →
      (f b a).Finds P ∧ ∀ b', (f b a).value = some b' → I as b')
    (h : I as b) : (as.foldlM f b).Finds P :=
  (Each.foldlM I hstep h).1

end

theorem quiet_fail {p : Problem} {span : Span} : (Checked.fail p span : Checked α).Quiet :=
  fun _ h => by cases h

theorem quiet_pure (a : α) : (Pure.pure a : Checked α).Quiet :=
  fun _ _ => rfl

theorem Quiet.bind {f : α → Checked β} (hx : x.Quiet) (hf : ∀ a, (f a).Quiet) :
    (x >>= f).Quiet := by
  intro b hb
  rw [bind_value] at hb
  obtain ⟨a, ha, hb⟩ := Option.bind_eq_some_iff.mp hb
  rw [bind_findings_of_some ha, hx a ha, hf a b hb]
  rfl

theorem Quiet.both (hx : x.Quiet) (hy : y.Quiet) : (x.both y).Quiet := by
  intro c hc
  obtain ⟨a, ha, hc⟩ := Option.bind_eq_some_iff.mp hc
  obtain ⟨b, hb, -⟩ := Option.map_eq_some_iff.mp hc
  change x.findings ++ y.findings = []
  rw [hx a ha, hy b hb]
  rfl

end

end Checked

namespace TypeScope

open Source Checked

theorem resolveShape_quiet (s : TypeScope) (name : String) (argCount : Nat) (span : Span) :
    (s.resolveShape name argCount span).Quiet := by
  unfold resolveShape
  split
  · exact quiet_fail
  · split
    · exact quiet_fail
    · exact quiet_pure _

theorem resolveReferenced_quiet (s : TypeScope) (m : ModuleId) (name : String) (argCount : Nat)
    (span : Span) : (s.resolveReferenced m name argCount span).Quiet := by
  unfold resolveReferenced
  split
  · exact quiet_fail
  · split
    · exact quiet_fail
    · split
      · exact quiet_pure _
      · exact quiet_fail

mutual

theorem resolve_quiet (s : TypeScope) (allowAsync : Bool) (t : TypeExpr) :
    (s.resolve allowAsync t).Quiet := by
  match t with
  | .array element _ =>
    rw [resolve]
    exact (resolve_quiet s false element).bind fun _ => quiet_pure _
  | .path none name args span =>
    unfold resolve
    split
    · split
      · exact quiet_fail
      · split
        · rename_i arg
          exact (resolve_quiet s false arg).bind fun _ => quiet_pure _
        · exact quiet_fail
    · exact s.resolveShape_quiet _ _ _
  | .path (some m) name args span =>
    rw [resolve]
    split
    · exact s.resolveShape_quiet _ _ _
    · exact (s.resolveReferenced_quiet _ _ _ _).bind fun _ =>
        (resolveAll_quiet s args).bind fun _ => quiet_pure _

theorem resolveAll_quiet (s : TypeScope) (ts : List TypeExpr) : (s.resolveAll ts).Quiet := by
  match ts with
  | [] => exact quiet_pure _
  | t :: ts =>
    rw [resolveAll]
    exact ((resolve_quiet s false t).both (resolveAll_quiet s ts)).bind fun _ => quiet_pure _

end

theorem resolve_value {s : TypeScope} {allowAsync : Bool} {t : TypeExpr} {r : TypeRef}
    (h : (s.resolve allowAsync t).value = some r) :
    s.Admits allowAsync t.toTypeRef ∧ r = t.toTypeRef.qualify s.module :=
  (s.resolve_yields_iff allowAsync t r).mp ((s.resolve_quiet allowAsync t).yields h)

end TypeScope

end EndpointCompiler
