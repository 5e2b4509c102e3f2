import EndpointCompiler.Checking.Checked

/-! What a check comes to if it finds no error. A check that is `Loud` never drops its result in
silence: without an error it has one. -/

namespace EndpointCompiler.Checked

variable {α β : Type}

/-- No error was found; warnings may have been. -/
def Clean (x : Checked α) : Prop :=
  ∀ f ∈ x.findings, f.problem.isError = false

/-- The check comes to a result and finds no error on the way. -/
def Yields (x : Checked α) (a : α) : Prop :=
  x.value = some a ∧ x.Clean

/-- Without an error there is a result. -/
def Loud (x : Checked α) : Prop :=
  x.Clean → ∃ a, x.Yields a

theorem not_clean_iff {x : Checked α} :
    ¬ x.Clean ↔ ∃ f ∈ x.findings, f.problem.isError = true := by
  simp [Clean]

theorem Yields.unique {x : Checked α} {a b : α} (h : x.Yields a) (h' : x.Yields b) : a = b :=
  Option.some.inj (h.1.symm.trans h'.1)

theorem Clean.of_append {x : Checked α} {y : Checked β} {z : Checked β}
    (h : z.findings = x.findings ++ y.findings) : z.Clean ↔ x.Clean ∧ y.Clean := by
  simp only [Clean, h, List.mem_append, or_imp, forall_and]

@[simp] theorem yields_pure {a b : α} : (Pure.pure a : Checked α).Yields b ↔ a = b := by
  simp [Yields, Clean]

@[simp] theorem yields_pure' {a b : α} : (Checked.pure a).Yields b ↔ a = b :=
  yields_pure

@[simp] theorem clean_pure (a : α) : (Pure.pure a : Checked α).Clean := by
  simp [Clean]

@[simp] theorem not_yields_fail (p : Problem) (span : Span) (a : α) :
    ¬ (Checked.fail p span).Yields a := by
  simp [Yields, Checked.fail]

@[simp] theorem not_yields_abandon (a : α) : ¬ (Checked.abandon).Yields a := by
  simp [Yields, Checked.abandon]

@[simp] theorem clean_fail {p : Problem} {span : Span} :
    (Checked.fail p span : Checked α).Clean ↔ p.isError = false := by
  simp [Clean, Checked.fail]

@[simp] theorem yields_note {p : Problem} {span : Span} {u : Unit} :
    (Checked.note p span).Yields u ↔ p.isError = false := by
  simp [Yields, Clean, Checked.note]

@[simp] theorem clean_note {p : Problem} {span : Span} :
    (Checked.note p span).Clean ↔ p.isError = false := by
  simp [Clean, Checked.note]

theorem yields_bind {x : Checked α} {f : α → Checked β} {b : β} :
    (x >>= f).Yields b ↔ ∃ a, x.Yields a ∧ (f a).Yields b := by
  cases hx : x.value with
  | none => simp [Yields, bind_value, hx]
  | some a =>
    have hc := Clean.of_append (bind_findings_of_some hx f)
    simp only [Yields, hc, bind_value, hx, Option.bind_some, Option.some.injEq]
    constructor
    · rintro ⟨hb, hxc, hfc⟩
      exact ⟨a, ⟨rfl, hxc⟩, hb, hfc⟩
    · rintro ⟨_, ⟨rfl, hxc⟩, hb, hfc⟩
      exact ⟨hb, hxc, hfc⟩

theorem Clean.of_bind {x : Checked α} {f : α → Checked β} (h : (x >>= f).Clean) : x.Clean := by
  cases hx : x.value with
  | none =>
    simp only [Clean, Bind.bind, Checked.bind, hx] at h
    exact h
  | some a => exact ((Clean.of_append (bind_findings_of_some hx f)).mp h).1

theorem Yields.clean_bind {x : Checked α} {a : α} (h : x.Yields a) {f : α → Checked β} :
    (x >>= f).Clean ↔ (f a).Clean := by
  rw [Clean.of_append (bind_findings_of_some h.1 f)]
  exact and_iff_right h.2

theorem yields_attempt {x : Checked α} {o : Option α} :
    x.attempt.Yields o ↔ x.Clean ∧ o = x.value := by
  have hc : x.attempt.Clean ↔ x.Clean := Iff.rfl
  rw [Yields, hc, and_comm]
  exact and_congr_right fun _ => ⟨fun h => (Option.some.inj h).symm, fun h => congrArg some h.symm⟩

theorem yields_attempt_some {x : Checked α} {a : α} :
    x.attempt.Yields (some a) ↔ x.Yields a := by
  rw [yields_attempt, Yields, eq_comm, and_comm]

theorem yields_proceed {x : Checked α} {f : Option α → Checked β} {b : β} :
    (x.proceed f).Yields b ↔ ∃ a, x.Yields a ∧ (f (some a)).Yields b := by
  have hc : (x.proceed f).Clean ↔ x.Clean ∧ (f x.value).Clean := Clean.of_append rfl
  cases hx : x.value with
  | none => simp [Yields, Checked.proceed, hx]
  | some a =>
    rw [hx] at hc
    simp only [Yields, hc, hx, Option.some.injEq]
    simp only [Checked.proceed, hx, Option.isSome_some, if_true]
    constructor
    · rintro ⟨hb, hxc, hfc⟩
      exact ⟨a, ⟨rfl, hxc⟩, hb, hfc⟩
    · rintro ⟨_, ⟨rfl, hxc⟩, hb, hfc⟩
      exact ⟨hb, hxc, hfc⟩

theorem yields_both {x : Checked α} {y : Checked β} {a : α} {b : β} :
    (x.both y).Yields (a, b) ↔ x.Yields a ∧ y.Yields b := by
  have hc : (x.both y).Clean ↔ x.Clean ∧ y.Clean := by
    simp only [Clean, Checked.both, List.mem_append, or_imp, forall_and]
  simp only [Yields, hc]
  cases hx : x.value <;> cases hy : y.value <;> simp [Checked.both, hx, hy, and_and_and_comm]

theorem yields_unlessError {x : Checked α} {a : α} : x.unlessError.Yields a ↔ x.Yields a := by
  have hc : x.unlessError.Clean ↔ x.Clean := Iff.rfl
  simp only [Yields, hc]
  refine and_congr_left fun h => ?_
  have : x.findings.any (·.problem.isError) = false :=
    List.any_eq_false.mpr fun f hf => Bool.eq_false_iff.mp (h f hf)
  simp [Checked.unlessError, this]

theorem Loud.bind {x : Checked α} {f : α → Checked β} (hx : x.Loud)
    (hf : ∀ a, x.Yields a → (f a).Loud) : (x >>= f).Loud := by
  intro hc
  obtain ⟨a, ha⟩ := hx hc.of_bind
  obtain ⟨b, hb⟩ := hf a ha (ha.clean_bind.mp hc)
  exact ⟨b, yields_bind.mpr ⟨a, ha, hb⟩⟩

theorem Loud.yields_attempt {x : Checked α} (hx : x.Loud) {o : Option α} :
    x.attempt.Yields o ↔ ∃ a, x.Yields a ∧ o = some a := by
  rw [Checked.yields_attempt]
  constructor
  · rintro ⟨hc, rfl⟩
    obtain ⟨a, ha⟩ := hx hc
    exact ⟨a, ha, ha.1⟩
  · rintro ⟨a, ha, rfl⟩
    exact ⟨ha.2, ha.1.symm⟩

theorem Loud.attempt {x : Checked α} : x.attempt.Loud :=
  fun hc => ⟨x.value, Checked.yields_attempt.mpr ⟨hc, rfl⟩⟩

theorem Loud.proceed {x : Checked α} {f : Option α → Checked β} (hx : x.Loud)
    (hf : ∀ a, x.Yields a → (f (some a)).Loud) : (x.proceed f).Loud := by
  intro hc
  have hc' : x.Clean ∧ (f x.value).Clean := (Clean.of_append rfl).mp hc
  obtain ⟨a, ha⟩ := hx hc'.1
  obtain ⟨b, hb⟩ := hf a ha (ha.1 ▸ hc'.2)
  exact ⟨b, yields_proceed.mpr ⟨a, ha, hb⟩⟩

theorem Loud.both {x : Checked α} {y : Checked β} (hx : x.Loud) (hy : y.Loud) :
    (x.both y).Loud := by
  intro hc
  have hc' : x.Clean ∧ y.Clean := by
    simpa only [Clean, Checked.both, List.mem_append, or_imp, forall_and] using hc
  obtain ⟨a, ha⟩ := hx hc'.1
  obtain ⟨b, hb⟩ := hy hc'.2
  exact ⟨(a, b), yields_both.mpr ⟨ha, hb⟩⟩

theorem Loud.unlessError {x : Checked α} (hx : x.Loud) : x.unlessError.Loud := by
  intro hc
  obtain ⟨a, ha⟩ := hx hc
  exact ⟨a, yields_unlessError.mpr ha⟩

theorem loud_fail {p : Problem} {span : Span} (h : p.isError = true) :
    (Checked.fail p span : Checked α).Loud := by
  intro hc
  simp [h] at hc

@[simp] theorem loud_pure (a : α) : (Pure.pure a : Checked α).Loud :=
  fun _ => ⟨a, by simp⟩

@[simp] theorem loud_pure' (a : α) : (Checked.pure a).Loud :=
  loud_pure a

@[simp] theorem loud_note (p : Problem) (span : Span) : (Checked.note p span).Loud :=
  fun hc => ⟨(), by simpa using hc⟩

theorem yields_foldlM_cons {γ : Type} {f : β → γ → Checked β} {b d : β} {c : γ} {cs : List γ} :
    ((c :: cs).foldlM f b).Yields d ↔ ∃ b', (f b c).Yields b' ∧ (cs.foldlM f b').Yields d := by
  rw [List.foldlM_cons, yields_bind]

theorem Loud.foldlM {γ : Type} {f : β → γ → Checked β} (hf : ∀ b c, (f b c).Loud)
    (cs : List γ) (b : β) : (cs.foldlM f b).Loud := by
  induction cs generalizing b with
  | nil => exact loud_pure b
  | cons c cs ih =>
    rw [List.foldlM_cons]
    exact (hf b c).bind fun b' _ => ih b'

end EndpointCompiler.Checked
