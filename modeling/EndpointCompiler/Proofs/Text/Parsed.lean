import EndpointCompiler.Text.Parsed

/-! What a reader comes to on a list that it accepts: a value with some property, and the rest that
it leaves. -/

namespace EndpointCompiler

section

variable {ε α β τ : Type} {m n : Nat} {P : α → Prop} {Q : β → Prop} {rest rest' : List τ}

def Reads (r : Except ε (Parsed α τ n)) (P : α → Prop) (rest : List τ) : Prop :=
  ∃ p, r = .ok p ∧ P p.value ∧ p.rest = rest

theorem reads_ok {a : α} {h : rest.length < n} (ha : P a) :
    Reads (.ok ⟨a, rest, h⟩ : Except ε (Parsed α τ n)) P rest :=
  ⟨_, rfl, ha, rfl⟩

theorem Reads.bind {r : Except ε (Parsed α τ n)} {f : Parsed α τ n → Except ε (Parsed β τ m)}
    (h : Reads r P rest)
    (hf : ∀ a (hs : rest.length < n), P a → Reads (f ⟨a, rest, hs⟩) Q rest') :
    Reads (r >>= f) Q rest' := by
  obtain ⟨⟨a, _, hs⟩, rfl, ha, rfl⟩ := h
  exact hf a hs ha

theorem Reads.imp {Q : α → Prop} {r : Except ε (Parsed α τ n)} (h : Reads r P rest)
    (hPQ : ∀ a, P a → Q a) : Reads r Q rest := by
  obtain ⟨p, hp, ha, hr⟩ := h
  exact ⟨p, hp, hPQ _ ha, hr⟩

theorem Reads.map {r : Except ε (Parsed α τ n)} {f : α → β} (h : Reads r P rest)
    (hf : ∀ a, P a → Q (f a)) : Reads (r.map (·.map f)) Q rest := by
  obtain ⟨p, rfl, ha, rfl⟩ := h
  exact ⟨_, rfl, hf _ ha, rfl⟩

theorem Reads.weaken {r : Except ε (Parsed α τ n)} (h : Reads r P rest) (hmn : n ≤ m) :
    Reads (r.map (·.weaken hmn)) P rest := by
  obtain ⟨p, rfl, ha, rfl⟩ := h
  exact ⟨_, rfl, ha, rfl⟩

theorem Reads.unique {r : Except ε (Parsed α τ n)} {a b : α} (h : Reads r (· = a) rest)
    (h' : Reads r (· = b) rest') : a = b := by
  obtain ⟨p, rfl, rfl, -⟩ := h
  obtain ⟨q, hq, rfl, -⟩ := h'
  cases hq
  rfl

end

end EndpointCompiler
