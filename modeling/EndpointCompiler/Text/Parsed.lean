/-! What reading the front of a list yields: a value, and a remainder that is known to be short.
The bound lets a reader call itself on the remainder. -/

namespace EndpointCompiler

structure Parsed (α : Type) (τ : Type) (bound : Nat) where
  value : α
  rest : List τ
  short : rest.length < bound

namespace Parsed

variable {α β τ : Type} {m n : Nat}

def map (f : α → β) (p : Parsed α τ n) : Parsed β τ n :=
  ⟨f p.value, p.rest, p.short⟩

/-- A remainder that is short enough for one bound is so for any larger one. -/
def weaken (p : Parsed α τ m) (h : m ≤ n) : Parsed α τ n :=
  ⟨p.value, p.rest, Nat.lt_of_lt_of_le p.short h⟩

def none (value : α) (ts : List τ) : Parsed α τ (ts.length + 1) :=
  ⟨value, ts, Nat.lt_succ_self _⟩

@[simp] theorem map_value (f : α → β) (p : Parsed α τ n) : (p.map f).value = f p.value := rfl

@[simp] theorem map_rest (f : α → β) (p : Parsed α τ n) : (p.map f).rest = p.rest := rfl

@[simp] theorem weaken_value (p : Parsed α τ m) (h : m ≤ n) : (p.weaken h).value = p.value := rfl

@[simp] theorem weaken_rest (p : Parsed α τ m) (h : m ≤ n) : (p.weaken h).rest = p.rest := rfl

end Parsed

end EndpointCompiler
