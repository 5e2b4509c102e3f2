import EndpointCompiler.Source.Parser
import EndpointCompiler.Proofs.Text.Parsed

/-! What the readers of single tokens make of a list of tokens that begins as they ask for. -/

namespace EndpointCompiler.Source

section

variable {ts rest : Tokens} {t : Token} {us vs : List Token} {l : Lexeme}

/-- A list begins with lexemes of the given tokens and goes on with a rest. -/
def Begins (us : List Token) (ts rest : Tokens) : Prop :=
  ∃ ls : Tokens, ls.map (·.token) = us ∧ ts = ls ++ rest

/-- Lexemes of the given tokens. -/
def Spells (us : List Token) (ks : Tokens) : Prop :=
  ks.map (·.token) = us

variable {ks : Tokens}

theorem spells_nil : Spells [] ks ↔ ks = [] :=
  List.map_eq_nil_iff

theorem spells_cons : Spells (t :: us) ks ↔
    ∃ l ks', ks = l :: ks' ∧ l.token = t ∧ Spells us ks' :=
  List.map_eq_cons_iff

theorem spells_append : Spells (us ++ vs) ks ↔
    ∃ ks' ms, ks = ks' ++ ms ∧ Spells us ks' ∧ Spells vs ms :=
  List.map_eq_append_iff

theorem spells_singleton : Spells [t] ks ↔ ∃ l, ks = [l] ∧ l.token = t := by
  rw [spells_cons]
  constructor
  · rintro ⟨l, ks', rfl, ht, h⟩
    exact ⟨l, by rw [spells_nil.mp h], ht⟩
  · rintro ⟨l, rfl, ht⟩
    exact ⟨l, [], rfl, ht, rfl⟩

theorem spells_snoc : Spells (us ++ [t]) ks ↔
    ∃ ks' l, ks = ks' ++ [l] ∧ Spells us ks' ∧ l.token = t := by
  rw [spells_append]
  constructor
  · rintro ⟨ks', ms, rfl, hus, hms⟩
    obtain ⟨l, rfl, hl⟩ := spells_singleton.mp hms
    exact ⟨ks', l, rfl, hus, hl⟩
  · rintro ⟨ks', l, rfl, hus, hl⟩
    exact ⟨ks', [l], rfl, hus, spells_singleton.mpr ⟨l, rfl, hl⟩⟩

theorem begins_nil : Begins [] ts rest ↔ ts = rest := by
  constructor
  · rintro ⟨ls, hls, rfl⟩
    rw [List.map_eq_nil_iff.mp hls, List.nil_append]
  · rintro rfl
    exact ⟨[], rfl, rfl⟩

theorem begins_cons : Begins (t :: us) ts rest ↔
    ∃ l ts', ts = l :: ts' ∧ l.token = t ∧ Begins us ts' rest := by
  constructor
  · rintro ⟨ls, hls, rfl⟩
    obtain ⟨l, ls', rfl, ht, hls'⟩ := List.map_eq_cons_iff.mp hls
    exact ⟨l, ls' ++ rest, rfl, ht, ls', hls', rfl⟩
  · rintro ⟨l, ts', rfl, rfl, ls, hls, rfl⟩
    exact ⟨l :: ls, by simp [hls], rfl⟩

theorem begins_append : Begins (us ++ vs) ts rest ↔ ∃ mid, Begins us ts mid ∧ Begins vs mid rest := by
  constructor
  · rintro ⟨ls, hls, rfl⟩
    obtain ⟨ls, ms, rfl, hl, hm⟩ := List.map_eq_append_iff.mp hls
    exact ⟨ms ++ rest, ⟨ls, hl, List.append_assoc ..⟩, ms, hm, rfl⟩
  · rintro ⟨_, ⟨ls, hl, rfl⟩, ms, hm, rfl⟩
    exact ⟨ls ++ ms, by rw [List.map_append, hl, hm], (List.append_assoc ..).symm⟩

theorem begins_singleton : Begins [t] ts rest ↔ ∃ l, ts = l :: rest ∧ l.token = t := by
  rw [begins_cons]
  constructor
  · rintro ⟨l, ts', rfl, ht, h⟩
    exact ⟨l, by rw [begins_nil.mp h], ht⟩
  · rintro ⟨l, rfl, ht⟩
    exact ⟨l, rest, rfl, ht, begins_nil.mpr rfl⟩

theorem Begins.peek (h : Begins (t :: us) ts rest) : peek ts = t := by
  obtain ⟨l, ts', rfl, rfl, -⟩ := begins_cons.mp h
  rfl

theorem reads_expect (h : l.token = t) : Reads (expect t (l :: rest)) (· = l.span) rest := by
  rw [expect, if_pos h]
  exact reads_ok rfl

theorem reads_ident_eq {n : String} (h : l.token = .ident n) :
    Reads (ident (l :: rest)) (· = ⟨n, l.span⟩) rest := by
  unfold ident
  simp only [h]
  exact reads_ok rfl

theorem reads_ident {n : String} (h : l.token = .ident n) :
    Reads (ident (l :: rest)) (·.name = n) rest :=
  (reads_ident_eq h).imp fun _ hi => congrArg Ident.name hi

theorem skip_of_eq (h : l.token = t) :
    (skip t (l :: rest)).value = true ∧ (skip t (l :: rest)).rest = rest := by
  rw [skip, if_pos h]
  exact ⟨rfl, rfl⟩

theorem skip_of_ne (h : peek ts ≠ t) : (skip t ts).value = false ∧ (skip t ts).rest = ts := by
  cases ts with
  | nil => exact ⟨rfl, rfl⟩
  | cons l ts =>
    have hne : l.token ≠ t := h
    rw [skip, if_neg hne]
    exact ⟨rfl, rfl⟩

end

/-- What a text is read as, found from the characters that it is written with: those of a text are
slow to decode. -/
theorem parseSource_written (cs ds : List Char) :
    parseSource (String.ofList cs ++ String.ofList ds) = lexemesFrom 0 (cs ++ ds) >>= items := by
  rw [parseSource, tokenize, String.toList_append, String.toList_ofList, String.toList_ofList]

end EndpointCompiler.Source
