import EndpointCompiler.Proofs.Matching
import EndpointCompiler.Proofs.Source.Placement

/-! The reader of source texts recognises the grammar: a text is read exactly if its tokens derive
from it, and then to the tree that they derive. -/

namespace EndpointCompiler.Source

section

variable {us : List Token} {ts rest : Tokens}

theorem items_takes {ts : Tokens} {is : List Item} (h : items ts = .ok is) :
    ∃ us rest, Begins us ts rest ∧ peek rest = .eof ∧ FilePhrase us (is.map (·.bare)) := by
  rw [items] at h
  split at h
  · rename_i hend
    cases h
    exact ⟨[], ts, begins_nil.mpr rfl, hend, .nil⟩
  · cases hfirst : item ts with
    | error e =>
      rw [hfirst] at h
      cases h
    | ok first =>
      have hlt := first.short
      obtain ⟨us, hus, hitem⟩ := item_takes first hfirst
      cases hmore : items first.rest with
      | error e =>
        simp only [hfirst, bind, Except.bind, hmore] at h
        cases h
      | ok more =>
        simp only [hfirst, bind, Except.bind, hmore] at h
        cases h
        obtain ⟨vs, rest, hvs, hend, hmore⟩ := items_takes hmore
        exact ⟨us ++ vs, rest, begins_append.mpr ⟨_, hus, hvs⟩, hend, .cons hitem hmore⟩
termination_by ts.length

end

/-- The tokens of a text before its end. -/
def tokensOf (ls : Tokens) : List Token :=
  (ls.map (·.token)).takeWhile (· ≠ .eof)

theorem tokensOf_append {ks : Tokens} {l : Lexeme} (hks : ∀ k ∈ ks, k.token ≠ .eof)
    (hl : l.token = .eof) : tokensOf (ks ++ [l]) = ks.map (·.token) := by
  have hall : ∀ t ∈ ks.map (·.token), decide (t ≠ .eof) = true := by
    intro t ht
    obtain ⟨k, hk, rfl⟩ := List.mem_map.mp ht
    exact decide_eq_true (hks k hk)
  rw [tokensOf, List.map_append, List.takeWhile_append_of_pos hall]
  simp [hl]

theorem tokenize_begins {text : String} {ls : Tokens} (h : tokenize text = .ok ls) :
    ∃ l, Begins (tokensOf ls) ls [l] ∧ l.token = .eof := by
  obtain ⟨ks, l, rfl, hl, hks⟩ := lexemesFrom_ends h
  exact ⟨l, ⟨ks, (tokensOf_append hks hl).symm, rfl⟩, hl⟩

theorem ne_eof_of_mem_tokensOf {ls : Tokens} {t : Token} (h : t ∈ tokensOf ls) : t ≠ .eof :=
  of_decide_eq_true (List.all_eq_true.mp List.all_takeWhile t h)

/-- The end of a text stands once, after all its other tokens. -/
theorem Begins.eq_of_end {us vs : List Token} {ls rest : Tokens} {l r : Lexeme}
    (hus : ∀ u ∈ us, u ≠ .eof) (h : Begins us ls [l]) (hvs : Begins vs ls (r :: rest))
    (hr : r.token = .eof) : vs = us := by
  obtain ⟨ks, rfl, rfl⟩ := h
  obtain ⟨ms, rfl, heq⟩ := hvs
  rcases List.append_eq_append_iff.mp heq with ⟨as, rfl, hlast⟩ | ⟨as, rfl, hlast⟩
  · have hlength := congrArg List.length hlast
    simp only [List.length_append, List.length_cons, List.length_nil] at hlength
    have has : as = [] := List.length_eq_zero_iff.mp (by omega)
    rw [has, List.append_nil]
  · cases as with
    | nil => rw [List.append_nil]
    | cons a as =>
      obtain ⟨rfl, -⟩ := List.cons.inj hlast
      have hmem : r.token ∈ (ms ++ r :: as).map (·.token) :=
        List.mem_map_of_mem (List.mem_append_right _ List.mem_cons_self)
      exact absurd hr (hus _ hmem)

theorem ItemPhrase.last {us : List Token} {i : Item} (h : ItemPhrase us i) :
    ∃ vs, us = vs ++ [.punct .rightBrace] := by
  have hop : ∀ {as : List Attribute} {isAsync : Bool} {vs ws : List Token} {d : OpDecl},
      OpPhrase as isAsync ws d → ∃ us, vs ++ ws = us ++ [.punct .rightBrace] := by
    intro as isAsync vs ws d hd
    cases hd with
    | mk n _ _ _ => exact ⟨_, (List.append_assoc ..).symm⟩
  cases h with
  | shape _ hd =>
    cases hd with
    | mk n _ => exact ⟨_, (List.append_assoc ..).symm⟩
  | op _ hd => exact hop hd
  | @asyncOp us vs as d _ hd =>
    have hsplit : us ++ .keyword .async :: vs = (us ++ [.keyword .async]) ++ vs := by simp
    rw [hsplit]
    exact hop hd

theorem FilePhrase.last {us : List Token} {is : List Item} (h : FilePhrase us is) :
    us = [] ∨ ∃ vs, us = vs ++ [.punct .rightBrace] := by
  induction h with
  | nil => exact .inl rfl
  | @cons us vs i is hi _ ih =>
    rcases ih with rfl | ⟨vs, rfl⟩
    · rw [List.append_nil]
      exact .inr hi.last
    · exact .inr ⟨us ++ vs, (List.append_assoc ..).symm⟩

theorem parseSource_tokens {text : String} {ls : Tokens} {is : List Item}
    (h : tokenize text = .ok ls) (hparse : parseSource text = .ok is) :
    FilePhrase (tokensOf ls) (is.map (·.bare)) := by
  obtain ⟨l, hls, hl⟩ := tokenize_begins h
  have hitems : items ls = .ok is := by simpa [parseSource, h, bind, Except.bind] using hparse
  obtain ⟨us, rest, hus, hend, hfile⟩ := items_takes hitems
  have heq : us = tokensOf ls := by
    cases rest with
    | cons r rest => exact hls.eq_of_end (fun _ => ne_eof_of_mem_tokensOf) hus hend
    | nil =>
      -- The declarations would take the end of the text, and none ends with it.
      exfalso
      obtain ⟨ks, hks, rfl⟩ := hls
      obtain ⟨ms, rfl, hms⟩ := hus
      rw [List.append_nil] at hms
      subst hms
      rcases hfile.last with hnil | ⟨vs, hlast⟩
      · simp at hnil
      · rw [List.map_append, List.map_singleton, hl] at hlast
        have := List.append_inj_right' hlast rfl
        simp at this
  rwa [heq] at hfile

/-- The declarations of a text stand over its tokens in turn. -/
theorem parseSource_over {text : String} {is : List Item} (h : parseSource text = .ok is) :
    ∃ ks l, tokenize text = .ok (ks ++ [l]) ∧ (∀ k ∈ ks, k.token ≠ .eof) ∧
      InTurn ItemOver ks is := by
  cases htokens : tokenize text with
  | error e =>
    rw [parseSource, htokens] at h
    cases h
  | ok ls =>
    obtain ⟨ks, l, rfl, hl, hks⟩ := lexemesFrom_ends htokens
    have hfile := parseSource_tokens htokens h
    rw [tokensOf_append hks hl] at hfile
    obtain ⟨js, -, hover, hread⟩ := hfile.placed rfl
    have hjs := hread 0 [l] hl
    rw [map_shift_eq_self fun k _ => k.shift_zero, map_shift_eq_self fun i _ => i.shift_zero] at hjs
    have his : items (ks ++ [l]) = .ok is := by
      simpa [parseSource, htokens, bind, Except.bind] using h
    rw [hjs] at his
    cases his
    exact ⟨ks, l, rfl, hks, hover⟩

/-- Every declaration has its name right after its keyword. -/
theorem parseSource_named {text : String} {is : List Item} (h : parseSource text = .ok is)
    {i : Item} (hi : i ∈ is) :
    ∃ ls, tokenize text = .ok ls ∧ NamedAfter i.keyword i.name ls := by
  obtain ⟨ks, l, htokens, -, hover⟩ := parseSource_over h
  obtain ⟨_, ⟨before, after, rfl⟩, hi⟩ := hover.mem hi
  refine ⟨_, htokens, ?_⟩
  have hnamed := (hi.named.before before).after (after ++ [l])
  rwa [← List.append_assoc] at hnamed

theorem parseSource_reads {text : String} {ls : Tokens} {is : List Item}
    (h : tokenize text = .ok ls) (hfile : FilePhrase (tokensOf ls) is) :
    ∃ js, parseSource text = .ok js ∧ js.map (·.bare) = is := by
  obtain ⟨l, ⟨ks, hks, rfl⟩, hl⟩ := tokenize_begins h
  obtain ⟨js, rfl, -, hread⟩ := hfile.placed hks
  have hjs := hread 0 [l] hl
  rw [map_shift_eq_self fun k _ => k.shift_zero, map_shift_eq_self fun i _ => i.shift_zero] at hjs
  refine ⟨js, ?_, rfl⟩
  simp only [parseSource, h, bind, Except.bind, hjs]

theorem parseTypeExpr_tokens {text : String} {ls : Tokens} {t : TypeExpr}
    (h : tokenize text = .ok ls) (hparse : parseTypeExpr text = .ok t) :
    TypePhrase (tokensOf ls) t.bare := by
  obtain ⟨l, hls, hl⟩ := tokenize_begins h
  cases htype : typeExpr ls with
  | error e =>
    simp only [parseTypeExpr, h, bind, Except.bind, htype] at hparse
    cases hparse
  | ok p =>
    obtain ⟨us, hus, hphrase⟩ := typeExpr_takes p htype
    simp only [parseTypeExpr, h, bind, Except.bind, htype] at hparse
    cases hrest : p.rest with
    | nil =>
      rw [hrest] at hparse
      cases hparse
    | cons r rest =>
      rw [hrest] at hparse hus
      by_cases hr : r.token = .eof
      · rw [expect, if_pos hr] at hparse
        cases hparse
        rwa [hls.eq_of_end (fun _ => ne_eof_of_mem_tokensOf) hus hr] at hphrase
      · rw [expect, if_neg hr] at hparse
        cases hparse

theorem parseTypeExpr_reads {text : String} {ls : Tokens} {t : TypeExpr}
    (h : tokenize text = .ok ls) (ht : TypePhrase (tokensOf ls) t) :
    ∃ e, parseTypeExpr text = .ok e ∧ e.bare = t := by
  obtain ⟨l, ⟨ks, hks, rfl⟩, hl⟩ := tokenize_begins h
  have hends : EndsType (peek [l]) := by
    have heof : peek [l] = .eof := hl
    simp [EndsType, heof]
  obtain ⟨e, rfl, -, hread⟩ := ht.placed hks
  have hread := hread.reads 0 hends
  rw [map_shift_eq_self fun k _ => k.shift_zero, e.shift_zero] at hread
  obtain ⟨⟨_, _, hshort⟩, hp, rfl, rfl⟩ := hread
  refine ⟨_, ?_, rfl⟩
  simp only [parseTypeExpr, h, bind, Except.bind, hp, expect, if_pos hl]
  rfl

/-- A text whose tokens are known is accepted exactly if these derive from the grammar, and then its
tree is the one that they derive; the same holds of texts that are to be one type. -/
theorem parseSource_recognizes {text : String} {ls : Tokens} (h : tokenize text = .ok ls) :
    (∀ is, FilePhrase (tokensOf ls) is ↔
        ∃ js, parseSource text = .ok js ∧ js.map (·.bare) = is) ∧
      (∀ is js, FilePhrase (tokensOf ls) is → FilePhrase (tokensOf ls) js → is = js) ∧
      (∀ t, TypePhrase (tokensOf ls) t ↔ ∃ e, parseTypeExpr text = .ok e ∧ e.bare = t) := by
  refine ⟨fun is => ⟨parseSource_reads h, ?_⟩, ?_, fun t => ⟨parseTypeExpr_reads h, ?_⟩⟩
  · rintro ⟨js, hjs, rfl⟩
    exact parseSource_tokens h hjs
  · intro is js his hjs
    obtain ⟨read, hread, rfl⟩ := parseSource_reads h his
    obtain ⟨read', hread', rfl⟩ := parseSource_reads h hjs
    rw [hread] at hread'
    cases hread'
    rfl
  · rintro ⟨e, he, rfl⟩
    exact parseTypeExpr_tokens h he

/-- A text with every form of declaration, statement and expression. -/
def listText : String :=
  "shape L { n: List<core::Int>, } " ++
    "#[http(GET, \"/\")] async op f(#[path] n: [L],) -> L \x7b " ++
    "let x = await g::<L, L>(new L \x7b n = n.m, \x7d); return x; \x7d"

/-- The declarations of `listText` derive from its tokens, and a list of types may not end with a
comma. -/
theorem parseSource_recognizes_listText :
    (∃ ls is, tokenize listText = .ok ls ∧ parseSource listText = .ok is ∧
        FilePhrase (tokensOf ls) (is.map (·.bare))) ∧
      ∃ ls, tokenize "shape S { n: List<core::Int,> }" = .ok ls ∧
        ∀ is, ¬ FilePhrase (tokensOf ls) is := by
  constructor
  · obtain ⟨is, his⟩ : ∃ is, parseSource listText = .ok is := exists_eq_ok (by decide +kernel)
    cases hls : tokenize listText with
    | error e =>
      rw [parseSource, hls] at his
      cases his
    | ok ls => exact ⟨ls, is, rfl, his, ((parseSource_recognizes hls).1 _).mpr ⟨is, his, rfl⟩⟩
  · obtain ⟨ls, hls⟩ : ∃ ls, tokenize "shape S { n: List<core::Int,> }" = .ok ls :=
      exists_eq_ok (by decide +kernel)
    refine ⟨ls, hls, fun is hfile => ?_⟩
    obtain ⟨js, hjs, -⟩ := ((parseSource_recognizes hls).1 is).mp hfile
    have hfails : (parseSource "shape S { n: List<core::Int,> }").isOk = false := by
      decide +kernel
    rw [hjs] at hfails
    cases hfails

end EndpointCompiler.Source
