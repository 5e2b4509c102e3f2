import EndpointCompiler.Proofs.Source.Grammar
import Mathlib.Data.List.TakeWhile

/-! Names in trees are words that are no keywords, because the lexer makes identifiers of such words
only. So every type that derives from the tokens of a text can be written. -/

namespace EndpointCompiler.Source

/-- All identifiers among tokens can be names. -/
def Named (ts : Tokens) : Prop :=
  ∀ l ∈ ts, ∀ n, l.token = .ident n → isPropertyName n = true

theorem isWord_takeWhile {c : Char} (hc : isIdentStart c = true) (cs : List Char) :
    isWord (c :: cs.takeWhile isIdentContinue) = true := by
  simp only [isWord, hc, Bool.true_and, List.all_eq_true]
  exact fun d hd => List.mem_takeWhile_imp hd

theorem element_ident {c : Char} {cs : List Char} {e : Element} {n : String}
    (h : element c cs = .ok e) (hn : e.token? = some (.ident n)) : isPropertyName n = true := by
  obtain ⟨hstart, hkeyword, hname, -⟩ := element_eq_ident h hn
  rw [isPropertyName, hname, isWord_takeWhile hstart, hkeyword]
  rfl

theorem lexemesFrom_named {cs : List Char} {offset : Nat} {ls : List Lexeme}
    (h : lexemesFrom offset cs = .ok ls) : Named ls := by
  fun_induction lexemesFrom offset cs generalizing ls with
  | case1 =>
    cases h
    intro l hl n hn
    rw [List.mem_singleton.mp hl] at hn
    cases hn
  | case2 => cases h
  | case3 => cases h
  | case4 _ _ _ _ _ _ _ hm _ =>
    cases h
    rename_i ih
    exact ih hm
  | case5 _ _ _ _ he _ _ hm t ht =>
    cases h
    rename_i ih
    intro l hl n hn
    rcases List.mem_cons.mp hl with rfl | hl
    · exact element_ident he (ht.trans (congrArg some hn))
    · exact ih hm l hl n hn

theorem Named.sublist {ts us : Tokens} (h : Named ts) (hsub : us.Sublist ts) : Named us :=
  fun l hl => h l (hsub.subset hl)

theorem writableAll_toTypeRefs {es : List TypeExpr} (h : ∀ e ∈ es, e.toTypeRef.Writable) :
    TypeRef.WritableAll (TypeExpr.toTypeRefs es) := by
  induction es with
  | nil => trivial
  | cons e es ih => exact ⟨h e (by simp), ih fun d hd => h d (by simp [hd])⟩

theorem writable_toTypeRef_path {module : Option ModuleId} {name : String} {es : List TypeExpr}
    (hm : ∀ m, module = some m → IsModulePath m) (hn : isPropertyName name = true)
    (h : ∀ e ∈ es, e.toTypeRef.Writable) (span : Span) :
    (TypeExpr.path module name es span).toTypeRef.Writable := by
  have hall := writableAll_toTypeRefs h
  by_cases ha : module = none ∧ name = "Async" ∧ es.length = 1
  · obtain ⟨rfl, rfl, hl⟩ := ha
    obtain ⟨e, rfl⟩ := List.length_eq_one_iff.mp hl
    rw [toTypeRef_async rfl]
    exact hall.1
  · rw [toTypeRef_path ha]
    exact ⟨hm, hn, hall, by rwa [toTypeRefs_length]⟩

section

variable {α : Type} {P : Phrase α} {us : List Token}

theorem Separated.exists_of_mem {as : List α} (h : Separated P us as) {a : α} (ha : a ∈ as) :
    ∃ vs, vs.Sublist us ∧ P vs a := by
  induction h with
  | last hb =>
    obtain rfl := List.mem_singleton.mp ha
    exact ⟨_, List.Sublist.refl _, hb⟩
  | @cons us vs b as hb _ ih =>
    rcases List.mem_cons.mp ha with rfl | ha
    · exact ⟨us, List.sublist_append_left us _, hb⟩
    · obtain ⟨ws, hws, hP⟩ := ih ha
      have hlater : vs.Sublist (us ++ .punct .comma :: vs) :=
        (List.sublist_cons_self _ vs).trans (List.sublist_append_right us _)
      exact ⟨ws, hws.trans hlater, hP⟩

theorem NamePhrase.isModulePath {module : Option ModuleId} {n : String}
    (h : NamePhrase us (module, n)) (hus : ∀ k, .ident k ∈ us → isPropertyName k = true) :
    (∀ m, module = some m → IsModulePath m) ∧ isPropertyName n = true := by
  cases h with
  | plain => exact ⟨nofun, hus n List.mem_cons_self⟩
  | inModule m more =>
    refine ⟨?_, hus n (by simp)⟩
    rintro _ ⟨⟩
    refine ⟨m :: more, by simp, List.forall_mem_cons.mpr ⟨hus m (by simp), fun k hk => ?_⟩, rfl⟩
    exact hus k (by simp [pathTokens, hk])

-- Arguments stand in a list of their own, so the induction is on the number of tokens.
/-- A type that derives from identifiers can be written, since each of them is a name. -/
theorem TypePhrase.writable {t : TypeExpr} (h : TypePhrase us t)
    (hus : ∀ n, .ident n ∈ us → isPropertyName n = true) : t.toTypeRef.Writable := by
  induction hn : us.length using Nat.strongRecOn generalizing us t with
  | ind n ih =>
    subst hn
    have hshorter : ∀ ws t, ws.length < us.length → ws ⊆ us → TypePhrase ws t →
        t.toTypeRef.Writable :=
      fun ws t hlt hsub ht => ih ws.length hlt ht (fun n hn => hus n (hsub hn)) rfl
    cases h with
    | @array ws element h =>
      rw [TypeExpr.toTypeRef]
      refine hshorter ws element ?_ (fun k hk => by simp [hk]) h
      simp only [List.length_append, List.length_cons]
      omega
    | name h =>
      obtain ⟨hmodule, hname⟩ := h.isModulePath hus
      exact writable_toTypeRef_path hmodule hname (List.forall_mem_nil _) _
    | @apply vs ws module name args h hargs =>
      obtain ⟨hmodule, hname⟩ := h.isModulePath fun n hn => hus n (by simp [hn])
      refine writable_toTypeRef_path hmodule hname (fun t ht => ?_) _
      obtain ⟨xs, hxs, hphrase⟩ := hargs.exists_of_mem ht
      refine hshorter xs t ?_ (fun k hk => by simp [hxs.subset hk]) hphrase
      have := hxs.length_le
      simp only [List.length_append, List.length_cons]
      omega

/-- A type that derives from some tokens of a text can be written. -/
theorem Named.writable {ks : Tokens} (hks : Named ks) {t : TypeExpr}
    (h : TypePhrase (ks.map (·.token)) t.bare) : t.toTypeRef.Writable := by
  rw [← t.toTypeRef_bare]
  refine h.writable fun n hn => ?_
  obtain ⟨l, hl, hln⟩ := List.mem_map.mp hn
  exact hks l hl n hln

end

end EndpointCompiler.Source
