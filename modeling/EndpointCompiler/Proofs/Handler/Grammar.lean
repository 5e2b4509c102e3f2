import EndpointCompiler.Handler.Definition
import EndpointCompiler.Proofs.Handler.Pieces

/-! The grammar of route templates, and that the checks of a route accept what it derives. The checks
read a route from the left and look at the braces that are left over; the grammar knows no order of
reading. -/

namespace EndpointCompiler

namespace Route

/-- Text without braces and words in braces, one after another, with the words in their order. -/
inductive Template : List Char → List String → Prop where
  | nil : Template [] []
  | text {before cs : List Char} {names : List String} (hopen : '\x7b' ∉ before)
      (hclose : '\x7d' ∉ before) (h : Template cs names) : Template (before ++ cs) names
  | placeholder {name : String} {cs : List Char} {names : List String}
      (hname : isWord name.toList = true) (h : Template cs names) :
      Template ('\x7b' :: name.toList ++ '\x7d' :: cs) (name :: names)

/-- A route as it should be: it begins with a slash, has no quote, backslash or white space in it,
and is a template of different names. -/
structure WellFormed (route : String) (names : List String) : Prop where
  slash : route.toList.head? = some '/'
  plain : ∀ c ∈ route.toList, c ≠ '"' ∧ c ≠ '\\' ∧ isWhiteSpace c = false
  template : Template route.toList names
  distinct : names.Nodup

theorem isBrace_eq_false_iff {c : Char} : isBrace c = false ↔ c ≠ '\x7b' ∧ c ≠ '\x7d' := by
  simp [isBrace]

/-! Pieces and templates. -/

theorem template_of_sound {ps : List RoutePiece} (h : ∀ p ∈ ps, p.Sound) :
    Template (ps.flatMap RoutePiece.text) (ps.filterMap RoutePiece.name?) := by
  induction ps with
  | nil => exact .nil
  | cons p ps ih =>
    obtain ⟨hp, hps⟩ := List.forall_mem_cons.mp h
    cases p with
    | char c =>
      obtain ⟨hopen, hclose⟩ := isBrace_eq_false_iff.mp hp
      have hnotOpen : '\x7b' ∉ [c] := fun hmem => hopen (List.mem_singleton.mp hmem).symm
      have hnotClose : '\x7d' ∉ [c] := fun hmem => hclose (List.mem_singleton.mp hmem).symm
      exact .text hnotOpen hnotClose (ih hps)
    | placeholder name =>
      rw [List.flatMap_cons, RoutePiece.text, List.append_assoc]
      exact .placeholder hp (ih hps)

theorem pieces_char {c : Char} (hc : c ≠ '\x7b') (cs : List Char) :
    pieces (c :: cs) = .char c :: pieces cs := by
  rw [pieces, if_neg hc]

/-- Text without an opening brace is read character by character. -/
theorem pieces_text {before : List Char} (h : '\x7b' ∉ before) (cs : List Char) :
    pieces (before ++ cs) = before.map .char ++ pieces cs := by
  induction before with
  | nil => rfl
  | cons c before ih =>
    have hc : c ≠ '\x7b' := fun heq => h (heq ▸ List.mem_cons_self)
    have hmore : '\x7b' ∉ before := fun hmem => h (List.mem_cons_of_mem c hmem)
    rw [List.cons_append, pieces_char hc, ih hmore, List.map_cons, List.cons_append]

theorem placeholder?_word {word : List Char} (h : isWord word = true) (cs : List Char) :
    placeholder? (word ++ '\x7d' :: cs) = some (word, cs) := by
  have hword : (word ++ '\x7d' :: cs).takeWhile isIdentContinue = word := takeWhile_word h cs
  have hrest : (word ++ '\x7d' :: cs).dropWhile isIdentContinue = '\x7d' :: cs := by
    have hsplit := List.takeWhile_append_dropWhile (p := isIdentContinue) (l := word ++ '\x7d' :: cs)
    rw [hword] at hsplit
    exact List.append_cancel_left hsplit
  simp [placeholder?, hword, hrest, h]

theorem pieces_placeholder {name : String} (h : isWord name.toList = true) (cs : List Char) :
    pieces ('\x7b' :: name.toList ++ '\x7d' :: cs) = .placeholder name :: pieces cs := by
  rw [List.cons_append, pieces, if_pos rfl]
  split
  · rename_i word rest hread
    rw [placeholder?_word h cs] at hread
    cases hread
    rw [String.ofList_toList]
  · rename_i hread
    rw [placeholder?_word h cs] at hread
    cases hread

/-- What the grammar derives is read as it is derived, whatever may stand beside it. -/
theorem Template.pieces_sound {cs : List Char} {names : List String} (h : Template cs names) :
    (∀ p ∈ pieces cs, p.Sound) ∧ (pieces cs).filterMap RoutePiece.name? = names := by
  induction h with
  | nil =>
    rw [pieces]
    exact ⟨List.forall_mem_nil _, rfl⟩
  | @text before cs names hopen hclose _ ih =>
    rw [pieces_text hopen]
    constructor
    · refine List.forall_mem_append.mpr ⟨List.forall_mem_map.mpr fun c hc => ?_, ih.1⟩
      have hnotOpen : c ≠ '\x7b' := fun heq => hopen (heq ▸ hc)
      have hnotClose : c ≠ '\x7d' := fun heq => hclose (heq ▸ hc)
      exact isBrace_eq_false_iff.mpr ⟨hnotOpen, hnotClose⟩
    · have hnone : (before.map RoutePiece.char).filterMap RoutePiece.name? = [] :=
        List.filterMap_eq_nil_iff.mpr (List.forall_mem_map.mpr fun _ _ => rfl)
      rw [List.filterMap_append, hnone, List.nil_append, ih.2]
  | placeholder hname _ ih =>
    rw [pieces_placeholder hname]
    exact ⟨List.forall_mem_cons.mpr ⟨hname, ih.1⟩, congrArg (_ :: ·) ih.2⟩

theorem template_iff {route : String} {names : List String} :
    Template route.toList names ↔
      (∀ p ∈ pieces route.toList, p.Sound) ∧ placeholders route = names := by
  rw [placeholders_eq]
  constructor
  · exact Template.pieces_sound
  · rintro ⟨hsound, rfl⟩
    have htemplate := template_of_sound hsound
    rwa [flatMap_text_pieces] at htemplate

/-- A route without a fault has the names that the grammar gives it. -/
theorem wellFormed_iff {route : String} {names : List String} :
    WellFormed route names ↔ fault? route = none ∧ placeholders route = names := by
  rw [fault?_eq_none_iff]
  constructor
  · rintro ⟨hslash, hplain, htemplate, hdistinct⟩
    obtain ⟨hsound, rfl⟩ := template_iff.mp htemplate
    exact ⟨⟨hslash, hplain, hsound, hdistinct⟩, rfl⟩
  · rintro ⟨⟨hslash, hplain, hsound, hdistinct⟩, rfl⟩
    exact ⟨hslash, hplain, template_iff.mpr ⟨hsound, rfl⟩, hdistinct⟩

end Route

/-- Whether a definition is refused because of its route. -/
def DefinitionError.concernsRoute : DefinitionError → Bool
  | .emptyRoute _ | .invalidRoute .. => true
  | _ => false

namespace HandlerDefinition

theorem checkBindings_concernsRoute {request : TypeRef} {seen : List String}
    {bodyTarget : Option String} {bs : List ParameterBinding} {e : DefinitionError}
    (h : checkBindings request seen bodyTarget bs = .error e) : e.concernsRoute = false := by
  fun_induction checkBindings request seen bodyTarget bs with
  | case1 => cases h
  | case2 =>
    cases h
    rfl
  | case3 =>
    cases h
    rfl
  | case4 _ _ _ _ _ _ ih => exact ih h
  | case5 =>
    cases h
    rfl
  | case6 _ _ _ _ _ _ ih => exact ih h
  | case7 _ _ _ _ _ _ _ ih => exact ih h

/-- The routes that are refused are the empty ones and those with a fault. -/
theorem validate_passes_route_iff {d : HandlerDefinition} (hmethod : d.method ∈ Method.supported) :
    (∀ e, d.validate = .error e → e.concernsRoute = false) ↔
      d.route ≠ "" ∧ Route.fault? d.route = none := by
  rw [validate, if_neg (not_not.mpr hmethod)]
  by_cases hempty : d.route = ""
  · rw [if_pos hempty]
    simp [hempty, DefinitionError.concernsRoute]
  · rw [if_neg hempty]
    cases hfault : Route.fault? d.route with
    | some fault => simp [DefinitionError.concernsRoute]
    | none =>
      refine iff_of_true (fun e he => ?_) ⟨hempty, rfl⟩
      dsimp only at he
      split at he
      · cases he
        rfl
      · exact checkBindings_concernsRoute he

end HandlerDefinition

/-- The checks of a route accept it and give it its names exactly if the grammar does, and they are
the checks that stand between a definition and its route being refused. -/
theorem Route.accepts_iff_wellFormed (route : String) (names : List String) :
    (route ≠ "" ∧ fault? route = none ∧ placeholders route = names ↔ WellFormed route names) ∧
      ∀ d : HandlerDefinition, d.method ∈ Method.supported → d.route = route →
        ((∀ e, d.validate = .error e → e.concernsRoute = false) ↔
          ∃ names, WellFormed route names) := by
  have hne : ∀ {names}, WellFormed route names → route ≠ "" := by
    rintro _ h rfl
    cases h.slash
  constructor
  · rw [← wellFormed_iff]
    exact ⟨And.right, fun h => ⟨hne h, h⟩⟩
  · rintro d hmethod rfl
    rw [HandlerDefinition.validate_passes_route_iff hmethod]
    constructor
    · rintro ⟨-, hfault⟩
      exact ⟨_, wellFormed_iff.mpr ⟨hfault, rfl⟩⟩
    · rintro ⟨names, h⟩
      exact ⟨hne h, (wellFormed_iff.mp h).1⟩

/-- Placeholders beside each other and beside text. -/
def imageDefinition : HandlerDefinition :=
  ⟨.declared "app" "Image", .declared "app" "Content", .get, "/v\x7ba\x7d\x7b_b2\x7d.png", []⟩

theorem Route.accepts_iff_wellFormed_image : WellFormed imageDefinition.route ["a", "_b2"] ∧
    imageDefinition.method ∈ Method.supported ∧
      ∀ e, imageDefinition.validate = .error e → e.concernsRoute = false := by
  obtain ⟨hroute, hvalidate⟩ := accepts_iff_wellFormed imageDefinition.route ["a", "_b2"]
  have hwellFormed := hroute.mp (by decide +kernel)
  have hmethod : imageDefinition.method ∈ Method.supported := by decide
  exact ⟨hwellFormed, hmethod, (hvalidate imageDefinition hmethod rfl).mpr ⟨_, hwellFormed⟩⟩

end EndpointCompiler
