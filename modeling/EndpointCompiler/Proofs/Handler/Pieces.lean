import EndpointCompiler.Handler.Route
import EndpointCompiler.Proofs.Matching
import EndpointCompiler.Routing.Tree

/-! Routes cut at their slashes. Whatever is written in place of the placeholders, a route without
slashes in them has the segments that its pieces make. -/

namespace EndpointCompiler

namespace RoutePiece

/-- A piece as it is written in a route. -/
def text : RoutePiece → List Char
  | .char c => [c]
  | .placeholder name => '\x7b' :: name.toList ++ ['\x7d']

def name? : RoutePiece → Option String
  | .char _ => none
  | .placeholder name => some name

/-- The pieces of accepted routes: placeholders are words, and only they have braces. -/
def Sound : RoutePiece → Prop
  | .char c => Route.isBrace c = false
  | .placeholder name => isWord name.toList = true

theorem text_ne_nil (p : RoutePiece) : p.text ≠ [] := by
  cases p <;> simp [text]

end RoutePiece

theorem isIdentContinue_of_isWord {cs : List Char} (h : isWord cs = true) {c : Char} (hc : c ∈ cs) :
    isIdentContinue c = true := by
  cases cs with
  | nil => cases hc
  | cons d cs =>
    obtain ⟨hd, hcs⟩ := Bool.and_eq_true_iff.mp h
    rcases List.mem_cons.mp hc with rfl | hc
    · exact isIdentContinue_of_isIdentStart hd
    · exact List.all_eq_true.mp hcs c hc

theorem takeWhile_word {cs : List Char} (h : isWord cs = true) (rest : List Char) :
    (cs ++ '\x7d' :: rest).takeWhile isIdentContinue = cs := by
  rw [List.takeWhile_append_of_pos fun c hc => isIdentContinue_of_isWord h hc]
  have hbrace : isIdentContinue '\x7d' = false := by decide
  rw [List.takeWhile_cons_of_neg (by simp [hbrace]), List.append_nil]

namespace Route

theorem placeholder?_eq_some {cs word rest : List Char} (h : placeholder? cs = some (word, rest)) :
    cs = word ++ '\x7d' :: rest ∧ isWord word = true := by
  have hsplit := List.takeWhile_append_dropWhile (p := isIdentContinue) (l := cs)
  unfold placeholder? at h
  dsimp only at h
  split at h
  · cases h
  · rename_i c tail hdrop
    split at h
    · rename_i hword
      obtain ⟨rfl, hword⟩ := hword
      cases h
      rw [hdrop] at hsplit
      exact ⟨hsplit.symm, hword⟩
    · cases h

theorem flatMap_text_pieces (cs : List Char) : (pieces cs).flatMap RoutePiece.text = cs := by
  fun_induction pieces cs with
  | case1 => rfl
  | case2 cs word rest h ih =>
    obtain ⟨rfl, -⟩ := placeholder?_eq_some h
    rw [List.flatMap_cons, ih, RoutePiece.text, String.toList_ofList]
    simp
  | case3 cs h ih => rw [List.flatMap_cons, ih, RoutePiece.text, List.singleton_append]
  | case4 c cs hc ih => rw [List.flatMap_cons, ih, RoutePiece.text, List.singleton_append]

theorem isWord_of_mem_pieces {cs : List Char} {name : String}
    (h : RoutePiece.placeholder name ∈ pieces cs) : isWord name.toList = true := by
  fun_induction pieces cs with
  | case1 => cases h
  | case2 cs word rest hword ih =>
    rcases List.mem_cons.mp h with heq | h
    · cases heq
      rw [String.toList_ofList]
      exact (placeholder?_eq_some hword).2
    · exact ih h
  | case3 cs _ ih => exact ih (by simpa using h)
  | case4 c cs _ ih => exact ih (by simpa using h)

theorem placeholders_eq (route : String) :
    placeholders route = (pieces route.toList).filterMap RoutePiece.name? := by
  unfold placeholders
  congr 1
  funext p
  cases p <;> rfl

theorem isWord_of_mem_placeholders {route name : String} (h : name ∈ placeholders route) :
    isWord name.toList = true := by
  rw [placeholders_eq] at h
  obtain ⟨p, hp, hname⟩ := List.mem_filterMap.mp h
  cases p with
  | char c => cases hname
  | placeholder n =>
    cases hname
    exact isWord_of_mem_pieces hp

theorem any_forbidden_eq_false {cs : List Char} :
    cs.any (fun c => c == '"' || c == '\\' || isWhiteSpace c) = false ↔
      ∀ c ∈ cs, c ≠ '"' ∧ c ≠ '\\' ∧ isWhiteSpace c = false := by
  simp [and_assoc]

/-- No brace is left over if and only if each piece is sound. -/
theorem any_malformed_eq_false {cs : List Char} :
    (pieces cs).any (fun
      | .char c => isBrace c
      | .placeholder _ => false) = false ↔ ∀ p ∈ pieces cs, p.Sound := by
  rw [List.any_eq_false]
  constructor
  · intro h p hp
    cases p with
    | char c => exact Bool.eq_false_iff.mpr (h _ hp)
    | placeholder name => exact isWord_of_mem_pieces hp
  · intro h p hp
    cases p with
    | char c => exact Bool.eq_false_iff.mp (h _ hp)
    | placeholder name => exact Bool.false_ne_true

theorem fault?_eq_none_iff {route : String} :
    fault? route = none ↔ route.toList.head? = some '/' ∧
      (∀ c ∈ route.toList, c ≠ '"' ∧ c ≠ '\\' ∧ isWhiteSpace c = false) ∧
      (∀ p ∈ pieces route.toList, p.Sound) ∧ (placeholders route).Nodup := by
  rw [← any_forbidden_eq_false, ← any_malformed_eq_false, fault?]
  split
  · rename_i hslash
    exact iff_of_false nofun fun h => hslash h.1
  rename_i hslash
  split
  · rename_i hforbidden
    exact iff_of_false nofun fun h => Bool.false_ne_true (h.2.1.symm.trans hforbidden)
  rename_i hforbidden
  split
  · rename_i hmalformed
    exact iff_of_false nofun fun h => Bool.false_ne_true (h.2.2.1.symm.trans hmalformed)
  rename_i hmalformed
  split
  · rename_i hdistinct
    exact iff_of_true rfl ⟨not_not.mp hslash, Bool.eq_false_iff.mpr hforbidden,
      Bool.eq_false_iff.mpr hmalformed, hdistinct⟩
  · rename_i hdistinct
    exact iff_of_false nofun fun h => hdistinct h.2.2.2

example : (fault? "/a/\x7b1b\x7d", fault? "/\x7b\x7bid\x7d\x7d",
    fault? "/\x7bid\x7d/\x7bid\x7d") =
      (some .malformedPlaceholder, some .malformedPlaceholder, some .duplicatePlaceholder) := by
  decide +kernel

theorem sound_of_fault? {route : String} (h : fault? route = none) :
    (∀ p ∈ pieces route.toList, p.Sound) ∧ (placeholders route).Nodup :=
  (fault?_eq_none_iff.mp h).2.2

end Route

/-! Cutting lists at a separator, characters as well as pieces. -/

section

variable {α : Type} [DecidableEq α] {separator a : α} {as part : List α}

def splitList (separator : α) : List α → List (List α)
  | [] => [[]]
  | a :: as =>
    match splitList separator as with
    | [] => [[a]]
    | part :: parts => if a = separator then [] :: part :: parts else (a :: part) :: parts

theorem exists_splitList (separator : α) (as : List α) :
    ∃ part parts, splitList separator as = part :: parts := by
  cases as with
  | nil => exact ⟨_, _, rfl⟩
  | cons a as =>
    rw [splitList]
    split
    · exact ⟨_, _, rfl⟩
    · split
      · exact ⟨_, _, rfl⟩
      · exact ⟨_, _, rfl⟩

theorem splitList_separator (separator : α) (as : List α) :
    splitList separator (separator :: as) = [] :: splitList separator as := by
  obtain ⟨part, parts, hsplit⟩ := exists_splitList separator as
  simp [splitList, hsplit]

theorem splitList_cons {parts : List (List α)} (ha : a ≠ separator)
    (h : splitList separator as = part :: parts) :
    splitList separator (a :: as) = (a :: part) :: parts := by
  simp [splitList, h, ha]

theorem splitList_append {bs : List α} {parts : List (List α)} (has : separator ∉ as)
    (h : splitList separator bs = part :: parts) :
    splitList separator (as ++ bs) = (as ++ part) :: parts := by
  induction as with
  | nil => exact h
  | cons a as ih =>
    have ha : a ≠ separator := fun heq => has (by simp [heq])
    have hmore := ih fun hmem => has (List.mem_cons_of_mem _ hmem)
    exact splitList_cons ha hmore

theorem mem_of_mem_splitList (hpart : part ∈ splitList separator as) (ha : a ∈ part) : a ∈ as := by
  induction as generalizing part with
  | nil =>
    obtain rfl := List.mem_singleton.mp hpart
    exact ha
  | cons b as ih =>
    obtain ⟨first, parts, hsplit⟩ := exists_splitList separator as
    have hfirst : first ∈ splitList separator as := by simp [hsplit]
    by_cases hb : b = separator
    · rw [hb, splitList_separator] at hpart
      rcases List.mem_cons.mp hpart with rfl | hpart
      · cases ha
      · exact List.mem_cons_of_mem _ (ih hpart ha)
    · rw [splitList_cons hb hsplit] at hpart
      rcases List.mem_cons.mp hpart with rfl | hpart
      · rcases List.mem_cons.mp ha with rfl | ha
        · exact List.mem_cons_self
        · exact List.mem_cons_of_mem _ (ih hfirst ha)
      · have hmore : part ∈ splitList separator as := by simp [hsplit, hpart]
        exact List.mem_cons_of_mem _ (ih hmore ha)

theorem exists_of_mem_splitList (ha : a ∈ as) (hne : a ≠ separator) :
    ∃ part ∈ splitList separator as, a ∈ part := by
  induction as with
  | nil => cases ha
  | cons b as ih =>
    obtain ⟨first, parts, hsplit⟩ := exists_splitList separator as
    by_cases hb : b = separator
    · have hmem : a ∈ as := by
        rcases List.mem_cons.mp ha with rfl | ha
        · exact absurd hb hne
        · exact ha
      obtain ⟨part, hpart, hmem⟩ := ih hmem
      rw [hb, splitList_separator]
      exact ⟨part, List.mem_cons_of_mem _ hpart, hmem⟩
    · rw [splitList_cons hb hsplit]
      rcases List.mem_cons.mp ha with rfl | ha
      · exact ⟨a :: first, List.mem_cons_self, List.mem_cons_self⟩
      · obtain ⟨part, hpart, hmem⟩ := ih ha
        rw [hsplit] at hpart
        rcases List.mem_cons.mp hpart with rfl | hpart
        · exact ⟨b :: part, List.mem_cons_self, List.mem_cons_of_mem _ hmem⟩
        · exact ⟨part, List.mem_cons_of_mem _ hpart, hmem⟩

end

theorem splitAll_eq (separator : Char) (cs : List Char) :
    splitAll separator cs = splitList separator cs := by
  induction cs with
  | nil => rfl
  | cons c cs ih =>
    rw [splitAll, splitList, ih]
    cases splitList separator cs <;> rfl

namespace Route

theorem mem_of_mem_pathSegments {path s : String} {c : Char} (hs : s ∈ pathSegments path)
    (hc : c ∈ s.toList) : c ∈ path.toList := by
  obtain ⟨piece, hpiece, rfl⟩ := List.mem_map.mp hs
  rw [String.toList_ofList] at hc
  rw [splitAll_eq] at hpiece
  exact mem_of_mem_splitList (List.mem_filter.mp hpiece).1 hc

theorem exists_of_mem_pathSegments {path : String} {c : Char} (hc : c ∈ path.toList)
    (hne : c ≠ '/') : ∃ s ∈ pathSegments path, c ∈ s.toList := by
  obtain ⟨piece, hpiece, hmem⟩ := exists_of_mem_splitList hc hne
  rw [← splitAll_eq] at hpiece
  have hkept : piece ∈ (splitAll '/' path.toList).filter (!·.isEmpty) := by
    refine List.mem_filter.mpr ⟨hpiece, ?_⟩
    cases piece with
    | nil => cases hmem
    | cons _ _ => rfl
  refine ⟨String.ofList piece, List.mem_map_of_mem hkept, ?_⟩
  rwa [String.toList_ofList]

/-- The pieces of the segments of a route. -/
def groups (ps : List RoutePiece) : List (List RoutePiece) :=
  (splitList (.char '/') ps).filter (!·.isEmpty)

variable {ps : List RoutePiece}

theorem splitList_flatMap {f : RoutePiece → List Char} (hchar : ∀ c, f (.char c) = [c])
    (hplaceholder : ∀ n, .placeholder n ∈ ps → '/' ∉ f (.placeholder n)) :
    splitList '/' (ps.flatMap f) = (splitList (.char '/') ps).map (·.flatMap f) := by
  induction ps with
  | nil => rfl
  | cons p ps ih =>
    have hmore := ih fun n hn => hplaceholder n (List.mem_cons_of_mem _ hn)
    obtain ⟨first, parts, hsplit⟩ := exists_splitList (RoutePiece.char '/') ps
    by_cases hp : p = .char '/'
    · subst hp
      rw [List.flatMap_cons, hchar, List.singleton_append, splitList_separator,
        splitList_separator, hmore]
      rfl
    · have hslash : '/' ∉ f p := by
        cases p with
        | char c =>
          rw [hchar]
          simpa [eq_comm] using hp
        | placeholder n => exact hplaceholder n List.mem_cons_self
      rw [hsplit, List.map_cons] at hmore
      rw [List.flatMap_cons, splitList_append hslash hmore, splitList_cons hp hsplit]
      rfl

theorem pathSegments_flatMap {f : RoutePiece → List Char} (hchar : ∀ c, f (.char c) = [c])
    (hplaceholder : ∀ n, .placeholder n ∈ ps → '/' ∉ f (.placeholder n) ∧ f (.placeholder n) ≠ []) :
    pathSegments (String.ofList (ps.flatMap f)) =
      (groups ps).map fun g => String.ofList (g.flatMap f) := by
  have hempty : ∀ g ∈ splitList (.char '/') ps, (!(g.flatMap f).isEmpty) = !g.isEmpty := by
    intro g hg
    cases g with
    | nil => rfl
    | cons p g =>
      have hp := mem_of_mem_splitList hg List.mem_cons_self
      have hne : f p ≠ [] := by
        cases p with
        | char c => simp [hchar]
        | placeholder n => exact (hplaceholder n hp).2
      simp [hne]
  rw [pathSegments, String.toList_ofList, splitAll_eq,
    splitList_flatMap hchar fun n hn => (hplaceholder n hn).1, List.filter_map, List.map_map,
    groups]
  have hfilter : (splitList (.char '/') ps).filter ((fun cs => !cs.isEmpty) ∘ (·.flatMap f)) =
      (splitList (.char '/') ps).filter (!·.isEmpty) := List.filter_congr hempty
  rw [hfilter]
  rfl

theorem filterMap_name?_groups (ps : List RoutePiece) :
    ps.filterMap RoutePiece.name? = (groups ps).flatMap (·.filterMap RoutePiece.name?) := by
  have hsplit : ps.filterMap RoutePiece.name? =
      (splitList (.char '/') ps).flatMap (·.filterMap RoutePiece.name?) := by
    induction ps with
    | nil => rfl
    | cons p ps ih =>
      obtain ⟨first, parts, hsplit⟩ := exists_splitList (RoutePiece.char '/') ps
      by_cases hp : p = .char '/'
      · subst hp
        rw [splitList_separator, List.filterMap_cons_none rfl, ih]
        rfl
      · rw [hsplit, List.flatMap_cons] at ih
        rw [splitList_cons hp hsplit, List.flatMap_cons]
        cases hname : p.name? with
        | none => simp only [List.filterMap_cons_none hname, ih]
        | some n => simp only [List.filterMap_cons_some hname, ih, List.cons_append]
  rw [hsplit, groups]
  induction splitList (.char '/') ps with
  | nil => rfl
  | cons g gs ih =>
    cases g with
    | nil => exact ih
    | cons p g => simp [ih]

theorem of_mem_groups {g : List RoutePiece} (h : g ∈ groups ps) : g ≠ [] ∧ ∀ p ∈ g, p ∈ ps := by
  obtain ⟨hg, hne⟩ := List.mem_filter.mp h
  refine ⟨?_, fun p hp => mem_of_mem_splitList hg hp⟩
  rintro rfl
  cases hne

end Route

end EndpointCompiler
