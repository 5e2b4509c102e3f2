import EndpointCompiler.Proofs.Handler.Definition
import EndpointCompiler.Proofs.Handler.Pieces
import EndpointCompiler.Proofs.Routing.BestMatch
import EndpointCompiler.Proofs.Routing.Table
import EndpointCompiler.Proofs.Text.Percent

/-! Templates as handlers are defined for them and as the router reads them. The former know
placeholders wherever they stand, the latter only those that are whole segments, and it looks for no
question mark in a path. -/

namespace EndpointCompiler

/-- A piece with the value of its placeholder in its place. -/
def RoutePiece.filled (values : String → String) : RoutePiece → List Char
  | .char c => [c]
  | .placeholder name => (percentEncode (values name)).toList

/-- The target of a request to a route with the given values. -/
def Route.fill (route : String) (values : String → String) : String :=
  String.ofList ((Route.pieces route.toList).flatMap (·.filled values))

/-- Braces hold whole segments, and there is no question mark. -/
def Route.Segmentwise (route : String) : Prop :=
  '?' ∉ route.toList ∧ ∀ s ∈ pathSegments route, '\x7b' ∈ s.toList →
    ∃ name : String, isWord name.toList = true ∧ s.toList = '\x7b' :: name.toList ++ ['\x7d']

/-! Segments of templates. -/

theorem Segment.ofText_eq_placeholder {text name : String} :
    Segment.ofText text = .placeholder name ↔ text.toList = '\x7b' :: name.toList ++ ['\x7d'] := by
  unfold Segment.ofText
  constructor
  · intro h
    split at h
    · rename_i cs htext
      split at h
      · rename_i hlast
        cases h
        obtain ⟨init, rfl⟩ := List.getLast?_eq_some_iff.mp hlast
        rw [htext, List.dropLast_concat, String.toList_ofList, List.cons_append]
      · cases h
    · cases h
  · intro h
    rw [h]
    simp

theorem Segment.ofText_eq_literal {text text' : String} (h : Segment.ofText text = .literal text') :
    text' = text := by
  unfold Segment.ofText at h
  split at h
  · split at h
    · cases h
    · exact (Segment.literal.inj h).symm
  · exact (Segment.literal.inj h).symm

theorem Segment.ofText_of_notMem {text : String} (h : '\x7b' ∉ text.toList) :
    Segment.ofText text = .literal text := by
  unfold Segment.ofText
  split
  · rename_i cs htext
    simp [htext] at h
  · rfl

theorem captured_names {segments : List Segment} {path : List String} (h : FitsPath segments path) :
    (captured segments path).map (·.1) = placeholderNames segments := by
  induction h with
  | nil => rfl
  | @cons s _ _ _ _ _ ih =>
    cases s with
    | literal text => exact ih
    | placeholder name => exact congrArg (name :: ·) ih

theorem Route.text_no_slash {name : String} (h : isWord name.toList = true) :
    '/' ∉ (RoutePiece.placeholder name).text := by
  intro hmem
  have hword : '/' ∈ name.toList := by simpa [RoutePiece.text] using hmem
  exact absurd (isIdentContinue_of_isWord h hword) (by decide)

theorem Route.pathSegments_eq (route : String) :
    pathSegments route =
      (groups (pieces route.toList)).map fun g => String.ofList (g.flatMap RoutePiece.text) := by
  have htext : ∀ n, .placeholder n ∈ pieces route.toList →
      '/' ∉ (RoutePiece.placeholder n).text ∧ (RoutePiece.placeholder n).text ≠ [] :=
    fun n hn => ⟨text_no_slash (isWord_of_mem_pieces hn), RoutePiece.text_ne_nil _⟩
  have hsplit := pathSegments_flatMap (fun _ => rfl) htext
  rwa [flatMap_text_pieces, String.ofList_toList] at hsplit

theorem mem_placeholders_iff {route name : String} :
    name ∈ Route.placeholders route ↔ .placeholder name ∈ Route.pieces route.toList := by
  rw [Route.placeholders_eq, List.mem_filterMap]
  constructor
  · rintro ⟨p, hp, hname⟩
    cases p with
    | char c => cases hname
    | placeholder n =>
      cases hname
      exact hp
  · intro h
    exact ⟨_, h, rfl⟩

section

variable {values : String → String} {route : String}

theorem Route.pathSegments_fill (hvalues : ∀ n ∈ placeholders route, values n ≠ "") :
    pathSegments (fill route values) =
      (groups (pieces route.toList)).map fun g => String.ofList (g.flatMap (·.filled values)) := by
  apply pathSegments_flatMap (fun _ => rfl)
  intro n hn
  constructor
  · intro hslash
    exact (mem_percentEncode hslash).2 (by simp)
  · intro hnil
    have hempty : percentEncode (values n) = "" := String.toList_eq_nil_iff.mp hnil
    exact percentEncode_ne_empty (hvalues n (mem_placeholders_iff.mpr hn)) hempty

/-- What is written in place of placeholders has no question mark and no brace. -/
theorem Route.mem_fill {c : Char} (hc : c ∈ (fill route values).toList)
    (hne : c = '?' ∨ c = '\x7b') : .char c ∈ pieces route.toList := by
  rw [fill, String.toList_ofList] at hc
  obtain ⟨p, hp, hmem⟩ := List.mem_flatMap.mp hc
  cases p with
  | char d =>
    obtain rfl := List.mem_singleton.mp hmem
    exact hp
  | placeholder n =>
    have hplain := (mem_percentEncode hmem).2
    rcases hne with rfl | rfl
    · exact absurd (by simp) hplain
    · exact absurd (by simp) hplain

theorem Route.mem_of_char_mem {c : Char} (h : .char c ∈ pieces route.toList) :
    c ∈ route.toList := by
  rw [← flatMap_text_pieces route.toList]
  exact List.mem_flatMap.mpr ⟨_, h, List.mem_singleton_self c⟩

/-! Templates whose braces hold whole segments. -/

/-- Only a placeholder begins with a brace. -/
theorem Route.head_of_brace {g : List RoutePiece} (hsound : ∀ p ∈ g, p.Sound) {cs : List Char}
    (htext : g.flatMap RoutePiece.text = '\x7b' :: cs) :
    ∃ n rest, g = .placeholder n :: rest ∧ isWord n.toList = true ∧
      n.toList ++ '\x7d' :: rest.flatMap RoutePiece.text = cs := by
  cases g with
  | nil => cases htext
  | cons p g =>
    have hp : p.Sound := hsound p List.mem_cons_self
    cases p with
    | char c =>
      have hc : c = '\x7b' := (List.cons.inj htext).1
      rw [hc, RoutePiece.Sound] at hp
      exact absurd hp (by decide)
    | placeholder n => exact ⟨n, g, rfl, hp, by simpa [RoutePiece.text] using htext⟩

/-- A segment is a placeholder, or it has none. -/
theorem Route.group_cases {g : List RoutePiece} (hsound : ∀ p ∈ g, p.Sound)
    (hwhole : '\x7b' ∈ g.flatMap RoutePiece.text →
      ∃ name : String, isWord name.toList = true ∧
        g.flatMap RoutePiece.text = '\x7b' :: name.toList ++ ['\x7d']) :
    (∃ n, g = [.placeholder n]) ∨ ∃ cs : List Char, g = cs.map .char ∧ '\x7b' ∉ cs := by
  by_cases hbrace : '\x7b' ∈ g.flatMap RoutePiece.text
  · obtain ⟨name, hname, htext⟩ := hwhole hbrace
    rw [List.cons_append] at htext
    obtain ⟨n, rest, rfl, hn, hrest⟩ := head_of_brace hsound htext
    have hsame := congrArg (List.takeWhile isIdentContinue) hrest
    rw [takeWhile_word hn, takeWhile_word hname] at hsame
    rw [hsame] at hrest
    have hnil : rest.flatMap RoutePiece.text = [] := by simpa using hrest
    cases rest with
    | nil => exact .inl ⟨n, rfl⟩
    | cons q rest =>
      rw [List.flatMap_cons, List.append_eq_nil_iff] at hnil
      exact absurd hnil.1 q.text_ne_nil
  · right
    clear hwhole hsound
    induction g with
    | nil => exact ⟨[], rfl, by simp⟩
    | cons p g ih =>
      rw [List.flatMap_cons, List.mem_append, not_or] at hbrace
      obtain ⟨cs, rfl, hcs⟩ := ih hbrace.2
      cases p with
      | char c =>
        have hc : '\x7b' ≠ c := by simpa [RoutePiece.text] using hbrace.1
        exact ⟨c :: cs, rfl, by simp [hc, hcs]⟩
      | placeholder n => exact absurd (by simp [RoutePiece.text]) hbrace.1

theorem Route.flatMap_chars (f : RoutePiece → List Char) (hf : ∀ c, f (.char c) = [c])
    (cs : List Char) : (cs.map RoutePiece.char).flatMap f = cs := by
  induction cs with
  | nil => rfl
  | cons c cs ih => rw [List.map_cons, List.flatMap_cons, hf, ih, List.singleton_append]

theorem Route.groups_fit {gs : List (List RoutePiece)}
    (h : ∀ g ∈ gs, (∃ n, g = [.placeholder n]) ∨ ∃ cs : List Char, g = cs.map .char ∧ '\x7b' ∉ cs) :
    let segments := gs.map fun g => Segment.ofText (String.ofList (g.flatMap RoutePiece.text))
    let path := gs.map fun g => String.ofList (g.flatMap (·.filled values))
    FitsPath segments path ∧ captured segments path =
      (gs.flatMap (·.filterMap RoutePiece.name?)).map fun n => (n, percentEncode (values n)) := by
  induction gs with
  | nil => exact ⟨.nil, rfl⟩
  | cons g gs ih =>
    obtain ⟨hg, hgs⟩ := List.forall_mem_cons.mp h
    obtain ⟨hfits, hcaptured⟩ := ih hgs
    rcases hg with ⟨n, rfl⟩ | ⟨cs, rfl, hcs⟩
    · have hsegment : Segment.ofText (String.ofList ([RoutePiece.placeholder n].flatMap
          RoutePiece.text)) = .placeholder n :=
        Segment.ofText_eq_placeholder.mpr (by simp [RoutePiece.text])
      have hvalue : String.ofList ([RoutePiece.placeholder n].flatMap (·.filled values)) =
          percentEncode (values n) := by simp [RoutePiece.filled]
      simp only [List.map_cons, hsegment, hvalue, captured, hcaptured]
      exact ⟨.cons trivial hfits, rfl⟩
    · have hsegment : Segment.ofText (String.ofList ((cs.map RoutePiece.char).flatMap
          RoutePiece.text)) = .literal (String.ofList cs) := by
        rw [flatMap_chars _ fun _ => rfl]
        exact Segment.ofText_of_notMem (by rwa [String.toList_ofList])
      have hvalue : String.ofList ((cs.map RoutePiece.char).flatMap (·.filled values)) =
          String.ofList cs := by rw [flatMap_chars _ fun _ => rfl]
      have hnames : (cs.map RoutePiece.char).filterMap RoutePiece.name? = [] := by
        simp [List.filterMap_map, Function.comp_def, RoutePiece.name?]
      simp only [List.map_cons, hsegment, hvalue, captured, hcaptured, List.flatMap_cons, hnames,
        List.nil_append]
      exact ⟨.cons rfl hfits, trivial⟩

/-! A placeholder that the router reads begins with one that handlers know. -/

def firstWord (name : String) : String :=
  String.ofList ((name.toList ++ ['\x7d']).takeWhile isIdentContinue)

theorem Route.segment_names_sublist {gs : List (List RoutePiece)}
    (hsound : ∀ g ∈ gs, ∀ p ∈ g, p.Sound) :
    ((placeholderNames (gs.map fun g =>
      Segment.ofText (String.ofList (g.flatMap RoutePiece.text)))).map firstWord).Sublist
        (gs.flatMap (·.filterMap RoutePiece.name?)) := by
  induction gs with
  | nil => exact List.Sublist.refl _
  | cons g gs ih =>
    obtain ⟨hg, hgs⟩ := List.forall_mem_cons.mp hsound
    rw [List.flatMap_cons, List.map_cons]
    cases hsegment : Segment.ofText (String.ofList (g.flatMap RoutePiece.text)) with
    | literal text => exact (ih hgs).trans (List.sublist_append_right _ _)
    | placeholder name =>
      have htext := Segment.ofText_eq_placeholder.mp hsegment
      rw [String.toList_ofList, List.cons_append] at htext
      obtain ⟨n, rest, rfl, hn, hrest⟩ := head_of_brace hg htext
      have hword : firstWord name = n := by
        rw [firstWord, ← hrest, takeWhile_word hn, String.ofList_toList]
      rw [← hword]
      exact ((ih hgs).trans (List.sublist_append_right _ _)).cons_cons _

theorem Route.segment_names_nodup (h : Route.fault? route = none) :
    (placeholderNames (templateSegments route)).Nodup := by
  obtain ⟨hsound, hnodup⟩ := sound_of_fault? h
  have hgroups : ∀ g ∈ groups (pieces route.toList), ∀ p ∈ g, p.Sound :=
    fun g hg p hp => hsound p ((of_mem_groups hg).2 p hp)
  have hsublist := segment_names_sublist hgroups
  rw [← filterMap_name?_groups, ← placeholders_eq] at hsublist
  rw [templateSegments, pathSegments_eq, List.map_map]
  exact (hnodup.sublist hsublist).of_map _

/-! Routers of one operation. -/

theorem RouteTree.find?_single {α : Type} {i : Insertion α} {path : String} {value : α}
    {captures : Captures} (hnames : (placeholderNames (templateSegments i.template)).Nodup) :
    (RouteTree.ofInsertions [i]).find? i.method path = some (value, captures) ↔
      FitsPath (templateSegments i.template) (pathSegments path) ∧ i.value = value ∧
        captured (templateSegments i.template) (pathSegments path) = captures := by
  have hsingle : ∀ j ∈ [i], (placeholderNames (templateSegments j.template)).Nodup := by
    simpa using hnames
  rw [find?_eq_some_iff hsingle]
  constructor
  · rintro ⟨e, hbest, hvalue, hcaptures⟩
    obtain rfl : e = i.entry := by simpa using hbest.last.mem
    exact ⟨hbest.fits, hvalue, hcaptures⟩
  · rintro ⟨hfits, hvalue, hcaptures⟩
    refine ⟨i.entry, ⟨lastOf_concat_self _ [] _, rfl, hfits, ?_⟩, hvalue, hcaptures⟩
    intro e he _ _ hne
    obtain rfl : e = i.entry := by simpa using he
    exact absurd rfl hne

theorem splitOnce_fst (separator : Char) (cs : List Char) :
    (splitOnce separator cs).1 = cs.takeWhile (· ≠ separator) := by
  have hsplit := List.takeWhile_append_dropWhile (p := fun c => decide (c ≠ separator)) (l := cs)
  unfold splitOnce
  split
  · rename_i hdrop
    rw [hdrop, List.append_nil] at hsplit
    exact hsplit.symm
  · rfl

theorem splitOnce_of_notMem {separator : Char} {cs : List Char} (h : separator ∉ cs) :
    splitOnce separator cs = (cs, none) := by
  have hdrop : cs.dropWhile (fun c => decide (c ≠ separator)) = [] := by
    induction cs with
    | nil => rfl
    | cons c cs ih =>
      have hc : c ≠ separator := fun heq => h (by simp [heq])
      have hmore := ih fun hmem => h (List.mem_cons_of_mem _ hmem)
      simpa [List.dropWhile_cons, hc] using hmore
  unfold splitOnce
  rw [hdrop]

namespace Router

variable {o : RoutedOperation}

theorem find?_added {path : String} {routed : RoutedOperation} {captures : Captures}
    (hnames : (placeholderNames (templateSegments o.operation.route.template)).Nodup) :
    (empty.add o.owner o.operation).tree.find? o.operation.route.method path =
        some (routed, captures) ↔
      FitsPath (templateSegments o.operation.route.template) (pathSegments path) ∧ o = routed ∧
        captured (templateSegments o.operation.route.template) (pathSegments path) = captures := by
  have htree : (empty.add o.owner o.operation).tree = RouteTree.ofInsertions [o.insertion] :=
    tree_ofOperations [o]
  rw [htree]
  exact @RouteTree.find?_single _ o.insertion path routed captures hnames

theorem route?_eq_some {r : Router} {method : Method} {target : String} {m : RouteMatch} :
    r.route? method target = some m ↔
      ∃ captures, r.tree.find? method (String.ofList (splitOnce '?' target.toList).1) =
          some (m.routed, captures) ∧
        captures.map (fun c => (c.1, decodeSegment c.2)) = m.path ∧
        ((splitOnce '?' target.toList).2.map fun cs => formPairs (String.ofList cs)).getD [] =
          m.query := by
  unfold route?
  rw [Option.map_eq_some_iff]
  constructor
  · rintro ⟨⟨routed, captures⟩, hfound, rfl⟩
    exact ⟨captures, hfound, rfl, rfl⟩
  · rintro ⟨captures, hfound, hpath, hquery⟩
    obtain ⟨routed, path, query⟩ := m
    obtain rfl : _ = path := hpath
    obtain rfl : _ = query := hquery
    exact ⟨(routed, captures), hfound, rfl⟩

theorem route?_of_segmentwise (hfault : Route.fault? o.operation.route.template = none)
    (hsegments : Route.Segmentwise o.operation.route.template)
    (hvalues : ∀ n ∈ Route.placeholders o.operation.route.template, values n ≠ "") :
    (empty.add o.owner o.operation).route? o.operation.route.method
        (Route.fill o.operation.route.template values) =
      some ⟨o, (Route.placeholders o.operation.route.template).map fun n => (n, values n), []⟩ := by
  let template := o.operation.route.template
  let path := Route.fill template values
  have hmark : '?' ∉ path.toList :=
    fun h => hsegments.1 (Route.mem_of_char_mem (Route.mem_fill h (.inl rfl)))
  have hgroups : ∀ g ∈ Route.groups (Route.pieces template.toList),
      (∃ n, g = [.placeholder n]) ∨ ∃ cs : List Char, g = cs.map .char ∧ '\x7b' ∉ cs := by
    intro g hg
    apply Route.group_cases
    · exact fun p hp => (Route.sound_of_fault? hfault).1 p ((Route.of_mem_groups hg).2 p hp)
    · intro hbrace
      have hsegment : String.ofList (g.flatMap RoutePiece.text) ∈ pathSegments template := by
        rw [Route.pathSegments_eq]
        exact List.mem_map_of_mem hg
      have hwhole := hsegments.2 _ hsegment
      rw [String.toList_ofList] at hwhole
      exact hwhole hbrace
  -- Segments of the template and of the filled path are both given by the groups, piece by piece.
  have hfound : (empty.add o.owner o.operation).tree.find? o.operation.route.method path =
      some (o, (Route.placeholders template).map fun n => (n, percentEncode (values n))) := by
    obtain ⟨hfits, hcaptured⟩ := @Route.groups_fit values _ hgroups
    rw [← Route.pathSegments_fill hvalues, ← Route.filterMap_name?_groups,
      ← Route.placeholders_eq] at hcaptured
    rw [← Route.pathSegments_fill hvalues] at hfits
    have hsegments : templateSegments template =
        (Route.groups (Route.pieces template.toList)).map fun g =>
          Segment.ofText (String.ofList (g.flatMap RoutePiece.text)) := by
      rw [templateSegments, Route.pathSegments_eq, List.map_map]
      rfl
    rw [← hsegments] at hfits hcaptured
    exact (find?_added (Route.segment_names_nodup hfault)).mpr ⟨hfits, rfl, hcaptured⟩
  rw [route?_eq_some]
  have hsplit : splitOnce '?' path.toList = (path.toList, none) := splitOnce_of_notMem hmark
  have hwhole : String.ofList path.toList = path := String.ofList_toList
  refine ⟨(Route.placeholders template).map fun n => (n, percentEncode (values n)), ?_, ?_, ?_⟩
  · change (empty.add o.owner o.operation).tree.find? _
      (String.ofList (splitOnce '?' path.toList).1) = _
    rw [hsplit, hwhole]
    exact hfound
  · simp [Function.comp_def, template]
  · change Option.getD (Option.map _ (splitOnce '?' path.toList).2) [] = []
    rw [hsplit]
    rfl

/-- What the router captures under the names of a template shows how it reads the template. -/
theorem segmentwise_of_route? (hfault : Route.fault? o.operation.route.template = none)
    {query : WireValues}
    (h : (empty.add o.owner o.operation).route? o.operation.route.method
        (Route.fill o.operation.route.template values) =
      some ⟨o, (Route.placeholders o.operation.route.template).map fun n => (n, values n), query⟩) :
    Route.Segmentwise o.operation.route.template := by
  let template := o.operation.route.template
  let cs := (splitOnce '?' (Route.fill template values).toList).1
  obtain ⟨captures, hfound, hpath, -⟩ := route?_eq_some.mp h
  obtain ⟨hfits, -, hcaptured⟩ := (find?_added (Route.segment_names_nodup hfault)).mp hfound
  have hnames : placeholderNames (templateSegments template) = Route.placeholders template := by
    have hkeys := congrArg (List.map (·.1)) hpath
    rw [List.map_map, List.map_map, ← hcaptured] at hkeys
    rw [← captured_names hfits]
    simpa [Function.comp_def] using hkeys
  -- A literal is found in the path as it stands, which has neither question marks nor braces.
  have hplain : ∀ c, c = '?' ∨ c = '\x7b' → c ∉ cs := by
    intro c hc hmem
    have htake : c ∈ (Route.fill template values).toList.takeWhile (· ≠ '?') := by
      rw [← splitOnce_fst]
      exact hmem
    rcases hc with rfl | rfl
    · have hkept := List.all_eq_true.mp List.all_takeWhile _ htake
      simp at hkept
    · have hpiece := Route.mem_fill ((List.takeWhile_sublist _).subset htake) (.inr rfl)
      have hsafe : Route.isBrace '\x7b' = false := (Route.sound_of_fault? hfault).1 _ hpiece
      exact absurd hsafe (by decide)
  have hsegment : ∀ s ∈ pathSegments template, ∀ c ∈ s.toList, c = '?' ∨ c = '\x7b' →
      ∃ name : String, isWord name.toList = true ∧
        s.toList = '\x7b' :: name.toList ++ ['\x7d'] := by
    intro s hs c hc hmark
    have hmem : Segment.ofText s ∈ templateSegments template := List.mem_map_of_mem hs
    cases hread : Segment.ofText s with
    | literal text =>
      obtain rfl := Segment.ofText_eq_literal hread
      rw [hread] at hmem
      obtain ⟨s', hs', rfl⟩ := exists_right_of_forall₂ hfits hmem
      have hin := Route.mem_of_mem_pathSegments hs' hc
      rw [String.toList_ofList] at hin
      exact absurd hin (hplain c hmark)
    | placeholder name =>
      have hname : name ∈ Route.placeholders template := by
        rw [← hnames]
        exact List.mem_filterMap.mpr ⟨_, hmem, by rw [hread]; rfl⟩
      exact ⟨name, Route.isWord_of_mem_placeholders hname, Segment.ofText_eq_placeholder.mp hread⟩
  constructor
  · intro hmark
    obtain ⟨s, hs, hc⟩ := Route.exists_of_mem_pathSegments hmark (by decide)
    obtain ⟨name, hname, htext⟩ := hsegment s hs _ hc (.inl rfl)
    rw [htext] at hc
    have hword : '?' ∈ name.toList := by simpa using hc
    exact absurd (isIdentContinue_of_isWord hname hword) (by decide)
  · intro s hs hbrace
    exact hsegment s hs _ hbrace (.inr rfl)

/-- The operation of an accepted template answers what is made of the template for any values, with
those values, if and only if each of its placeholders is a whole segment and it has no question
mark. -/
theorem route?_fill_iff {d : HandlerDefinition} (hd : d.validate = .ok ())
    (ho : o.operation.route.template = d.route) :
    (∀ values : String → String, (∀ n ∈ Route.placeholders d.route, values n ≠ "") →
      (empty.add o.owner o.operation).route? o.operation.route.method (Route.fill d.route values) =
        some ⟨o, (Route.placeholders d.route).map fun n => (n, values n), []⟩) ↔
      Route.Segmentwise d.route := by
  have hfault := (HandlerDefinition.valid_of_validate hd).route
  rw [← ho] at hfault ⊢
  constructor
  · intro h
    exact segmentwise_of_route? hfault (h (fun _ => "a") fun _ _ => by simp)
  · intro hsegments values hvalues
    exact route?_of_segmentwise hfault hsegments hvalues

def petDefinition (route : String) : HandlerDefinition :=
  ⟨.named none "Find" [], .named none "Pet" [], .get, route, []⟩

theorem route?_fill_pets :
    let o := hostOperation "/pets/{id}/photos/{photo}" "Find"
    (empty.add o.owner o.operation).route? .get
        (Route.fill "/pets/{id}/photos/{photo}" fun n => if n = "id" then "a/b" else "\u00fc?") =
      some ⟨o, [("id", "a/b"), ("photo", "\u00fc?")], []⟩ := by
  have hsegments : pathSegments "/pets/{id}/photos/{photo}" =
      ["pets", "{id}", "photos", "{photo}"] := by decide +kernel
  have hnames : Route.placeholders "/pets/{id}/photos/{photo}" = ["id", "photo"] := by
    decide +kernel
  have hwhole : Route.Segmentwise "/pets/{id}/photos/{photo}" := by
    refine ⟨by decide +kernel, fun s hs hbrace => ?_⟩
    rw [hsegments] at hs
    simp only [List.mem_cons, List.not_mem_nil, or_false] at hs
    rcases hs with rfl | rfl | rfl | rfl
    · exact absurd hbrace (by decide +kernel)
    · exact ⟨"id", by decide +kernel, by decide +kernel⟩
    · exact absurd hbrace (by decide +kernel)
    · exact ⟨"photo", by decide +kernel, by decide +kernel⟩
  have hroute := (route?_fill_iff (d := petDefinition "/pets/{id}/photos/{photo}")
    (o := hostOperation "/pets/{id}/photos/{photo}" "Find") (by decide +kernel) rfl).mpr hwhole
    (fun n => if n = "id" then "a/b" else "\u00fc?") (fun n _ => by split <;> simp)
  rw [petDefinition, hnames] at hroute
  exact hroute

/-- A placeholder within a segment is accepted, and then taken for the text of the segment; after a
question mark a template is accepted, and then never found. -/
theorem route?_fill_embedded :
    (petDefinition "/x{id}").validate = .ok () ∧ Route.placeholders "/x{id}" = ["id"] ∧
      Route.fill "/x{id}" (fun _ => "42") = "/x42" ∧
      ((ofOperations [hostOperation "/x{id}" "Find"]).route? .get "/x42").isNone = true ∧
      (petDefinition "/a?b").validate = .ok () ∧ Route.fill "/a?b" (fun _ => "42") = "/a?b" ∧
      ((ofOperations [hostOperation "/a?b" "Find"]).route? .get "/a?b").isNone = true := by
  decide +kernel

end Router

end

end EndpointCompiler
