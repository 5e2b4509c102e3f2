import EndpointCompiler.Proofs.Routing.Growth

/-! Which entry a search comes to. The search goes back from branches that fail; what it gives is
still the value and the captures of one template, the one that is preferred where templates that fit
the path first differ. -/

namespace EndpointCompiler

def Segment.Fits : Segment → String → Prop
  | .literal text, segment => text = segment
  | .placeholder _, _ => True

/-- A template fits a path with as many segments, of which its literals are the same. -/
abbrev FitsPath (segments : List Segment) (path : List String) : Prop :=
  List.Forall₂ Segment.Fits segments path

/-- What the placeholders of a template stand for in a path. -/
def captured : List Segment → List String → Captures
  | .literal _ :: rest, _ :: path => captured rest path
  | .placeholder name :: rest, segment :: path => (name, segment) :: captured rest path
  | _, _ => []

def placeholderNames (segments : List Segment) : List String :=
  segments.filterMap (·.placeholder?)

section

variable {α : Type}

/-- Under the same segments, one segment is put in at a time when another has not yet been. -/
def FirstUnder (es : List (Entry α)) (above : List Segment) (s t : Segment) : Prop :=
  ∃ before e after, es = before ++ e :: after ∧ above ++ [s] <+: e.segments ∧
    ∀ e' ∈ before, ¬ above ++ [t] <+: e'.segments

/-- Literals come before placeholders, and placeholders as they were first put in. -/
def Prefers (es : List (Entry α)) (above : List Segment) : Segment → Segment → Prop
  | .literal _, .placeholder _ => True
  | .placeholder m, .placeholder n => FirstUnder es above (.placeholder m) (.placeholder n)
  | _, .literal _ => False

/-- Of two templates, the first has the preferred segment where they first differ. -/
def Precedes (es : List (Entry α)) (segments others : List Segment) : Prop :=
  ∃ above s t rest rest', segments = above ++ s :: rest ∧ others = above ++ t :: rest' ∧ s ≠ t ∧
    Prefers es above s t

/-- The entry that is to be found for a path: the last one for its template, which fits and comes
before every other template that does. -/
structure Best (es : List (Entry α)) (method : Method) (path : List String) (e : Entry α) :
    Prop where
  last : LastOf Entry.slot es e
  method_eq : e.method = method
  fits : FitsPath e.segments path
  precedes : ∀ e' ∈ es, e'.method = method → FitsPath e'.segments path → e'.segments ≠ e.segments →
    Precedes es e.segments e'.segments

variable {es : List (Entry α)} {method : Method} {path rest : List String} {s : Segment}
  {e : Entry α}

theorem FirstUnder.under {above : List Segment} {t t' : Segment}
    (h : FirstUnder (entriesBelow s es) above t t') : FirstUnder es (s :: above) t t' := by
  obtain ⟨before, e, after, hes, he, hbefore⟩ := h
  obtain ⟨before', after', rfl, rfl, -⟩ := exists_of_entriesBelow_eq hes
  refine ⟨before', e.under s, after', rfl, ?_, ?_⟩
  · exact List.cons_prefix_cons.mpr ⟨rfl, he⟩
  · intro e' he' hprefix
    obtain ⟨tail, htail⟩ := hprefix
    let lower : Entry α := { e' with segments := above ++ [t'] ++ tail }
    have heq : lower.under s = e' := Entry.ext rfl htail rfl
    have hmem : lower ∈ entriesBelow s before' := mem_entriesBelow.mpr (heq ▸ he')
    exact hbefore lower hmem (List.prefix_append _ _)

theorem Prefers.under {above : List Segment} {t t' : Segment}
    (h : Prefers (entriesBelow s es) above t t') : Prefers es (s :: above) t t' := by
  match t, t' with
  | .literal _, .placeholder _ => exact h
  | .placeholder _, .placeholder _ => exact FirstUnder.under h

theorem Precedes.under {segments others : List Segment}
    (h : Precedes (entriesBelow s es) segments others) :
    Precedes es (s :: segments) (s :: others) := by
  obtain ⟨above, t, t', rest, rest', rfl, rfl, hne, h⟩ := h
  exact ⟨s :: above, t, t', rest, rest', rfl, rfl, hne, h.under⟩

theorem lastOf_under (h : LastOf Entry.slot (entriesBelow s es) e) :
    LastOf Entry.slot es (e.under s) := by
  obtain ⟨before, after, hes, hafter⟩ := h
  obtain ⟨before', after', rfl, -, rfl⟩ := exists_of_entriesBelow_eq hes
  refine ⟨before', after', rfl, ?_⟩
  intro e' he' hslot
  obtain ⟨hmethod, hsegments⟩ := Prod.ext_iff.mp hslot
  let lower : Entry α := { e' with segments := e.segments }
  have heq : lower.under s = e' := Entry.ext rfl hsegments.symm rfl
  exact hafter lower (mem_entriesBelow.mpr (heq ▸ he')) (Prod.ext hmethod rfl)

/-- The best entry below a segment is the best of all if that segment is preferred to every other
that goes on to an entry that fits. -/
theorem Best.under {segment : String} (h : Best (entriesBelow s es) method rest e)
    (hs : s.Fits segment)
    (hother : ∀ t e', e' ∈ entriesBelow t es → e'.method = method → t.Fits segment →
      FitsPath e'.segments rest → t ≠ s → Prefers es [] s t) :
    Best es method (segment :: rest) (e.under s) where
  last := lastOf_under h.last
  method_eq := h.method_eq
  fits := .cons hs h.fits
  precedes := by
    rintro ⟨method', segments, value⟩ he' hmethod hfits hne
    cases hfits with
    | @cons t _ tail _ ht htail =>
      let lower : Entry α := ⟨method', tail, value⟩
      have hmem : lower ∈ entriesBelow t es := mem_entriesBelow.mpr he'
      by_cases hts : t = s
      · subst hts
        have htails : tail ≠ e.segments := fun h => hne (by rw [h]; rfl)
        exact (h.precedes lower hmem hmethod htail htails).under
      · have hprefers := hother t lower hmem hmethod ht htail hts
        exact ⟨[], s, t, e.segments, tail, rfl, rfl, Ne.symm hts, hprefers⟩

/-! The names of the branches stand in the order in which they were first put in. -/

theorem exists_of_eraseDups_eq {ns before after : List String} {m n : String}
    (h : ns.eraseDups = before ++ m :: after) (hn : n ∈ after) :
    ∃ before' after', ns = before' ++ m :: after' ∧ n ∉ before' := by
  induction ns using List.reverseRecOn generalizing after with
  | nil => simp at h
  | append_singleton ns k ih =>
    rw [eraseDups_concat] at h
    by_cases hk : k ∈ ns
    · rw [if_pos hk] at h
      obtain ⟨before', after', rfl, hbefore⟩ := ih h hn
      exact ⟨before', after' ++ [k], by simp, hbefore⟩
    · rw [if_neg hk] at h
      obtain ⟨after, last, rfl⟩ : ∃ init last, after = init ++ [last] := by
        cases after using List.reverseRecOn with
        | nil => cases hn
        | append_singleton init last => exact ⟨init, last, rfl⟩
      have hsplit : ns.eraseDups ++ [k] = (before ++ m :: after) ++ [last] := by simpa using h
      obtain ⟨hinit, hlast⟩ := List.append_inj' hsplit rfl
      obtain rfl : k = last := by simpa using hlast
      by_cases hmem : n ∈ after
      · obtain ⟨before', after', rfl, hbefore⟩ := ih hinit hmem
        exact ⟨before', after' ++ [k], by simp, hbefore⟩
      · have hnk : n = k := by simpa [hmem] using hn
        have hm : m ∈ ns := by
          have hdups : m ∈ ns.eraseDups := by simp [hinit]
          exact List.mem_eraseDups.mp hdups
        obtain ⟨before', after', rfl⟩ := List.append_of_mem hm
        refine ⟨before', after' ++ [k], by simp, ?_⟩
        rw [hnk]
        exact fun hb => hk (List.mem_append_left _ hb)

theorem firstUnder_of_headNames {before after : List String} {m n : String}
    (h : headNames Segment.placeholder? es = before ++ m :: after) (hn : n ∈ after) :
    FirstUnder es [] (.placeholder m) (.placeholder n) := by
  obtain ⟨names, names', hsplit, hfirst⟩ := exists_of_eraseDups_eq h hn
  obtain ⟨earlier, others, rfl, hearlier, hothers⟩ := List.filterMap_eq_append_iff.mp hsplit
  obtain ⟨skipped, e, later, rfl, hskipped, he, -⟩ := List.filterMap_eq_cons_iff.mp hothers
  refine ⟨earlier ++ skipped, e, later, by simp, ?_, ?_⟩
  · cases hsegments : e.segments with
    | nil => simp [hsegments] at he
    | cons t tail =>
      have ht : t = .placeholder m :=
        (Segment.placeholder?_eq_some t m).mp (by simpa [hsegments] using he)
      rw [ht]
      exact List.prefix_append [_] tail
  · intro e' he' hprefix
    obtain ⟨tail, htail⟩ := hprefix
    have hhead : e'.segments.head?.bind Segment.placeholder? = some n := by
      rw [← htail]
      rfl
    rcases List.mem_append.mp he' with he' | he'
    · exact hfirst (hearlier ▸ List.mem_filterMap.mpr ⟨e', he', hhead⟩)
    · rw [hskipped e' he'] at hhead
      cases hhead

/-! The search. -/

namespace RouteNode

/-- What a search gives: the value and the captures of the best entry, or the captures that it was
given if no entry fits. -/
def Finds (es : List (Entry α)) (method : Method) (path : List String) (captures : Captures) :
    Option α × Captures → Prop
  | (none, left) => left = captures ∧ ∀ e ∈ es, e.method = method → ¬ FitsPath e.segments path
  | (some value, found) => ∃ e, Best es method path e ∧ e.value = value ∧
      found = captures ++ captured e.segments path

/-- No placeholder of a template is captured yet, and none of them occurs twice. -/
def Apart (captures : Captures) (segments : List Segment) : Prop :=
  (captures.map (·.1) ++ placeholderNames segments).Nodup

theorem Apart.below_literal {captures : Captures} {text : String}
    (h : Apart captures (.literal text :: e.segments)) : Apart captures e.segments := h

theorem Apart.below {captures : Captures} {name : String} (value : String)
    (h : Apart captures (.placeholder name :: e.segments)) :
    Apart (captures ++ [(name, value)]) e.segments := by
  have hnames : (captures ++ [(name, value)]).map (·.1) ++ placeholderNames e.segments =
      captures.map (·.1) ++ placeholderNames (.placeholder name :: e.segments) := by
    simp [placeholderNames, Segment.placeholder?]
  rw [Apart, hnames]
  exact h

theorem Apart.notMem {captures : Captures} {name : String} {segments : List Segment}
    (h : Apart captures (.placeholder name :: segments)) : name ∉ captures.map (·.1) := by
  intro hmem
  have hnames : name ∈ placeholderNames (.placeholder name :: segments) := by
    simp [placeholderNames, Segment.placeholder?]
  exact (List.nodup_append.mp h).2.2 name hmem name hnames rfl

theorem erase_of_notMem {captures : Captures} {name : String} (h : name ∉ captures.map (·.1)) :
    captures.erase name = captures := by
  apply List.filter_eq_self.mpr
  intro c hc
  have hne : c.1 ≠ name := fun heq => h (heq ▸ List.mem_map_of_mem hc)
  simpa using hne

theorem set_of_notMem {captures : Captures} {name : String} (value : String)
    (h : name ∉ captures.map (·.1)) : captures.set name value = captures ++ [(name, value)] := by
  rw [Captures.set, erase_of_notMem h]

theorem erase_concat {captures : Captures} {name : String} (value : String)
    (h : name ∉ captures.map (·.1)) : (captures ++ [(name, value)]).erase name = captures := by
  have hsplit : Captures.erase name (captures ++ [(name, value)]) =
      captures.erase name ++ Captures.erase name [(name, value)] := List.filter_append ..
  rw [hsplit, erase_of_notMem h]
  simp [Captures.erase]

theorem fail_orElse (search : Search α) : Search.fail.orElse search = search := rfl

theorem orElse_fail (search : Search α) : search.orElse Search.fail = search := by
  funext captures
  unfold Search.orElse
  split <;> rename_i heq <;> rw [heq]
  rfl

theorem search_empty (method : Method) (path : List String) :
    search method path (empty : RouteNode α) = Search.fail := by
  cases path <;> rfl

/-- At most one branch has the text of a segment. -/
theorem searchBranches_literals {names : List String} (hnames : names.Nodup)
    (f : String → RouteNode α) (next : RouteNode α → Search α) (segment : String) :
    searchBranches (fun b => if b.1 = segment then next b.2 else Search.fail)
        (names.map fun n => (n, f n)) =
      if segment ∈ names then next (f segment) else Search.fail := by
  induction names with
  | nil => rfl
  | cons n names ih =>
    obtain ⟨hn, hnames⟩ := List.nodup_cons.mp hnames
    rw [List.map_cons, searchBranches, ih hnames]
    by_cases heq : n = segment
    · subst heq
      simp [hn, orElse_fail]
    · simp [heq, Ne.symm heq, fail_orElse]

theorem search_literals (method : Method) (segment : String) (rest : List String)
    (es : List (Entry α)) :
    searchBranches (fun b => if b.1 = segment then search method rest b.2 else Search.fail)
        (grow es).literals =
      search method rest (grow (entriesBelow (.literal segment) es)) := by
  have hnames : (headNames Segment.literal? es).Nodup := eraseDups_nodup _
  rw [(branches_grow es).1, branchesOf, searchBranches_literals hnames]
  by_cases hs : segment ∈ headNames Segment.literal? es
  · rw [if_pos hs]
  · have hnone : entriesBelow (.literal segment) es = [] := entriesBelow_of_notMem rfl hs
    rw [if_neg hs, hnone]
    exact (search_empty method rest).symm

/-- What trying placeholders in order gives: the best entry below the first of them that has one. -/
def Tries (es : List (Entry α)) (method : Method) (segment : String) (rest : List String)
    (captures : Captures) (names : List String) : Option α × Captures → Prop
  | (none, left) => left = captures ∧ ∀ n ∈ names, ∀ e ∈ entriesBelow (.placeholder n) es,
      e.method = method → ¬ FitsPath e.segments rest
  | (some value, found) => ∃ before n after e, names = before ++ n :: after ∧
      (∀ m ∈ before, ∀ e ∈ entriesBelow (.placeholder m) es,
        e.method = method → ¬ FitsPath e.segments rest) ∧
      Best (entriesBelow (.placeholder n) es) method rest e ∧ e.value = value ∧
      found = captures ++ captured (e.under (.placeholder n)).segments (segment :: rest)

theorem Tries.cons {captures : Captures} {segment n : String} {names : List String}
    {result : Option α × Captures} (h : Tries es method segment rest captures names result)
    (hnone : ∀ e ∈ entriesBelow (.placeholder n) es, e.method = method →
      ¬ FitsPath e.segments rest) :
    Tries es method segment rest captures (n :: names) result := by
  obtain ⟨found, left⟩ := result
  cases found with
  | none => exact ⟨h.1, List.forall_mem_cons.mpr ⟨hnone, h.2⟩⟩
  | some value =>
    obtain ⟨before, m, after, e, rfl, hbefore, hbest⟩ := h
    exact ⟨n :: before, m, after, e, rfl, List.forall_mem_cons.mpr ⟨hnone, hbefore⟩, hbest⟩

theorem searchBranches_tries {captures : Captures} {segment : String} {names : List String}
    (hapart : ∀ n ∈ names, n ∉ captures.map (·.1))
    (hfinds : ∀ n ∈ names, Finds (entriesBelow (.placeholder n) es) method rest
      (captures ++ [(n, segment)]) (search method rest
        (grow (entriesBelow (.placeholder n) es)) (captures ++ [(n, segment)]))) :
    Tries es method segment rest captures names
      (searchBranches (fun b => (search method rest b.2).capturing b.1 segment)
        (names.map fun n => (n, grow (entriesBelow (.placeholder n) es))) captures) := by
  induction names with
  | nil => exact ⟨rfl, by simp⟩
  | cons n names ih =>
    have hn := hapart n List.mem_cons_self
    have hfirst := hfinds n List.mem_cons_self
    have hrest := ih (fun m hm => hapart m (List.mem_cons_of_mem _ hm))
      fun m hm => hfinds m (List.mem_cons_of_mem _ hm)
    rw [List.map_cons, searchBranches, Search.orElse, Search.capturing, set_of_notMem segment hn]
    cases hresult : search method rest (grow (entriesBelow (.placeholder n) es))
        (captures ++ [(n, segment)]) with
    | mk found left =>
      rw [hresult] at hfirst
      cases found with
      | some value =>
        obtain ⟨e, hbest, hvalue, hleft⟩ := hfirst
        refine ⟨[], n, names, e, rfl, by simp, hbest, hvalue, ?_⟩
        rw [hleft]
        simp [captured, Entry.under]
      | none =>
        obtain ⟨rfl, hnone⟩ := hfirst
        dsimp only
        rw [erase_concat segment hn]
        exact hrest.cons hnone

/-- The best entry below the literal of a segment is the best of all. -/
theorem finds_of_literal {segment : String} {captures found : Captures} {value : α}
    (h : Finds (entriesBelow (.literal segment) es) method rest captures (some value, found)) :
    Finds es method (segment :: rest) captures (some value, found) := by
  obtain ⟨e, hbest, hvalue, hfound⟩ := h
  refine ⟨e.under (.literal segment), hbest.under rfl ?_, hvalue, hfound⟩
  intro t e' _ _ ht _ hne
  cases t with
  | literal text => exact absurd (congrArg Segment.literal ht) hne
  | placeholder name => trivial

/-- Where nothing fits below the literal of a segment, the placeholders decide. -/
theorem finds_of_tries {segment : String} {captures : Captures} {result : Option α × Captures}
    (hnone : ∀ e ∈ entriesBelow (.literal segment) es, e.method = method →
      ¬ FitsPath e.segments rest)
    (h : Tries es method segment rest captures (headNames Segment.placeholder? es) result) :
    Finds es method (segment :: rest) captures result := by
  have hname : ∀ n e', e' ∈ entriesBelow (.placeholder n) es →
      n ∈ headNames Segment.placeholder? es := by
    intro n e' he'
    exact mem_headNames.mpr ⟨_, mem_entriesBelow.mp he', rfl⟩
  obtain ⟨found, left⟩ := result
  cases found with
  | none =>
    refine ⟨h.1, ?_⟩
    rintro ⟨m, segments, v⟩ he hmethod hfits
    cases hfits with
    | @cons t _ tail _ ht htail =>
      let lower : Entry α := ⟨m, tail, v⟩
      have hlower : lower ∈ entriesBelow t es := mem_entriesBelow.mpr he
      cases t with
      | literal text =>
        obtain rfl : text = segment := ht
        exact hnone lower hlower hmethod htail
      | placeholder n => exact h.2 n (hname n lower hlower) lower hlower hmethod htail
  | some value =>
    obtain ⟨before, n, after, e, hnames, hbefore, hbest, hvalue, hfound⟩ := h
    refine ⟨e.under (.placeholder n), hbest.under trivial ?_, hvalue, hfound⟩
    intro t e' he' hmethod ht hfits hne
    cases t with
    | literal text =>
      obtain rfl : text = segment := ht
      exact absurd hfits (hnone e' he' hmethod)
    | placeholder m =>
      have hnot : m ∉ before := fun hm => hbefore m hm e' he' hmethod hfits
      have hne' : m ≠ n := fun h => hne (congrArg Segment.placeholder h)
      have hmem := hname m e' he'
      -- Names before `n` have failed, hence any other that fits comes after it.
      have hafter : m ∈ after := by
        rw [hnames] at hmem
        simpa [hnot, hne'] using hmem
      exact firstUnder_of_headNames hnames hafter

theorem search_finds_nil (method : Method) (es : List (Entry α)) (captures : Captures) :
    Finds es method [] captures ((grow es).search method [] captures) := by
  have hvalue : (grow es).search method [] captures = ((grow es).lookup method [], captures) := rfl
  rw [hvalue]
  cases hlookup : (grow es).lookup method [] with
  | none =>
    refine ⟨rfl, fun e he hmethod hfits => ?_⟩
    obtain ⟨last, hlast, hslot⟩ := exists_lastOf (f := Entry.slot) he
    have hend : e.slot = (method, []) := Prod.ext hmethod (List.forall₂_nil_right_iff.mp hfits)
    rw [lookup_grow.mpr ⟨last, hlast, hslot.trans hend, rfl⟩] at hlookup
    cases hlookup
  | some value =>
    obtain ⟨e, hlast, hslot, rfl⟩ := lookup_grow.mp hlookup
    obtain ⟨hmethod, hsegments : e.segments = []⟩ := Prod.ext_iff.mp hslot
    refine ⟨e, ⟨hlast, hmethod, hsegments ▸ .nil, ?_⟩, rfl, ?_⟩
    · intro e' _ _ hfits hne
      exact absurd ((List.forall₂_nil_right_iff.mp hfits).trans hsegments.symm) hne
    · rw [hsegments]
      exact (List.append_nil _).symm

theorem search_finds (method : Method) (path : List String) (es : List (Entry α))
    (captures : Captures) (hapart : ∀ e ∈ es, Apart captures e.segments) :
    Finds es method path captures ((grow es).search method path captures) := by
  induction path generalizing es captures with
  | nil => exact search_finds_nil method es captures
  | cons segment rest ih =>
    have hliteral := ih (entriesBelow (.literal segment) es) captures
      fun e he => (hapart _ (mem_entriesBelow.mp he)).below_literal
    have htries : ∀ captures, (∀ e ∈ es, Apart captures e.segments) →
        Tries es method segment rest captures (headNames Segment.placeholder? es)
          (searchBranches (fun b => (search method rest b.2).capturing b.1 segment)
            (branchesOf Segment.placeholder? .placeholder es) captures) := by
      intro captures hapart
      apply searchBranches_tries
      · intro n hn
        obtain ⟨⟨m, segments, v⟩, he, hhead⟩ := mem_headNames.mp hn
        cases segments with
        | nil => cases hhead
        | cons t tail =>
          obtain rfl := (Segment.placeholder?_eq_some t n).mp hhead
          exact (hapart _ he).notMem
      · intro n _
        exact ih _ _ fun e he => (hapart _ (mem_entriesBelow.mp he)).below segment
    rw [search, search_literals, (branches_grow es).2, Search.orElse]
    cases hresult : search method rest (grow (entriesBelow (.literal segment) es)) captures with
    | mk found left =>
      rw [hresult] at hliteral
      cases found with
      | some value => exact finds_of_literal hliteral
      | none =>
        obtain ⟨rfl, hnone⟩ := hliteral
        exact finds_of_tries hnone (htries left hapart)

end RouteNode

/-! There is one best entry at most. -/

theorem FirstUnder.asymm {above : List Segment} {s t : Segment} (hne : s ≠ t)
    (h : FirstUnder es above s t) : ¬ FirstUnder es above t s := by
  rintro ⟨before', e', after', hes', he', hbefore'⟩
  obtain ⟨before, e, after, hes, he, hbefore⟩ := h
  have hsame : e ≠ e' := by
    rintro rfl
    have hlength : (above ++ [s]).length = (above ++ [t]).length := by simp
    have heq := (List.prefix_of_prefix_length_le he he' (Nat.le_of_eq hlength)).eq_of_length hlength
    exact hne (by simpa using heq)
  rcases List.append_eq_append_iff.mp (hes.symm.trans hes') with ⟨x, hx, hrest⟩ | ⟨x, hx, hrest⟩
  · cases x with
    | nil => exact hsame (List.cons.inj hrest).1
    | cons y x =>
      obtain ⟨rfl, -⟩ := List.cons.inj hrest
      exact hbefore' e (by simp [hx]) he
  · cases x with
    | nil => exact hsame (List.cons.inj hrest).1.symm
    | cons y x =>
      obtain ⟨rfl, -⟩ := List.cons.inj hrest
      exact hbefore e' (by simp [hx]) he'

theorem Prefers.asymm {above : List Segment} {s t : Segment} (hne : s ≠ t)
    (h : Prefers es above s t) : ¬ Prefers es above t s := by
  intro h'
  match s, t with
  | .literal _, .placeholder _ => exact h'
  | .placeholder _, .literal _ => exact h
  | .placeholder _, .placeholder _ => exact FirstUnder.asymm hne h h'

/-- Lists first differ in one place only. -/
theorem first_difference {above above' rest rest' tail tail' : List Segment} {s s' t t' : Segment}
    (hs : above ++ s :: rest = above' ++ t' :: tail')
    (ht : above ++ t :: tail = above' ++ s' :: rest')
    (hne : s ≠ t) (hne' : s' ≠ t') : above = above' ∧ s = t' ∧ t = s' := by
  induction above generalizing above' with
  | nil =>
    cases above' with
    | nil => exact ⟨rfl, (List.cons.inj hs).1, (List.cons.inj ht).1⟩
    | cons a above' => exact absurd ((List.cons.inj hs).1.trans (List.cons.inj ht).1.symm) hne
  | cons a above ih =>
    cases above' with
    | nil => exact absurd ((List.cons.inj ht).1.symm.trans (List.cons.inj hs).1) hne'
    | cons a' above' =>
      obtain ⟨rfl, htails⟩ := List.cons.inj hs
      obtain ⟨rfl, heqs⟩ := ih htails (List.cons.inj ht).2
      exact ⟨rfl, heqs⟩

theorem Precedes.asymm {segments others : List Segment} (h : Precedes es segments others) :
    ¬ Precedes es others segments := by
  rintro ⟨above', s', t', rest', tail', hothers, hsegments, hne', h'⟩
  obtain ⟨above, s, t, rest, tail, rfl, rfl, hne, h⟩ := h
  obtain ⟨rfl, rfl, rfl⟩ := first_difference hsegments hothers hne hne'
  exact h.asymm hne h'

theorem Best.unique {e' : Entry α} (h : Best es method path e) (h' : Best es method path e') :
    e = e' := by
  by_cases hsegments : e.segments = e'.segments
  · exact h.last.eq_of_eq h'.last (Prod.ext (h.method_eq.trans h'.method_eq.symm) hsegments)
  · have hfirst := h.precedes e' h'.last.mem h'.method_eq h'.fits (Ne.symm hsegments)
    exact absurd (h'.precedes e h.last.mem h.method_eq h.fits hsegments) hfirst.asymm

namespace RouteTree

variable {is : List (Insertion α)}

theorem search_ofInsertions
    (hnames : ∀ i ∈ is, (placeholderNames (templateSegments i.template)).Nodup) (method : Method)
    (path : String) :
    RouteNode.Finds (is.map (·.entry)) method (pathSegments path) []
      ((ofInsertions is).root.search method (pathSegments path) []) := by
  rw [root_ofInsertions]
  apply RouteNode.search_finds
  intro e he
  obtain ⟨i, hi, rfl⟩ := List.mem_map.mp he
  exact hnames i hi

/-- Where a template fits, the search finds something, which is best. -/
theorem exists_best (hnames : ∀ i ∈ is, (placeholderNames (templateSegments i.template)).Nodup)
    {path : String} (he : e ∈ is.map (·.entry)) (hmethod : e.method = method)
    (hfits : FitsPath e.segments (pathSegments path)) :
    ∃ e', Best (is.map (·.entry)) method (pathSegments path) e' := by
  have hfinds := search_ofInsertions hnames method path
  cases hresult : (ofInsertions is).root.search method (pathSegments path) [] with
  | mk found left =>
    rw [hresult] at hfinds
    cases found with
    | none => exact absurd hfits (hfinds.2 e he hmethod)
    | some _ =>
      obtain ⟨e', hbest, -⟩ := hfinds
      exact ⟨e', hbest⟩

/-- What is found for a path is the value of its best entry, with the captures of that entry
alone. -/
theorem find?_eq_some_iff
    (hnames : ∀ i ∈ is, (placeholderNames (templateSegments i.template)).Nodup) {path : String}
    {value : α} {captures : Captures} :
    (ofInsertions is).find? method path = some (value, captures) ↔
      ∃ e, Best (is.map (·.entry)) method (pathSegments path) e ∧ e.value = value ∧
        captured e.segments (pathSegments path) = captures := by
  have hfinds := search_ofInsertions hnames method path
  rw [find?]
  cases hresult : (ofInsertions is).root.search method (pathSegments path) [] with
  | mk found left =>
    rw [hresult] at hfinds
    cases found with
    | none =>
      constructor
      · intro h
        cases h
      · rintro ⟨e, hbest, -, -⟩
        exact absurd hbest.fits (hfinds.2 e hbest.last.mem hbest.method_eq)
    | some _ =>
      obtain ⟨e, hbest, rfl, hleft⟩ := hfinds
      rw [List.nil_append] at hleft
      constructor
      · intro h
        simp only [Option.some.injEq, Prod.mk.injEq] at h
        exact ⟨e, hbest, h.1, hleft ▸ h.2⟩
      · rintro ⟨e', hbest', rfl, rfl⟩
        obtain rfl := hbest.unique hbest'
        rw [hleft]

theorem find?_isSome_iff
    (hnames : ∀ i ∈ is, (placeholderNames (templateSegments i.template)).Nodup) {path : String} :
    ((ofInsertions is).find? method path).isSome ↔
      ∃ i ∈ is, i.method = method ∧ FitsPath (templateSegments i.template) (pathSegments path) := by
  constructor
  · intro h
    obtain ⟨⟨value, captures⟩, hfound⟩ := Option.isSome_iff_exists.mp h
    obtain ⟨e, hbest, -⟩ := (find?_eq_some_iff hnames).mp hfound
    obtain ⟨i, hi, rfl⟩ := List.mem_map.mp hbest.last.mem
    exact ⟨i, hi, hbest.method_eq, hbest.fits⟩
  · rintro ⟨i, hi, hmethod, hfits⟩
    obtain ⟨e, hbest⟩ := exists_best hnames (List.mem_map_of_mem hi) hmethod hfits
    exact Option.isSome_iff_exists.mpr ⟨_, (find?_eq_some_iff hnames).mpr ⟨e, hbest, rfl, rfl⟩⟩

/-- A path is answered if any template of the method fits it, and then with the value and the
captures of the best. -/
theorem find?_best (hnames : ∀ i ∈ is, (placeholderNames (templateSegments i.template)).Nodup)
    (method : Method) (path : String) :
    (((ofInsertions is).find? method path).isSome ↔
        ∃ i ∈ is, i.method = method ∧ FitsPath (templateSegments i.template) (pathSegments path)) ∧
      ∀ value captures, (ofInsertions is).find? method path = some (value, captures) ↔
        ∃ e, Best (is.map (·.entry)) method (pathSegments path) e ∧ e.value = value ∧
          captured e.segments (pathSegments path) = captures :=
  ⟨find?_isSome_iff hnames, fun _ _ => find?_eq_some_iff hnames⟩

def userRoutes : List (Insertion String) :=
  [⟨.get, "/users/{user_id}/posts", "posts"⟩, ⟨.get, "/users/456/{tab}/edit", "edit"⟩,
    ⟨.get, "/users/{id}/comments", "old"⟩, ⟨.get, "users/{id}//comments/", "comments"⟩]

theorem userRoutes_names :
    ∀ i ∈ userRoutes, (placeholderNames (templateSegments i.template)).Nodup := by
  decide +kernel

/-- Two branches fail before the third is found, and leave no captures. -/
theorem find?_best_userRoutes :
    ∃ e, Best (userRoutes.map (·.entry)) .get (pathSegments "/users/456/comments") e ∧
      e.value = "comments" ∧
        captured e.segments (pathSegments "/users/456/comments") = [("id", "456")] :=
  ((find?_best userRoutes_names .get "/users/456/comments").2 _ _).mp
    (by decide +kernel)

end RouteTree

end

end EndpointCompiler
