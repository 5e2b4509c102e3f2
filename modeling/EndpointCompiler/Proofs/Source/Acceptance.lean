import EndpointCompiler.Proofs.Source.Bodies
import EndpointCompiler.Proofs.Source.Derivations
import EndpointCompiler.Proofs.Source.Outline
import EndpointCompiler.Proofs.Source.Shift

/-! Every phrase of the grammar is read to its tree, and the tree is placed over the tokens of the
phrase. The readers look at most two tokens ahead, so it is enough to know of what follows a phrase
that it does not go on with it; nothing else about it matters, nor how far on in a text it all is. -/

namespace EndpointCompiler.Source

/-- A thing is read from its tokens wherever these stand, unless what follows goes on with it. -/
def Rereads {β : Type} (item : ∀ bound, BoundedReader β bound) (shift : Nat → β → β)
    (Ends : Token → Prop) (ks : Tokens) (b : β) : Prop :=
  ∀ n rest bound h, Ends (peek rest) →
    Reads (item bound (ks.map (·.shift n) ++ rest) h) (· = shift n b) rest

/-- A reader that needs no bound. -/
abbrev unbounded {β : Type} (read : (ts : Tokens) → Step β ts.length) (bound : Nat) :
    BoundedReader β bound :=
  fun ts _ => read ts

section

variable {β : Type} {item : ∀ bound, BoundedReader β bound} {read : (ts : Tokens) → Step β ts.length}
  {shift : Nat → β → β} {Ends Ends' : Token → Prop} {ks rest : Tokens} {b : β}

theorem Rereads.imp (h : Rereads item shift Ends ks b) (hends : ∀ t, Ends' t → Ends t) :
    Rereads item shift Ends' ks b :=
  fun n rest bound hb hr => h n rest bound hb (hends _ hr)

theorem rereads_unbounded (h : ∀ n rest, Ends (peek rest) →
    Reads (read (ks.map (·.shift n) ++ rest)) (· = shift n b) rest) :
    Rereads (unbounded read) shift Ends ks b :=
  fun n rest _ _ hr => h n rest hr

theorem Rereads.reads (h : Rereads (unbounded read) shift Ends ks b) (n : Nat)
    (hr : Ends (peek rest)) : Reads (read (ks.map (·.shift n) ++ rest)) (· = shift n b) rest :=
  h n rest _ (Nat.lt_succ_self _) hr

end

section

variable {α β : Type} {P : Phrase α} {Q : Tokens → β → Prop} {f : β → α} {shift : Nat → β → β}
  {item : ∀ bound, BoundedReader β bound} {close : Punct} {vs ws : List Token} {as : List α}
  {ks : Tokens}

/-- The phrase of a list is read as a list over its tokens if the phrases in it are, wherever the
tokens stand. A thing has to be read back where an end of types follows, as a comma is one. -/
theorem Separated.placed (has : Separated P vs as) (hwhole : Spells vs ks)
    (hitem : ∀ us a ks, us.length ≤ vs.length → P us a → Spells us ks →
      ∃ b, f b = a ∧ Q ks b ∧ Rereads item shift EndsType ks b) :
    ∃ bs, bs.map f = as ∧ InTurn Q ks bs ∧ ∀ n rest bound h, EndsType (peek rest) →
      peek rest ≠ .punct .comma →
      Reads (commaSeparated bound (item bound) (ks.map (·.shift n) ++ rest) h)
        (· = bs.map (shift n)) rest := by
  induction has generalizing ks with
  | @last us a ha =>
    obtain ⟨b, rfl, hb, hread⟩ := hitem us a ks (Nat.le_refl _) ha hwhole
    refine ⟨[b], rfl, inTurn_singleton hb, fun n rest bound h hends hcomma => ?_⟩
    refine (reads_commaSeparated_last (hread n rest bound h hends) hcomma).imp ?_
    rintro _ ⟨_, rfl, rfl⟩
    rfl
  | @cons us vs a as ha _ ih =>
    obtain ⟨ks, ms, rfl, hfirst, hms⟩ := spells_append.mp hwhole
    obtain ⟨l, ms, rfl, hl, hms⟩ := spells_cons.mp hms
    obtain ⟨b, rfl, hb, hread⟩ := hitem us a ks (by simp) ha hfirst
    have hmore : ∀ us a ks, us.length ≤ vs.length → P us a → Spells us ks →
        ∃ b, f b = a ∧ Q ks b ∧ Rereads item shift EndsType ks b :=
      fun us a ks hus => hitem us a ks (by simp only [List.length_append, List.length_cons]; omega)
    obtain ⟨bs, rfl, hbs, hreads⟩ := ih hms hmore
    refine ⟨b :: bs, rfl, (inTurn_singleton hb).append (hbs.cons_token l), ?_⟩
    intro n rest bound
    rw [List.map_append, List.map_cons, List.append_assoc, List.cons_append]
    intro h hends hcomma
    have hmark := endsType_mark (l := l.shift n) hl (by decide) (ms.map (·.shift n) ++ rest)
    refine (reads_commaSeparated_cons (hread n _ bound h hmark) hl
      fun h => hreads n rest bound h hends hcomma).imp ?_
    rintro _ ⟨_, _, rfl, rfl, rfl⟩
    rfl

/-- The end of a list may have one more comma than there are between its things. -/
theorem Separated.placed_list (has : Separated P vs as)
    (hws : ws = [] ∨ ws = [.punct .comma]) (hwhole : Spells (vs ++ ws) ks) (hclose : close ≠ .comma)
    (hitem : ∀ us a ks, us.length ≤ vs.length → P us a → Spells us ks → ∃ b, f b = a ∧ Q ks b ∧
      Rereads item shift (fun t => t = .punct .comma ∨ t = .punct close) ks b)
    (hfirst : ∀ us a, P us a → ∃ t us', us = t :: us' ∧ t ≠ .punct close) :
    ∃ bs, bs.map f = as ∧ InTurn Q ks bs ∧ ∀ n rest bound h, peek rest = .punct close →
      Reads (commaList bound close (item bound) (ks.map (·.shift n) ++ rest) h)
        (· = bs.map (shift n)) rest := by
  have hpeek : ∀ us a ks, P us a → Spells us ks → ∀ n rest,
      peek (ks.map (·.shift n) ++ rest) ≠ .punct close := by
    intro us a ks ha hks n rest
    obtain ⟨t, us', rfl, ht⟩ := hfirst us a ha
    obtain ⟨l, ks, rfl, rfl, -⟩ := spells_cons.mp hks
    exact ht
  -- The bound on the lengths stays with `hitem`, for the induction of expressions is on them.
  induction has generalizing ks with
  | @last us a ha =>
    obtain ⟨ks, ms, rfl, hus, hms⟩ := spells_append.mp hwhole
    obtain ⟨b, rfl, hb, hread⟩ := hitem us a ks (Nat.le_refl _) ha hus
    refine ⟨[b], rfl, (inTurn_singleton hb).after ms, ?_⟩
    intro n rest bound
    rw [List.map_append, List.append_assoc]
    intro h hrest
    have hopen := hpeek us _ ks ha hus n
    rcases hws with rfl | rfl
    · obtain rfl := spells_nil.mp hms
      have hcomma : peek rest ≠ .punct .comma := by simpa [hrest] using hclose
      refine (reads_commaList_last (hopen _) (hread n rest bound h (.inr hrest)) hcomma).imp ?_
      rintro _ ⟨_, rfl, rfl⟩
      rfl
    · obtain ⟨l, rfl, hl⟩ := spells_singleton.mp hms
      have hend : ∀ h, Reads (commaList bound close (item bound) rest h) (· = []) rest :=
        fun h => reads_commaList_nil hrest
      refine (reads_commaList_cons (hopen _) (hread n _ bound h (.inl hl)) hl hend).imp ?_
      rintro _ ⟨_, _, rfl, rfl, rfl⟩
      rfl
  | @cons us vs a as ha _ ih =>
    rw [List.append_assoc] at hwhole
    obtain ⟨ks, ms, rfl, hus, hms⟩ := spells_append.mp hwhole
    obtain ⟨l, ms, rfl, hl, hms⟩ := spells_cons.mp hms
    obtain ⟨b, rfl, hb, hread⟩ := hitem us a ks (by simp) ha hus
    have hmore : ∀ us a ks, us.length ≤ vs.length → P us a → Spells us ks → ∃ b, f b = a ∧ Q ks b ∧
        Rereads item shift (fun t => t = .punct .comma ∨ t = .punct close) ks b :=
      fun us a ks hus => hitem us a ks (by simp only [List.length_append, List.length_cons]; omega)
    obtain ⟨bs, rfl, hbs, hreads⟩ := ih hms hmore
    refine ⟨b :: bs, rfl, (inTurn_singleton hb).append (hbs.cons_token l), ?_⟩
    intro n rest bound
    rw [List.map_append, List.map_cons, List.append_assoc, List.cons_append]
    intro h hrest
    refine (reads_commaList_cons (hpeek us _ ks ha hus n _) (hread n _ bound h (.inl hl)) hl
      fun h => hreads n rest bound h hrest).imp ?_
    rintro _ ⟨_, _, rfl, rfl, rfl⟩
    rfl

theorem Listed.placed (has : Listed P vs as) (close : Punct) (hwhole : Spells vs ks)
    (hclose : close ≠ .comma)
    (hitem : ∀ us a ks, us.length ≤ vs.length → P us a → Spells us ks → ∃ b, f b = a ∧ Q ks b ∧
      Rereads item shift (fun t => t = .punct .comma ∨ t = .punct close) ks b)
    (hfirst : ∀ us a, P us a → ∃ t us', us = t :: us' ∧ t ≠ .punct close) :
    ∃ bs, bs.map f = as ∧ InTurn Q ks bs ∧ ∀ n rest bound h, peek rest = .punct close →
      Reads (commaList bound close (item bound) (ks.map (·.shift n) ++ rest) h)
        (· = bs.map (shift n)) rest := by
  cases has with
  | nil =>
    obtain rfl := spells_nil.mp hwhole
    refine ⟨[], rfl, .nil [], fun n rest bound h hrest => reads_commaList_nil hrest⟩
  | plain has =>
    rw [← List.append_nil vs] at hwhole
    exact has.placed_list (.inl rfl) hwhole hclose hitem hfirst
  | @trailing us _ has =>
    have hshort : ∀ us' a ks, us'.length ≤ us.length → P us' a → Spells us' ks →
        ∃ b, f b = a ∧ Q ks b ∧
          Rereads item shift (fun t => t = .punct .comma ∨ t = .punct close) ks b :=
      fun us' a ks hus => hitem us' a ks (by simp only [List.length_append]; omega)
    exact has.placed_list (.inr rfl) hwhole hclose hshort hfirst

end

section

variable {us : List Token} {ks rest : Tokens}

theorem map_shift_append (n : Nat) (ks ms rest : Tokens) :
    (ks ++ ms).map (·.shift n) ++ rest = ks.map (·.shift n) ++ (ms.map (·.shift n) ++ rest) := by
  rw [List.map_append, List.append_assoc]

theorem map_shift_cons (n : Nat) (l : Lexeme) (ks rest : Tokens) :
    (l :: ks).map (·.shift n) ++ rest = l.shift n :: (ks.map (·.shift n) ++ rest) := rfl

theorem map_shift_singleton (n : Nat) (l : Lexeme) (rest : Tokens) :
    [l].map (·.shift n) ++ rest = l.shift n :: rest := rfl

theorem map_shift_between (n : Nat) (l m : Lexeme) (ks rest : Tokens) :
    (l :: ks ++ [m]).map (·.shift n) ++ rest =
      l.shift n :: (ks.map (·.shift n) ++ m.shift n :: rest) := by
  rw [map_shift_append, map_shift_cons]
  rfl

theorem NamePhrase.first {v : Option ModuleId × String} (h : NamePhrase us v) :
    ∃ n us', us = .ident n :: us' := by
  cases h with
  | plain n => exact ⟨n, [], rfl⟩
  | inModule m more n => exact ⟨m, _, rfl⟩

theorem Hull.start_here {s : Span} (h : Hull ks s) (n : Nat) (rest : Tokens) :
    (here (ks.map (·.shift n) ++ rest)).start = n + s.start := by
  obtain ⟨first, last, hfirst, -, rfl⟩ := h
  obtain ⟨more, rfl⟩ := List.head?_eq_some_iff.mp hfirst
  rfl

theorem Spells.begins (h : Spells us ks) (n : Nat) (rest : Tokens) :
    Begins us (ks.map (·.shift n) ++ rest) rest := by
  refine ⟨ks.map (·.shift n), ?_, rfl⟩
  rw [List.map_map]
  exact h

theorem NamePhrase.placed {module : Option ModuleId} {name : String}
    (h : NamePhrase us (module, name)) (hwhole : Spells us ks) :
    ∃ (i : Ident) (start : Nat), i.name = name ∧ Hull ks ⟨start, i.span.stop⟩ ∧
      ∀ n rest, peek rest ≠ .punct .dot ∧ peek rest ≠ .punct .doubleColon →
        Reads (typeName (ks.map (·.shift n) ++ rest)) (· = (module, i.shift n)) rest := by
  cases h with
  | plain name =>
    obtain ⟨l, rfl, hl⟩ := spells_singleton.mp hwhole
    exact ⟨⟨name, l.span⟩, l.span.start, rfl, hull_singleton l,
      fun n rest hr => reads_typeName_plain (l := l.shift n) hl hr⟩
  | inModule m more name =>
    have hsplit : .ident m :: pathTokens more ++ [.punct .doubleColon, .ident name] =
        (.ident m :: pathTokens more ++ [.punct .doubleColon]) ++ [.ident name] := by simp
    rw [hsplit] at hwhole
    obtain ⟨ks, ms, rfl, hpath, hms⟩ := spells_append.mp hwhole
    obtain ⟨l, rfl, hl⟩ := spells_singleton.mp hms
    obtain ⟨k, ks', rfl, -, -⟩ := spells_cons.mp hpath
    refine ⟨⟨name, l.span⟩, k.span.start, rfl, hull_between k l ks', fun n rest _ => ?_⟩
    rw [List.map_append, List.append_assoc]
    exact reads_typeName_path (l := l.shift n) (hpath.begins n _) hl

theorem TypePhrase.first {t : TypeExpr} (h : TypePhrase us t) :
    ∃ u us', us = u :: us' ∧ (u = .punct .leftBracket ∨ ∃ n, u = .ident n) := by
  cases h with
  | array h => exact ⟨_, _, rfl, .inl rfl⟩
  | name h =>
    obtain ⟨n, us', rfl⟩ := h.first
    exact ⟨_, _, rfl, .inr ⟨n, rfl⟩⟩
  | apply h _ =>
    obtain ⟨n, us', rfl⟩ := h.first
    exact ⟨_, _, rfl, .inr ⟨n, rfl⟩⟩

/-- A type is placed over its tokens and read from them. -/
structure TypeExpr.Over (e : TypeExpr) (ks : Tokens) : Prop where
  placed : Placed ks e.outline
  rereads : Rereads (unbounded typeExpr) TypeExpr.shift EndsType ks e

theorem separated_over {ts : List TypeExpr} (h : Separated TypePhrase us ts) (hwhole : Spells us ks)
    (hitem : ∀ ws t ks, ws.length ≤ us.length → TypePhrase ws t → Spells ws ks →
      ∃ e : TypeExpr, e.bare = t ∧ e.Over ks) :
    ∃ es : List TypeExpr, es.map (·.bare) = ts ∧ InTurn Placed ks (es.map (·.outline)) ∧
      ∀ n rest bound h, EndsType (peek rest) → peek rest ≠ .punct .comma →
        Reads (commaSeparated bound (unbounded typeExpr bound) (ks.map (·.shift n) ++ rest) h)
          (· = es.map (·.shift n)) rest := by
  have hplaced : ∀ ws t ks, ws.length ≤ us.length → TypePhrase ws t → Spells ws ks →
      ∃ e : TypeExpr, e.bare = t ∧ Placed ks e.outline ∧
        Rereads (unbounded typeExpr) TypeExpr.shift EndsType ks e := by
    intro ws t ks hws ht hks
    obtain ⟨e, he, hplaced, hread⟩ := hitem ws t ks hws ht hks
    exact ⟨e, he, hplaced, hread⟩
  obtain ⟨es, hes, hparts, hreads⟩ :=
    h.placed (Q := fun ks (e : TypeExpr) => Placed ks e.outline) hwhole hplaced
  exact ⟨es, hes, hparts.map fun _ _ he => he, hreads⟩

theorem array_over {t : TypeExpr} (h : TypePhrase us t)
    (hwhole : Spells (.punct .leftBracket :: us ++ [.punct .rightBracket]) ks)
    (helement : ∀ ks, Spells us ks → ∃ e : TypeExpr, e.bare = t ∧ e.Over ks) :
    ∃ e : TypeExpr, e.bare = .array t noSpan ∧ e.Over ks := by
  have hphrase := hwhole ▸ TypePhrase.array h
  obtain ⟨ks, m, rfl, hfront, hm⟩ := spells_snoc.mp hwhole
  obtain ⟨l, ks, rfl, hl, hks⟩ := spells_cons.mp hfront
  obtain ⟨e, rfl, hplaced, hread⟩ := helement ks hks
  refine ⟨.array e ⟨l.span.start, m.span.stop⟩, by rw [TypeExpr.bare], ?_, ?_⟩
  · refine TypeExpr.placed (hull_between l m ks) (by rwa [TypeExpr.bare]) ?_
    exact ((inTurn_singleton hplaced).cons_token l).after [m]
  · refine rereads_unbounded fun n rest _ => ?_
    have hinner := hread.reads n (endsType_mark (l := m.shift n) hm (by decide) rest)
    have hread := reads_typeExpr_array (l := l.shift n) (m := m.shift n) hl hm hinner
    rw [map_shift_between]
    refine hread.imp ?_
    rintro _ ⟨_, rfl, rfl⟩
    rw [TypeExpr.shift]
    rfl

section

variable {module : Option ModuleId} {name : String}

theorem NamePhrase.not_leftBracket (h : NamePhrase us (module, name)) (hwhole : Spells us ks)
    (n : Nat) (rest : Tokens) : peek (ks.map (·.shift n) ++ rest) ≠ .punct .leftBracket := by
  obtain ⟨m, us', rfl⟩ := h.first
  simp [(hwhole.begins n rest).peek]

theorem name_over (h : NamePhrase us (module, name)) (hwhole : Spells us ks) :
    ∃ e : TypeExpr, e.bare = .path module name [] noSpan ∧ e.Over ks := by
  have hphrase := hwhole ▸ TypePhrase.name h
  have hbracket := h.not_leftBracket hwhole
  obtain ⟨i, start, rfl, hhull, hname⟩ := h.placed hwhole
  refine ⟨.path module i.name [] ⟨start, i.span.stop⟩, rfl, ?_, ?_⟩
  · exact TypeExpr.placed hhull hphrase (.nil ks)
  · refine rereads_unbounded fun n rest hr => ?_
    have hread := hname n rest ⟨hr.1, hr.2.1⟩
    refine (reads_typeExpr_name (hbracket n rest) hread hr.2.2).imp ?_
    rintro _ ⟨_, rfl, rfl⟩
    rw [hhull.start_here]
    rfl

theorem apply_over {vs : List Token} {ts : List TypeExpr} (h : NamePhrase us (module, name))
    (hargs : Separated TypePhrase vs ts)
    (hwhole : Spells (us ++ .punct .less :: vs ++ [.punct .greater]) ks)
    (hitem : ∀ ws t ks, ws.length ≤ vs.length → TypePhrase ws t → Spells ws ks →
      ∃ e : TypeExpr, e.bare = t ∧ e.Over ks) :
    ∃ e : TypeExpr, e.bare = .path module name ts noSpan ∧ e.Over ks := by
  have hphrase := hwhole ▸ TypePhrase.apply h hargs
  obtain ⟨ks, m, rfl, hfront, hm⟩ := spells_snoc.mp hwhole
  obtain ⟨ks, ms, rfl, hname, hms⟩ := spells_append.mp hfront
  obtain ⟨l, ms, rfl, hl, hms⟩ := spells_cons.mp hms
  have hbracket := h.not_leftBracket hname
  obtain ⟨i, start, rfl, hhull, hreadName⟩ := h.placed hname
  obtain ⟨es, rfl, hes, hreads⟩ := separated_over hargs hms hitem
  have hwhole : Hull (ks ++ l :: ms ++ [m]) ⟨start, m.span.stop⟩ :=
    hhull.through (hull_singleton m) (l :: ms)
  refine ⟨.path module i.name es ⟨start, m.span.stop⟩, ?_, ?_, ?_⟩
  · rw [TypeExpr.bare, TypeExpr.bareAll_eq]
  · refine TypeExpr.placed hwhole ?_ ?_
    · rwa [TypeExpr.bare, TypeExpr.bareAll_eq]
    · rw [TypeExpr.outline, TypeExpr.outlines_eq]
      exact ((hes.cons_token l).before ks).after [m]
  · refine rereads_unbounded fun n rest _ => ?_
    have hstart := hwhole.start_here n rest
    rw [map_shift_append, map_shift_append, map_shift_singleton, map_shift_cons] at hstart ⊢
    have hless : peek (l.shift n :: (ms.map (·.shift n) ++ m.shift n :: rest)) = .punct .less := hl
    have hgreater : peek (m.shift n :: rest) = .punct .greater := hm
    have hread := hreadName n (l.shift n :: (ms.map (·.shift n) ++ m.shift n :: rest))
      (by simp [hless])
    refine (reads_typeExpr_args (m := m.shift n) (hbracket n _) hread hl hm fun bound h =>
      hreads n (m.shift n :: rest) bound h (by simp [EndsType, hgreater])
        (by simp [hgreater])).imp ?_
    rintro _ ⟨_, _, rfl, rfl, rfl⟩
    rw [hstart, TypeExpr.shift, TypeExpr.shiftAll_eq]
    rfl

end

-- Arguments stand in a list of their own, so the induction is on the number of tokens.
/-- A phrase for a type is read as a type over its tokens, with one case for each production. -/
theorem TypePhrase.placed {t : TypeExpr} (h : TypePhrase us t) (hwhole : Spells us ks) :
    ∃ e : TypeExpr, e.bare = t ∧ e.Over ks := by
  induction hn : us.length using Nat.strongRecOn generalizing us t ks with
  | ind n ih =>
    subst hn
    have hshorter : ∀ ws t ns, ws.length < us.length → TypePhrase ws t → Spells ws ns →
        ∃ e : TypeExpr, e.bare = t ∧ e.Over ns :=
      fun ws t ns hlt ht hns => ih ws.length hlt ht hns rfl
    cases h with
    | array h =>
      refine array_over h hwhole fun ns hns => hshorter _ _ ns ?_ h hns
      simp only [List.length_append, List.length_cons]
      omega
    | name h => exact name_over h hwhole
    | apply h hargs =>
      refine apply_over h hargs hwhole fun ws t ns hws => hshorter ws t ns ?_
      simp only [List.length_append, List.length_cons]
      omega

/-- Type arguments come with two marks in front, so that a call without any is told from one with
some. -/
theorem TypeArgsPhrase.placed {ts : List TypeExpr} (h : TypeArgsPhrase us ts)
    (hwhole : Spells us ks) : ∃ es : List TypeExpr, es.map (·.bare) = ts ∧
      InTurn Placed ks (es.map (·.outline)) ∧ ∀ n rest, peek rest = .punct .leftParen →
        (atTypeArgs (ks.map (·.shift n) ++ rest) ∨
          peek (ks.map (·.shift n) ++ rest) = .punct .leftParen) ∧
        Reads (typeArgs (ks.map (·.shift n) ++ rest)) (· = es.map (·.shift n)) rest := by
  cases h with
  | none =>
    obtain rfl := spells_nil.mp hwhole
    refine ⟨[], rfl, .nil [], fun n rest hr => ⟨.inr hr, ?_⟩⟩
    -- With no type arguments, the parenthesis itself tells the reader that there are none.
    have hat : ¬ atTypeArgs rest = true := by
      unfold atTypeArgs
      split
      · rename_i l m _
        have hl : l.token = .punct .leftParen := hr
        simp [hl]
      · exact Bool.false_ne_true
    show Reads (typeArgs rest) _ rest
    rw [typeArgs, if_neg hat]
    exact reads_ok rfl
  | some h =>
    obtain ⟨ks, m, rfl, hfront, hm⟩ := spells_snoc.mp hwhole
    obtain ⟨c, ks, rfl, hc, hfront⟩ := spells_cons.mp hfront
    obtain ⟨o, ks, rfl, ho, hinner⟩ := spells_cons.mp hfront
    obtain ⟨es, rfl, hes, hreads⟩ := separated_over h hinner fun _ _ _ _ ht hns => ht.placed hns
    refine ⟨es, rfl, ?_, fun n rest _ => ?_⟩
    · exact ((hes.cons_token o).cons_token c).after [m]
    · rw [map_shift_append, map_shift_singleton, map_shift_cons, map_shift_cons]
      have hat : atTypeArgs (c.shift n :: o.shift n :: (ks.map (·.shift n) ++ m.shift n :: rest)) =
          true := by simp [atTypeArgs, hc, ho]
      have hgreater : peek (m.shift n :: rest) = .punct .greater := hm
      refine ⟨.inl hat, ?_⟩
      rw [typeArgs, if_pos hat]
      refine (reads_expect (l := c.shift n) hc).bind fun _ _ _ => ?_
      refine (reads_expect (l := o.shift n) ho).bind fun _ _ _ => ?_
      refine (hreads n (m.shift n :: rest) _ _ (by simp [EndsType, hgreater])
        (by simp [hgreater])).bind fun _ _ hargs => ?_
      refine (reads_expect (l := m.shift n) hm).bind fun _ _ _ => ?_
      exact reads_ok hargs

theorem field_placed {b : Expr} {bs : Tokens} (hbase : Placed bs b.outline) (d m : Lexeme)
    (name : String) :
    Placed (bs ++ [d] ++ [m])
      (Expr.field b ⟨name, m.span⟩ ⟨b.span.start, m.span.stop⟩).outline := by
  have hhull := hbase.hull.through (hull_singleton m) [d]
  rw [Expr.outline_span] at hhull
  refine Placed.plain hhull ?_
  rw [List.append_assoc]
  exact (inTurn_singleton hbase).append ((inTurn_singleton (placed_leaf m)).cons_token d)

/-- A chain goes on from a value over its own tokens. -/
theorem chained_placed {b : Expr} {names : List String} {bs : Tokens}
    (hbase : Placed bs b.outline) (hwhole : Spells (pathTokens names) ks) :
    ∃ e : Expr, e.bare = chained names b.bare ∧ Placed (bs ++ ks) e.outline ∧
      ∀ n rest, peek rest ≠ .punct .dot →
        Reads (fieldChain (b.shift n) (ks.map (·.shift n) ++ rest)) (· = e.shift n) rest := by
  induction names generalizing b bs ks with
  | nil =>
    obtain rfl := spells_nil.mp hwhole
    rw [List.append_nil]
    exact ⟨b, rfl, hbase, fun n rest hr => reads_fieldChain_none hr⟩
  | cons name names ih =>
    obtain ⟨d, ks, rfl, hd, hks⟩ := spells_cons.mp hwhole
    obtain ⟨m, ks, rfl, hm, hks⟩ := spells_cons.mp hks
    obtain ⟨e, he, hplaced, hread⟩ := ih (field_placed hbase d m name) hks
    refine ⟨e, ?_, by simpa using hplaced, fun n rest hr => ?_⟩
    · rw [he, Expr.bare]
      rfl
    · have hdot : (d.shift n).token = .punct .dot := hd
      rw [map_shift_cons, map_shift_cons, fieldChain, if_pos hdot]
      refine (reads_ident_eq (l := m.shift n) hm).bind ?_
      rintro _ _ rfl
      have hmore := hread n rest hr
      rw [Expr.shift] at hmore
      have htaken : Reads (fieldChain (.field (b.shift n) ⟨name, (m.shift n).span⟩
          ⟨(b.shift n).span.start, (m.shift n).span.stop⟩) (ks.map (·.shift n) ++ rest))
          (· = e.shift n) rest := by
        rw [Expr.shift_span]
        exact hmore
      exact htaken.bind fun _ _ hvalue => reads_ok hvalue

/-- What may not follow an expression: it would go on with it. -/
def EndsExpr (t : Token) : Prop :=
  t ≠ .punct .dot ∧ t ≠ .punct .doubleColon ∧ t ≠ .punct .leftParen

theorem endsExpr_of_eq {t : Token} {p : Punct} (h : t = .punct p)
    (hp : p ≠ .dot ∧ p ≠ .doubleColon ∧ p ≠ .leftParen) : EndsExpr t := by
  subst h
  simpa [EndsExpr] using hp

theorem endsExpr_of_listed {t : Token} {p : Punct} (h : t = .punct .comma ∨ t = .punct p)
    (hp : p ≠ .dot ∧ p ≠ .doubleColon ∧ p ≠ .leftParen) : EndsExpr t := by
  rcases h with h | h
  · exact endsExpr_of_eq h (by decide)
  · exact endsExpr_of_eq h hp

theorem ExprPhrase.first {e : Expr} (h : ExprPhrase us e) :
    ∃ u us', us = u :: us' ∧ ∀ p, u ≠ .punct p := by
  cases h with
  | await h => exact ⟨_, _, rfl, by simp⟩
  | new h h' => exact ⟨_, _, rfl, by simp⟩
  | chain n more => exact ⟨_, _, rfl, by simp⟩
  | call n h h' => exact ⟨_, _, rfl, by simp⟩

theorem init_short (ts : Tokens) (name : Parsed Ident Lexeme ts.length)
    (equals : Parsed Span Lexeme name.rest.length)
    (value : Parsed Expr Lexeme equals.rest.length) : value.rest.length < ts.length := by
  have hname := name.short
  have hequals := equals.short
  have hvalue := value.short
  omega

/-- A field of a new object with its value. -/
def init (bound : Nat) : BoundedReader (Ident × Expr) bound := fun ts _ => do
  let name ← ident ts
  let equals ← expectMark .equals name.rest
  let value ← expr equals.rest
  return ⟨(name.value, value.value), value.rest, init_short ts name equals value⟩

/-- An expression is placed over its tokens and read from them. -/
structure Expr.Over (e : Expr) (ks : Tokens) : Prop where
  placed : Placed ks e.outline
  rereads : Rereads (unbounded expr) Expr.shift EndsExpr ks e

theorem InitPhrase.placed {x : Ident × Expr} (h : InitPhrase ExprPhrase us x) (hwhole : Spells us ks)
    (hvalue : ∀ vs e ks, vs.length ≤ us.length → ExprPhrase vs e → Spells vs ks →
      ∃ v : Expr, v.bare = e ∧ v.Over ks) :
    ∃ y : Ident × Expr, (y.1.bare, y.2.bare) = x ∧
      InTurn Placed ks [.leaf y.1.span, y.2.outline] ∧
      Rereads init (fun n y => (y.1.shift n, y.2.shift n))
        (fun t => t = .punct .comma ∨ t = .punct .rightBrace) ks y := by
  cases h with
  | @assign name us e h =>
    obtain ⟨i, ks, rfl, hi, hks⟩ := spells_cons.mp hwhole
    obtain ⟨q, ks, rfl, hq, hks⟩ := spells_cons.mp hks
    obtain ⟨v, rfl, hplaced, hread⟩ := hvalue us e ks (by simp only [List.length_cons]; omega) h hks
    refine ⟨(⟨name, i.span⟩, v), rfl, ?_, fun n rest _ _ hr => ?_⟩
    · exact .cons_self (placed_leaf i) ((inTurn_singleton hplaced).cons_token q)
    · refine (reads_ident_eq (l := i.shift n) hi).bind ?_
      rintro _ _ rfl
      refine (reads_expect (l := q.shift n) hq).bind fun _ _ _ => ?_
      refine (hread.reads n (endsExpr_of_listed hr (by decide))).bind ?_
      rintro _ _ rfl
      exact reads_ok rfl

theorem await_over {x : Expr} (hwhole : Spells (.keyword .await :: us) ks)
    (hinner : ∀ ks, Spells us ks → ∃ e : Expr, e.bare = x ∧ e.Over ks) :
    ∃ e : Expr, e.bare = .await x noSpan ∧ e.Over ks := by
  obtain ⟨l, ks, rfl, hl, hks⟩ := spells_cons.mp hwhole
  obtain ⟨e, rfl, hplaced, hread⟩ := hinner ks hks
  refine ⟨.await e ⟨l.span.start, e.span.stop⟩, by rw [Expr.bare], ?_, ?_⟩
  · have hhull := hplaced.hull.cons l
    rw [Expr.outline_span] at hhull
    exact Placed.plain hhull ((inTurn_singleton hplaced).cons_token l)
  · refine rereads_unbounded fun n rest hr => ?_
    rw [map_shift_cons, expr]
    simp only [Lexeme.shift_token, hl]
    refine (hread.reads n hr).bind ?_
    rintro _ _ rfl
    exact reads_ok (by rw [Expr.shift, Expr.shift_span]; rfl)

/-- A new object is read from the phrases of its type and of its initialisers. -/
theorem new_over {vs : List Token} {t : TypeExpr} {inits : List (Ident × Expr)}
    (htype : TypePhrase us t) (hinits : Listed (InitPhrase ExprPhrase) vs inits)
    (hwhole : Spells (.keyword .new :: us ++ .punct .leftBrace :: vs ++ [.punct .rightBrace]) ks)
    (hvalue : ∀ ws x ks, ws.length ≤ vs.length → ExprPhrase ws x → Spells ws ks →
      ∃ e : Expr, e.bare = x ∧ e.Over ks) :
    ∃ e : Expr, e.bare = .new t inits noSpan ∧ e.Over ks := by
  obtain ⟨ks, m, rfl, hfront, hm⟩ := spells_snoc.mp hwhole
  obtain ⟨ks, ms, rfl, hfront, hms⟩ := spells_append.mp hfront
  obtain ⟨l, ks, rfl, hl, hks⟩ := spells_cons.mp hfront
  obtain ⟨k, ms, rfl, hk, hms⟩ := spells_cons.mp hms
  obtain ⟨type, rfl, htype, hreadType⟩ := htype.placed hks
  obtain ⟨fields, rfl, hfields, hreadFields⟩ := hinits.placed
    (Q := fun ks (y : Ident × Expr) => InTurn Placed ks [.leaf y.1.span, y.2.outline])
    .rightBrace hms (by decide)
    (fun ws x ks hws hx hks => hx.placed hks fun us' e ks hus => hvalue us' e ks (Nat.le_trans hus hws))
    (fun ws x hx => by cases hx with | assign name h => exact ⟨_, _, rfl, by simp⟩)
  refine ⟨.new type fields ⟨l.span.start, m.span.stop⟩, ?_, ?_,
    rereads_unbounded fun n rest _ => ?_⟩
  · rw [Expr.bare, Expr.bareFields_eq]
  · rw [Expr.outline, Expr.fieldOutlines_eq]
    refine Placed.plain (hull_between l m _) ?_
    have hparts := ((inTurn_singleton htype).append
      ((hfields.flatMap fun _ _ hf => hf).cons_token k)).cons_token l
    exact hparts.after [m]
  · rw [map_shift_append, map_shift_append, map_shift_singleton, map_shift_cons, map_shift_cons,
      expr]
    simp only [Lexeme.shift_token, hl]
    refine (hreadType.reads n (endsType_mark (l := k.shift n) hk (by decide) _)).bind ?_
    rintro _ _ rfl
    refine (reads_expect (l := k.shift n) hk).bind fun _ _ _ => ?_
    refine (hreadFields n (m.shift n :: rest) _ _ hm).bind ?_
    rintro _ _ rfl
    refine (reads_expect (l := m.shift n) hm).bind ?_
    rintro _ _ rfl
    exact reads_ok (by rw [Expr.shift, Expr.shiftFields_eq]; rfl)

theorem chain_over {name : String} {more : List String}
    (hwhole : Spells (.ident name :: pathTokens more) ks) :
    ∃ e : Expr, e.bare = chained more (.var ⟨name, noSpan⟩) ∧ e.Over ks := by
  obtain ⟨l, ks, rfl, hl, hks⟩ := spells_cons.mp hwhole
  obtain ⟨e, he, hplaced, hread⟩ := chained_placed (b := .var ⟨name, l.span⟩) (placed_leaf l) hks
  refine ⟨e, he, hplaced, rereads_unbounded fun n rest hr => ?_⟩
  have hpeek : peek (ks.map (·.shift n) ++ rest) ≠ .punct .doubleColon ∧
      peek (ks.map (·.shift n) ++ rest) ≠ .punct .leftParen := by
    cases more with
    | nil =>
      obtain rfl := spells_nil.mp hks
      exact hr.2
    | cons f more =>
      have hdot : peek (ks.map (·.shift n) ++ rest) = .punct .dot := (hks.begins n rest).peek
      simp [hdot]
  rw [map_shift_cons, expr_ident (l := l.shift n) hl hpeek]
  exact (hread n rest hr.1).weaken _

/-- A call is read from the phrases of its type arguments and of its arguments. -/
theorem call_over {name : String} {vs : List Token} {ts : List TypeExpr} {es : List Expr}
    (htypes : TypeArgsPhrase us ts) (hargs : Listed ExprPhrase vs es)
    (hwhole : Spells (.ident name :: us ++ .punct .leftParen :: vs ++ [.punct .rightParen]) ks)
    (hitem : ∀ ws x ks, ws.length ≤ vs.length → ExprPhrase ws x → Spells ws ks →
      ∃ e : Expr, e.bare = x ∧ e.Over ks) :
    ∃ e : Expr, e.bare = .call ⟨name, noSpan⟩ ts es noSpan ∧ e.Over ks := by
  obtain ⟨ks, m, rfl, hfront, hm⟩ := spells_snoc.mp hwhole
  obtain ⟨ks, ms, rfl, hfront, hms⟩ := spells_append.mp hfront
  obtain ⟨l, ks, rfl, hl, hks⟩ := spells_cons.mp hfront
  obtain ⟨k, ms, rfl, hk, hms⟩ := spells_cons.mp hms
  obtain ⟨types, rfl, htypes, hreadTypes⟩ := htypes.placed hks
  -- Within the parentheses an expression ends at a comma or at the closing mark.
  have harg : ∀ ws x ks, ws.length ≤ vs.length → ExprPhrase ws x → Spells ws ks →
      ∃ e : Expr, e.bare = x ∧ Placed ks e.outline ∧ Rereads (unbounded expr) Expr.shift
        (fun t => t = .punct .comma ∨ t = .punct .rightParen) ks e := by
    intro ws x ks hws hx hks
    obtain ⟨e, he, hplaced, hread⟩ := hitem ws x ks hws hx hks
    exact ⟨e, he, hplaced, hread.imp fun t ht => endsExpr_of_listed ht (by decide)⟩
  obtain ⟨args, rfl, hargs, hreadArgs⟩ := hargs.placed
    (Q := fun ks (e : Expr) => Placed ks e.outline) .rightParen hms (by decide) harg
    (fun ws x hx => by
      obtain ⟨u, us', rfl, hu⟩ := hx.first
      exact ⟨u, us', rfl, hu _⟩)
  refine ⟨.call ⟨name, l.span⟩ types args ⟨l.span.start, m.span.stop⟩, ?_, ?_,
    rereads_unbounded fun n rest _ => ?_⟩
  · rw [Expr.bare, Expr.bareAll_eq, Ident.bare]
  · rw [Expr.outline, Expr.outlines_eq]
    refine Placed.plain (hull_between l m _) ?_
    have hparts := htypes.append ((hargs.map fun _ _ he => he).cons_token k)
    exact (InTurn.cons_self (placed_leaf l) hparts).after [m]
  · obtain ⟨hat, hread⟩ := hreadTypes n (k.shift n :: (ms.map (·.shift n) ++ m.shift n :: rest)) hk
    rw [map_shift_append, map_shift_append, map_shift_singleton, map_shift_cons, map_shift_cons,
      expr]
    simp only [Lexeme.shift_token, hl]
    rw [if_pos hat]
    refine hread.bind ?_
    rintro _ _ rfl
    refine (reads_expect (l := k.shift n) hk).bind fun _ _ _ => ?_
    refine (hreadArgs n (m.shift n :: rest) _ _ hm).bind ?_
    rintro _ _ rfl
    refine (reads_expect (l := m.shift n) hm).bind ?_
    rintro _ _ rfl
    exact reads_ok (by rw [Expr.shift, Expr.shiftAll_eq]; rfl)

/-- A phrase for an expression is read as an expression over its tokens. -/
theorem ExprPhrase.placed {x : Expr} (h : ExprPhrase us x) (hwhole : Spells us ks) :
    ∃ e : Expr, e.bare = x ∧ e.Over ks := by
  induction hn : us.length using Nat.strongRecOn generalizing us x ks with
  | ind n ih =>
    subst hn
    have hshorter : ∀ ws x ns, ws.length < us.length → ExprPhrase ws x → Spells ws ns →
        ∃ e : Expr, e.bare = x ∧ e.Over ns :=
      fun ws x ns hlt hx hns => ih ws.length hlt hx hns rfl
    cases h with
    | await h => exact await_over hwhole fun ns hns => hshorter _ _ ns (by simp) h hns
    | new htype hinits =>
      refine new_over htype hinits hwhole fun ws x ns hws => hshorter ws x ns ?_
      simp only [List.length_append, List.length_cons]
      omega
    | chain name more => exact chain_over hwhole
    | call name htypes hargs =>
      refine call_over htypes hargs hwhole fun ws x ns hws => hshorter ws x ns ?_
      simp only [List.length_append, List.length_cons]
      omega

end

end EndpointCompiler.Source
