import EndpointCompiler.Proofs.Source.Recognition
import EndpointCompiler.Proofs.Source.Slices

/-! Ranges delimit exactly what was read. A type or a declaration, cut out of its text at its range
and read on its own, is the same again. -/

namespace EndpointCompiler.Source

/-- The parts of one thing end before those of any later one begin. -/
def Apart {α : Type} (parts : α → List Outline) (as : List α) : Prop :=
  as.Pairwise fun a b => ∀ x ∈ parts a, ∀ y ∈ parts b, x.span.stop ≤ y.span.start

/-- The fields of a shape, and the parameters and the statements of an operation, stand one after
another. -/
def Item.InLine : Item → Prop
  | .shape d => Apart (·.outlines) d.fields
  | .op d => Apart (·.outlines) d.params ∧
    d.body.Pairwise fun s t => s.span.stop ≤ t.span.start

/-- The ranges of a declaration fit into each other, and what the text has at them reads as they
say. -/
structure Item.Delimits (text : String) (i : Item) : Prop where
  nodes : ∀ x : Outline, x.Node i.outline → x.Fits
  inLine : i.InLine
  types : ∀ (x : Outline) (t : TypeExpr), x.Node i.outline → x.type? = some t →
    ∃ slice, t.span.slice? text = some slice ∧ TypeRef.ofText slice = .ok t.toTypeRef
  alone : ∃ slice j, i.span.slice? text = some slice ∧ parseSource slice = .ok [j] ∧
    j.shift i.span.start = i

theorem Item.inLine_of_fits {i : Item} (h : i.outline.Fits) : i.InLine := by
  have horder := h.inOrder
  cases i with
  | shape d =>
    have hfields := (List.pairwise_cons.mp (List.pairwise_append.mp horder).2.1).2
    exact (List.pairwise_flatMap.mp hfields).2
  | op d =>
    obtain ⟨hfront, hback, -⟩ := List.pairwise_append.mp horder
    have hparams := (List.pairwise_cons.mp (List.pairwise_append.mp hfront).2.1).2
    have hbody := (List.pairwise_cons.mp hback).2
    refine ⟨(List.pairwise_flatMap.mp hparams).2, ?_⟩
    simpa only [List.pairwise_map, Stmt.outline_span] using hbody

section

variable {text : String} {ks ms : Tokens} {l : Lexeme} {i : Item}

theorem ofText_of_phrase {t : TypeExpr} {e : Lexeme} (h : tokenize text = .ok (ks ++ [e]))
    (hks : ∀ k ∈ ks, k.token ≠ .eof) (he : e.token = .eof)
    (ht : TypePhrase (ks.map (·.token)) t.bare) : TypeRef.ofText text = .ok t.toTypeRef := by
  rw [← tokensOf_append hks he] at ht
  obtain ⟨u, hu, hbare⟩ := parseTypeExpr_reads h ht
  rw [TypeRef.ofText, hu]
  simp only [← u.toTypeRef_bare, hbare, t.toTypeRef_bare]

theorem ItemOver.delimits (hi : ItemOver ms i) (h : tokenize text = .ok (ks ++ [l]))
    (hks : ∀ k ∈ ks, k.token ≠ .eof) (hms : ms <:+: ks) : i.Delimits text := by
  have hfits := hi.placed.fits ((tokenize_ordered h hks).sublist hms.sublist)
  refine ⟨hfits, Item.inLine_of_fits (hfits _ (.self _)), ?_, ?_⟩
  · intro x t hx ht
    obtain ⟨ns, hns, hhull, hphrase⟩ := hi.placed.types x t hx ht
    obtain ⟨slice, ns', e, hslice, htokens, he, hopen, rfl⟩ :=
      tokenize_slice h hks (hns.trans hms) hhull
    rw [List.map_map] at hphrase
    exact ⟨slice, hslice, ofText_of_phrase htokens hopen he hphrase⟩
  · have hhull := hi.placed.hull
    rw [Item.outline_span] at hhull
    obtain ⟨slice, ns, e, hslice, htokens, he, -, rfl⟩ := tokenize_slice h hks hms hhull
    have hphrase := hi.phrase
    rw [List.map_map] at hphrase
    obtain ⟨j, -, hj⟩ := hphrase.placed rfl
    refine ⟨slice, j, hslice, ?_, ?_⟩
    · have hpeek : peek [e] = .eof := he
      have hend : items [e] = .ok [] := by rw [items, if_pos hpeek]
      have hread := hj.items_cons 0 hend
      rw [map_shift_eq_self fun k _ => k.shift_zero, j.shift_zero] at hread
      simp only [parseSource, htokens, bind, Except.bind, hread]
    · have hmoved := hj.reads i.span.start []
      have hthere := hi.reads 0 []
      rw [map_shift_eq_self fun k _ => k.shift_zero, i.shift_zero] at hthere
      exact hmoved.unique hthere

end

/-- Where a text is accepted, each type in it and each declaration of it is what its own range of
the text reads as, and the declarations, with all that they are made of, stand one after another. -/
theorem parseSource_delimits {text : String} {is : List Item} (h : parseSource text = .ok is) :
    (∀ i ∈ is, i.Delimits text) ∧ is.Pairwise fun i j => i.span.stop ≤ j.span.start := by
  obtain ⟨ks, l, htokens, hks, hover⟩ := parseSource_over h
  constructor
  · intro i hi
    obtain ⟨ms, hms, hi⟩ := hover.mem hi
    exact hi.delimits htokens hks hms
  · refine hover.pairwise (tokenize_ordered htokens hks) fun ms ns i j hi hj hbefore => ?_
    have hplaced := hi.placed.before hj.placed hbefore
    rwa [Item.outline_span, Item.outline_span] at hplaced

/-- Types within types, attributes, awaited calls and new objects, behind characters of more than
one byte. -/
def nestedText : String :=
  "// größer\nshape L { n: List<[B]>, m: B } #[p(\"ä\")] async op f(#[q] n: [L], m: B) -> L \x7b " ++
    "let x = await g::<L, List<L>>(new L \x7b n = n.k, m = m \x7d); return x; \x7d"

theorem parseSource_delimits_nestedText :
    ∃ is, parseSource nestedText = .ok is ∧ is.length = 2 ∧ (∀ i ∈ is, i.Delimits nestedText) ∧
      is.Pairwise fun i j => i.span.stop ≤ j.span.start := by
  have hparse : parseSource nestedText = lexemesFrom 0 (_ ++ _) >>= items :=
    parseSource_written _ _
  have hlength : (parseSource nestedText).map List.length = .ok 2 := by
    rw [hparse]
    decide +kernel
  cases his : parseSource nestedText with
  | error e =>
    rw [his] at hlength
    cases hlength
  | ok is =>
    rw [his] at hlength
    exact ⟨is, rfl, Except.ok.inj hlength, parseSource_delimits his⟩

end EndpointCompiler.Source
