import EndpointCompiler.Proofs.Matching
import EndpointCompiler.Proofs.Source.TypeText

/-! Lists in source texts: pieces of text one after another, and things with commas between them up
to a closing mark. -/

namespace EndpointCompiler.Source

theorem Scans.flatMap {β : Type} {xs : List β} (text : β → List Char) (tokens : β → List Token)
    (h : ∀ x ∈ xs, ∀ cs, Scans (text x ++ cs) (tokens x) cs) (cs : List Char) :
    Scans (xs.flatMap text ++ cs) (xs.flatMap tokens) cs := by
  induction xs with
  | nil => exact .done cs
  | cons x xs ih =>
    have hx := h x (by simp) (xs.flatMap text ++ cs)
    have hrest := ih fun y hy => h y (List.mem_cons_of_mem _ hy)
    rw [List.flatMap_cons, List.flatMap_cons, List.append_assoc]
    exact hx.append hrest

theorem intercalate_toList (s : String) (ss : List String) :
    (", ".intercalate (s :: ss)).toList = s.toList ++ ss.flatMap fun t => ',' :: ' ' :: t.toList := by
  induction ss generalizing s with
  | nil => simp
  | cons t ss ih =>
    rw [String.intercalate_cons_cons, String.toList_append, String.toList_append, ih]
    simp

theorem scans_comma (cs : List Char) : Scans (',' :: ' ' :: cs) [.punct .comma] cs :=
  (scans_mark (p := .comma) (r := ' ' :: cs) (by simp)).append (scans_space (c := ' ') rfl)

theorem endsWord_flatMap_comma {β : Type} (text : β → List Char) {cs : List Char}
    (hcs : EndsWord cs) (xs : List β) :
    EndsWord (xs.flatMap (fun y => ',' :: ' ' :: text y) ++ cs) := by
  cases xs with
  | nil => exact hcs
  | cons => exact endsWord_cons rfl _

/-- Things with commas between them, none of which runs into a comma. -/
theorem Scans.intercalate {β : Type} {x : β} {xs : List β} (text : β → String)
    (tokens : β → List Token) {cs : List Char} (hcs : EndsWord cs)
    (h : ∀ y ∈ x :: xs, ∀ cs, EndsWord cs → Scans ((text y).toList ++ cs) (tokens y) cs) :
    Scans ((", ".intercalate ((x :: xs).map text)).toList ++ cs)
      (tokens x ++ xs.flatMap fun y => .punct .comma :: tokens y) cs := by
  rw [List.map_cons, intercalate_toList, List.flatMap_map, List.append_assoc]
  have hx := h x (by simp) _ (endsWord_flatMap_comma (fun y => (text y).toList) hcs xs)
  refine hx.append ?_
  clear hx
  induction xs with
  | nil => exact .done cs
  | cons y xs ih =>
    have hy := h y (by simp) _ (endsWord_flatMap_comma (fun z => (text z).toList) hcs xs)
    have hrest := ih fun z hz => h z (by simp only [List.mem_cons] at hz ⊢; exact hz.imp_right .inr)
    rw [List.flatMap_cons, List.flatMap_cons, List.append_assoc]
    exact (scans_comma _).append (hy.append hrest)

section

variable {α β : Type} {bound : Nat} {close : Punct} {item : BoundedReader α bound}
  {ts rest mid : Tokens} {h : ts.length < bound} {P : α → Prop} {Q : List α → Prop} {l : Lexeme}

theorem reads_commaList_nil (hclose : peek ts = .punct close) :
    Reads (commaList bound close item ts h) (· = []) ts := by
  rw [commaList, if_pos hclose]
  exact reads_ok rfl

theorem reads_commaList_last (hfirst : peek ts ≠ .punct close) (hitem : Reads (item ts h) P rest)
    (hrest : peek rest ≠ .punct .comma) :
    Reads (commaList bound close item ts h) (fun as => ∃ a, P a ∧ as = [a]) rest := by
  rw [commaList, if_neg hfirst]
  refine hitem.bind fun a hs ha => ?_
  cases rest with
  | nil => exact reads_ok ⟨a, ha, rfl⟩
  | cons l rest =>
    have hl : l.token ≠ .punct .comma := hrest
    dsimp only
    rw [if_neg hl]
    exact reads_ok ⟨a, ha, rfl⟩

theorem reads_commaList_cons (hfirst : peek ts ≠ .punct close)
    (hitem : Reads (item ts h) P (l :: mid)) (hl : l.token = .punct .comma)
    (hmore : ∀ h, Reads (commaList bound close item mid h) Q rest) :
    Reads (commaList bound close item ts h) (fun as => ∃ a more, P a ∧ Q more ∧ as = a :: more)
      rest := by
  rw [commaList, if_neg hfirst]
  refine hitem.bind fun a hs ha => ?_
  dsimp only
  rw [if_pos hl]
  refine (hmore _).bind fun more hs' hmore => ?_
  exact reads_ok ⟨a, more, ha, hmore, rfl⟩

variable {tokens : β → List Token} {R : β → α → Prop} {xs : List β}

/-- No thing begins with the closing mark. -/
def NotAtClose (bound : Nat) (close : Punct) (item : BoundedReader α bound) : Prop :=
  ∀ ts h rest, Reads (item ts h) (fun _ => True) rest → peek ts ≠ .punct close

theorem NotAtClose.peek (hc : NotAtClose bound close item) (hitem : Reads (item ts h) P rest) :
    peek ts ≠ .punct close :=
  hc ts h rest (hitem.imp fun _ _ => trivial)

/-- A list in which a comma stands after each thing. -/
theorem reads_commaList_trailing (hfirst : NotAtClose bound close item)
    (hitem : ∀ x ∈ xs, ∀ ts rest h, Begins (tokens x) ts rest → peek rest = .punct .comma →
      Reads (item ts h) (R x) rest)
    (hts : Begins (xs.flatMap fun x => tokens x ++ [.punct .comma]) ts rest)
    (hrest : peek rest = .punct close) :
    Reads (commaList bound close item ts h) (List.Forall₂ R xs) rest := by
  induction xs generalizing ts with
  | nil =>
    obtain rfl := begins_nil.mp hts
    refine (reads_commaList_nil hrest).imp ?_
    rintro _ rfl
    exact .nil
  | cons x xs ih =>
    rw [List.flatMap_cons] at hts
    obtain ⟨mid, hx, hmore⟩ := begins_append.mp hts
    obtain ⟨k, hx, hcomma⟩ := begins_append.mp hx
    obtain ⟨l, rfl, hl⟩ := begins_singleton.mp hcomma
    have hread := hitem x (by simp) ts (l :: mid) h hx hl
    have hmore' : ∀ h, Reads (commaList bound close item mid h) (List.Forall₂ R xs) rest :=
      fun h => ih (fun y hy => hitem y (List.mem_cons_of_mem _ hy)) hmore
    refine (reads_commaList_cons (hfirst.peek hread) hread hl hmore').imp ?_
    rintro _ ⟨a, more, ha, hmore, rfl⟩
    exact .cons ha hmore

/-- A list in which commas stand only between things. -/
theorem reads_commaList_between {x : β} (hfirst : NotAtClose bound close item)
    (hitem : ∀ y ∈ x :: xs, ∀ ts rest h, Begins (tokens y) ts rest →
      (peek rest = .punct .comma ∨ peek rest = .punct close) → Reads (item ts h) (R y) rest)
    (hts : Begins (tokens x ++ xs.flatMap fun y => .punct .comma :: tokens y) ts rest)
    (hrest : peek rest = .punct close) (hclose : close ≠ .comma) :
    Reads (commaList bound close item ts h) (List.Forall₂ R (x :: xs)) rest := by
  induction xs generalizing x ts with
  | nil =>
    rw [List.flatMap_nil, List.append_nil] at hts
    have hread := hitem x (by simp) ts rest h hts (.inr hrest)
    have hcomma : peek rest ≠ .punct .comma := by simpa [hrest] using hclose
    refine (reads_commaList_last (hfirst.peek hread) hread hcomma).imp ?_
    rintro _ ⟨a, ha, rfl⟩
    exact .cons ha .nil
  | cons y xs ih =>
    obtain ⟨mid, hx, hmore⟩ := begins_append.mp hts
    rw [List.flatMap_cons, List.cons_append] at hmore
    obtain ⟨l, mid, rfl, hl, hmore⟩ := begins_cons.mp hmore
    have hread := hitem x (by simp) ts (l :: mid) h hx (.inl hl)
    have hmore' : ∀ h, Reads (commaList bound close item mid h) (List.Forall₂ R (y :: xs)) rest :=
      fun h => ih (fun z hz => hitem z (List.mem_cons_of_mem _ hz)) hmore
    refine (reads_commaList_cons (hfirst.peek hread) hread hl hmore').imp ?_
    rintro _ ⟨a, more, ha, hmore, rfl⟩
    exact .cons ha hmore

end

end EndpointCompiler.Source
