import Mathlib.Data.List.Forall2
import Mathlib.Data.List.Nodup
import Mathlib.Data.List.Perm.Basic

/-! Lists of one length whose elements match one by one, and lists without repetition. -/

namespace EndpointCompiler

section

variable {α β γ : Type} {r : α → β → Prop} {as : List α} {bs : List β}

theorem exists_right_of_forall₂ (h : List.Forall₂ r as bs) {a : α} (ha : a ∈ as) :
    ∃ b ∈ bs, r a b := by
  induction h with
  | nil => cases ha
  | cons hab _ ih =>
    rcases List.mem_cons.mp ha with rfl | ha
    · exact ⟨_, List.mem_cons_self, hab⟩
    · obtain ⟨b, hb, hr⟩ := ih ha
      exact ⟨b, List.mem_cons_of_mem _ hb, hr⟩

theorem exists_left_of_forall₂ (h : List.Forall₂ r as bs) {b : β} (hb : b ∈ bs) :
    ∃ a ∈ as, r a b :=
  exists_right_of_forall₂ h.flip hb

theorem getElem?_of_forall₂ (h : List.Forall₂ r as bs) {i : Nat} {a : α} (ha : as[i]? = some a) :
    ∃ b, bs[i]? = some b ∧ r a b := by
  induction h generalizing i with
  | nil => cases ha
  | cons hab _ ih =>
    cases i with
    | zero =>
      cases ha
      exact ⟨_, rfl, hab⟩
    | succ i => exact ih ha

theorem map_eq_map_of_forall₂ {f : α → γ} {g : β → γ} (hr : ∀ a b, r a b → g b = f a)
    (h : List.Forall₂ r as bs) : bs.map g = as.map f := by
  induction h with
  | nil => rfl
  | cons hab _ ih => rw [List.map_cons, List.map_cons, hr _ _ hab, ih]

theorem forall₂_comp {q : β → γ → Prop} {t : α → γ → Prop} {cs : List γ}
    (ht : ∀ a b c, r a b → q b c → t a c) (h : List.Forall₂ r as bs) (h' : List.Forall₂ q bs cs) :
    List.Forall₂ t as cs := by
  induction h generalizing cs with
  | nil =>
    obtain rfl := List.forall₂_nil_left_iff.mp h'
    exact .nil
  | cons hab _ ih =>
    obtain ⟨c, cs', hbc, hrest, rfl⟩ := List.forall₂_cons_left_iff.mp h'
    exact .cons (ht _ _ _ hab hbc) (ih hrest)

theorem forall₂_append_left {as' : List α} (h : List.Forall₂ r (as ++ as') bs) :
    ∃ cs cs', bs = cs ++ cs' ∧ List.Forall₂ r as cs ∧ List.Forall₂ r as' cs' :=
  ⟨_, _, (List.take_append_drop as.length bs).symm,
    (List.forall₂_take_append bs as as' h.flip).flip, (List.forall₂_drop_append bs as as' h.flip).flip⟩

/-- Elements that have something in common with those beside them make a third list. -/
theorem exists_forall₂ {P : α → γ → Prop} {Q : β → γ → Prop}
    (h : List.Forall₂ (fun a b => ∃ c, P a c ∧ Q b c) as bs) :
    ∃ cs, List.Forall₂ P as cs ∧ List.Forall₂ Q bs cs := by
  induction h with
  | nil => exact ⟨[], .nil, .nil⟩
  | cons hab _ ih =>
    obtain ⟨c, hp, hq⟩ := hab
    obtain ⟨cs, hps, hqs⟩ := ih
    exact ⟨c :: cs, .cons hp hps, .cons hq hqs⟩

theorem exists_forall₂_of_forall_mem (h : ∀ a ∈ as, ∃ b, r a b) : ∃ bs, List.Forall₂ r as bs := by
  obtain ⟨bs, hbs, -⟩ := exists_forall₂ (List.forall₂_same.mpr fun a ha =>
    (h a ha).imp fun _ hab => ⟨hab, hab⟩)
  exact ⟨bs, hbs⟩

/-- What stands beside different elements is a function of them. -/
theorem exists_fun_of_forall₂ [Nonempty γ] (h : List.Forall₂ r as bs) (hn : as.Nodup) (g : β → γ) :
    ∃ f : α → γ, List.Forall₂ (fun a b => r a b ∧ g b = f a) as bs := by
  classical
  induction h with
  | nil => exact ⟨fun _ => Classical.ofNonempty, .nil⟩
  | @cons a b as bs hab _ ih =>
    rw [List.nodup_cons] at hn
    obtain ⟨f, hf⟩ := ih hn.2
    have hmem : ∀ a' ∈ as, a' ≠ a := fun a' ha' he => hn.1 (he ▸ ha')
    refine ⟨Function.update f a (g b), .cons ⟨hab, (Function.update_self a _ f).symm⟩ ?_⟩
    refine List.Forall₂.imp ?_ ((List.forall₂_and_left _ _).mpr ⟨hmem, hf⟩)
    rintro a' b' ⟨hne, hr, hg⟩
    exact ⟨hr, hg.trans (Function.update_of_ne hne _ f).symm⟩

/-- What stands beside an element of a third list matches what stands beside it in another. -/
theorem exists_mem_zip_of_forall₂ (h : List.Forall₂ r as bs) {cs : List γ} {c : γ} {a : α}
    (hc : (c, a) ∈ cs.zip as) : ∃ b, (c, b) ∈ cs.zip bs ∧ r a b := by
  induction h generalizing cs with
  | nil => simp at hc
  | cons hab _ ih =>
    cases cs with
    | nil => cases hc
    | cons d cs =>
      rcases List.mem_cons.mp hc with he | hc
      · cases he
        exact ⟨_, List.mem_cons_self, hab⟩
      · obtain ⟨b, hb, hr⟩ := ih hc
        exact ⟨b, List.mem_cons_of_mem _ hb, hr⟩

end

/-- What stands beside elements is rearranged with them, if no more of an element counts for it than
the function gives. -/
theorem exists_perm_of_forall₂ {α β γ : Type} {r : α → β → Prop} {f : α → γ} {as as' : List α}
    {bs : List β} (hr : ∀ a a' b, f a' = f a → r a b → r a' b) (h : List.Forall₂ r as bs)
    (hp : (as'.map f).Perm (as.map f)) : ∃ bs', bs'.Perm bs ∧ List.Forall₂ r as' bs' := by
  have hmapped : List.Forall₂ (fun c b => ∃ a, f a = c ∧ r a b) (as.map f) bs :=
    List.forall₂_map_left_iff.mpr (h.imp fun a _ hab => ⟨a, rfl, hab⟩)
  obtain ⟨bs', hbs', hperm⟩ := List.perm_comp_forall₂ hp hmapped
  refine ⟨bs', hperm, (List.forall₂_map_left_iff.mp hbs').imp ?_⟩
  rintro a' b ⟨a, hf, hab⟩
  exact hr a a' b hf.symm hab

theorem exists_eq_ok {α ε : Type} {x : Except ε α} (h : x.isOk = true) : ∃ a, x = .ok a := by
  cases x with
  | error e => cases h
  | ok a => exact ⟨a, rfl⟩

theorem bind_eq_ok_iff {α β ε : Type} {x : Except ε α} {f : α → Except ε β} {b : β} :
    (x >>= f) = .ok b ↔ ∃ a, x = .ok a ∧ f a = .ok b := by
  cases x <;> simp [bind, Except.bind]

theorem forall₂_of_mapM {α β ε : Type} {f : α → Except ε β} {as : List α} {bs : List β}
    (h : as.mapM f = .ok bs) : List.Forall₂ (fun a b => f a = .ok b) as bs := by
  induction as generalizing bs with
  | nil =>
    cases h
    exact .nil
  | cons a as ih =>
    rw [List.mapM_cons] at h
    obtain ⟨b, ha, hmore⟩ := bind_eq_ok_iff.mp h
    obtain ⟨bs', hrest, hbs⟩ := bind_eq_ok_iff.mp hmore
    cases hbs
    exact .cons ha (ih hrest)

/-- A list fails with the error of its first element that fails. -/
theorem mapM_eq_error_iff {α β ε : Type} {f : α → Except ε β} {as : List α} {e : ε} :
    as.mapM f = .error e ↔ ∃ before a after, as = before ++ a :: after ∧
      (∀ x ∈ before, ∃ y, f x = .ok y) ∧ f a = .error e := by
  constructor
  · intro h
    induction as with
    | nil => cases h
    | cons a as ih =>
      rw [List.mapM_cons] at h
      cases ha : f a with
      | error e' =>
        rw [ha] at h
        obtain rfl : e' = e := Except.error.inj h
        exact ⟨[], a, as, rfl, nofun, ha⟩
      | ok b =>
        cases hrest : as.mapM f with
        | error e' =>
          rw [ha, hrest] at h
          obtain rfl : e' = e := Except.error.inj h
          obtain ⟨before, c, after, rfl, hbefore, hc⟩ := ih hrest
          exact ⟨a :: before, c, after, rfl, List.forall_mem_cons.mpr ⟨⟨b, ha⟩, hbefore⟩, hc⟩
        | ok bs =>
          rw [ha, hrest] at h
          cases h
  · rintro ⟨before, a, after, rfl, hbefore, ha⟩
    induction before with
    | nil =>
      rw [List.nil_append, List.mapM_cons, ha]
      rfl
    | cons x before ih =>
      obtain ⟨⟨y, hy⟩, hrest⟩ := List.forall_mem_cons.mp hbefore
      rw [List.cons_append, List.mapM_cons, hy, ih hrest]
      rfl

theorem exists_mapM_iff {α β ε : Type} {f : α → Except ε β} {as : List α} :
    (∃ bs, as.mapM f = .ok bs) ↔ ∀ a ∈ as, ∃ b, f a = .ok b := by
  constructor
  · rintro ⟨bs, hbs⟩ a ha
    obtain ⟨b, -, hb⟩ := exists_right_of_forall₂ (forall₂_of_mapM hbs) ha
    exact ⟨b, hb⟩
  · intro h
    cases hbs : as.mapM f with
    | ok bs => exact ⟨bs, rfl⟩
    | error e =>
      obtain ⟨before, a, after, rfl, -, ha⟩ := mapM_eq_error_iff.mp hbs
      obtain ⟨b, hb⟩ := h a (List.mem_append_right before List.mem_cons_self)
      cases ha.symm.trans hb

section

variable {α β ε : Type} {f : α → Except ε (Option β)} {as : List α}

theorem filterMapM_eq (f : α → Except ε (Option β)) (as : List α) :
    as.filterMapM f = (as.mapM f).map (·.filterMap id) := by
  induction as with
  | nil => rfl
  | cons a as ih =>
    rw [List.filterMapM_cons, List.mapM_cons, ih]
    cases f a with
    | error e => rfl
    | ok o =>
      cases as.mapM f with
      | error e => cases o <;> rfl
      | ok os => cases o <;> rfl

theorem filterMapM_eq_error_iff {e : ε} : as.filterMapM f = .error e ↔
    ∃ before a after, as = before ++ a :: after ∧ (∀ x ∈ before, ∃ o, f x = .ok o) ∧
      f a = .error e := by
  rw [filterMapM_eq, ← mapM_eq_error_iff]
  cases as.mapM f <;> simp [Except.map]

theorem exists_filterMapM_iff :
    (∃ bs, as.filterMapM f = .ok bs) ↔ ∀ a ∈ as, ∃ o, f a = .ok o := by
  rw [filterMapM_eq, ← exists_mapM_iff]
  cases as.mapM f <;> simp [Except.map]

theorem mem_filterMapM_iff {bs : List β} (h : as.filterMapM f = .ok bs) {b : β} :
    b ∈ bs ↔ ∃ a ∈ as, f a = .ok (some b) := by
  rw [filterMapM_eq] at h
  cases hos : as.mapM f with
  | error e =>
    rw [hos] at h
    cases h
  | ok os =>
    rw [hos] at h
    obtain rfl := Except.ok.inj h
    have hall := forall₂_of_mapM hos
    rw [List.mem_filterMap]
    constructor
    · rintro ⟨o, ho, rfl⟩
      exact exists_left_of_forall₂ hall ho
    · rintro ⟨a, ha, hb⟩
      obtain ⟨o, ho, hf⟩ := exists_right_of_forall₂ hall ha
      exact ⟨o, ho, (Except.ok.inj (hb.symm.trans hf)).symm⟩

end

theorem mapM_eq_of_forall₂ {α β γ ε : Type} {f : α → Except ε γ} {g : β → Except ε γ} {as : List α}
    {bs : List β} (h : List.Forall₂ (fun a b => g b = f a) as bs) : bs.mapM g = as.mapM f := by
  induction h with
  | nil => rfl
  | cons hab _ ih => rw [List.mapM_cons, List.mapM_cons, hab, ih]

/-- Among elements with different names each is found by its own. -/
theorem find?_of_nodup_map {α : Type} {name : α → String} {as : List α} (hn : (as.map name).Nodup)
    {a : α} (ha : a ∈ as) : as.find? (name · == name a) = some a := by
  have hfound : (as.find? (name · == name a)).isSome = true :=
    List.find?_isSome.mpr ⟨a, ha, beq_self_eq_true _⟩
  obtain ⟨b, hb⟩ := Option.isSome_iff_exists.mp hfound
  have hname : name b = name a := by simpa using List.find?_some hb
  have hmem : b ∈ as := List.mem_of_find?_eq_some hb
  rw [hb, List.inj_on_of_nodup_map hn hmem ha hname]

theorem eraseDups_nodup {α : Type} [BEq α] [LawfulBEq α] (xs : List α) : xs.eraseDups.Nodup := by
  match xs with
  | [] => exact List.nodup_nil
  | x :: xs =>
    rw [List.eraseDups_cons, List.nodup_cons]
    refine ⟨fun hmem => ?_, eraseDups_nodup _⟩
    simpa using List.mem_eraseDups.mp hmem
termination_by xs.length
decreasing_by exact Nat.lt_succ_of_le (List.length_filter_le _ _)

end EndpointCompiler
