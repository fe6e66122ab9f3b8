import Mathlib.Data.List.Forall2

/-!
# Outcomes of several steps

How a result that may be an error is taken apart: a sequence of two steps, an image, and the
results for the members of a list.  Two results are alike if both are errors or their values are
related.  A relation between values that holds to the extent that a statement does, such as being
equal if and only if it is true, carries over to lists with the conjunction of the statements.

    x >>= f = .ok b ↔ ∃ a, x = .ok a ∧ f a = .ok b                                 (bind_eq_ok)
    x.map f = .ok b ↔ ∃ a, x = .ok a ∧ f a = b                                      (map_eq_ok)
    (a :: l).mapM f = .ok cs ↔ ∃ b bs, f a = .ok b ∧ l.mapM f = .ok bs ∧ cs = b :: bs
                                                                              (mapM_cons_eq_ok)
    l.mapM f = .ok xs → m.mapM f = .ok ys → xs.map view = ys.map view
      if l and m are alike member by member                                    (map_eq_of_mapM)
    Alike R x y → (R a b → Alike S (f a) (g b)) → Alike S (x >>= f) (y >>= g)    (Alike.bind)
    Alike (Along R (∀ a ∈ l, E a)) (l.mapM f) (m.mapM g)                         (alike_mapM)
-/

namespace IndexQuery.Outcome

variable {ε α β : Type}

theorem bind_eq_ok {x : Except ε α} {f : α → Except ε β} {b : β} :
    x >>= f = .ok b ↔ ∃ a, x = .ok a ∧ f a = .ok b := by
  cases x with
  | error e => simp [bind, Except.bind]
  | ok a => simp [bind, Except.bind]

theorem bind_eq_error {x : Except ε α} {f : α → Except ε β} {e : ε} :
    x >>= f = .error e ↔ x = .error e ∨ ∃ a, x = .ok a ∧ f a = .error e := by
  cases x with
  | error d => simp [bind, Except.bind]
  | ok a => simp [bind, Except.bind]

theorem map_eq_ok {x : Except ε α} {f : α → β} {b : β} :
    x.map f = .ok b ↔ ∃ a, x = .ok a ∧ f a = b := by
  cases x with
  | error e => simp [Except.map]
  | ok a => simp [Except.map]

theorem map_eq_error {x : Except ε α} {f : α → β} {e : ε} : x.map f = .error e ↔ x = .error e := by
  cases x with
  | error d => simp [Except.map]
  | ok a => simp [Except.map]

theorem mapError_eq_ok {δ : Type} {x : Except ε α} {f : ε → δ} {a : α} :
    x.mapError f = .ok a ↔ x = .ok a := by
  cases x with
  | error e => simp [Except.mapError]
  | ok b => simp [Except.mapError]

theorem mapError_eq_error {δ : Type} {x : Except ε α} {f : ε → δ} {d : δ} :
    x.mapError f = .error d ↔ ∃ e, x = .error e ∧ f e = d := by
  cases x with
  | error e => simp [Except.mapError]
  | ok a => simp [Except.mapError]

theorem mapM_cons_eq_ok {f : α → Except ε β} {a : α} {l : List α} {cs : List β} :
    (a :: l).mapM f = .ok cs ↔
      ∃ b bs, f a = .ok b ∧ l.mapM f = .ok bs ∧ cs = b :: bs := by
  rw [List.mapM_cons]
  cases f a with
  | error e => simp [bind, Except.bind]
  | ok b =>
    cases l.mapM f with
    | error e => simp [bind, Except.bind]
    | ok bs => simp [bind, Except.bind, pure, Except.pure, eq_comm]

theorem exists_of_mem_mapM {f : α → Except ε β} {l : List α} {bs : List β}
    (h : l.mapM f = .ok bs) {b : β} (hb : b ∈ bs) : ∃ a ∈ l, f a = .ok b := by
  induction l generalizing bs with
  | nil =>
    cases h
    cases hb
  | cons a l ih =>
    obtain ⟨c, cs, hc, hcs, rfl⟩ := mapM_cons_eq_ok.mp h
    rcases List.mem_cons.mp hb with rfl | hb
    · exact ⟨a, List.mem_cons_self, hc⟩
    · obtain ⟨d, hd, hfd⟩ := ih hcs hb
      exact ⟨d, List.mem_cons_of_mem a hd, hfd⟩

/-- A list has results if every member has one. -/
theorem exists_mapM_eq_ok_iff {f : α → Except ε β} {l : List α} :
    (∃ bs, l.mapM f = .ok bs) ↔ ∀ a ∈ l, ∃ b, f a = .ok b := by
  induction l with
  | nil => exact ⟨fun _ _ ha => (List.not_mem_nil ha).elim, fun _ => ⟨[], rfl⟩⟩
  | cons a l ih =>
    constructor
    · rintro ⟨bs, h⟩
      obtain ⟨b, cs, hb, hcs, -⟩ := mapM_cons_eq_ok.mp h
      exact List.forall_mem_cons.mpr ⟨⟨b, hb⟩, ih.mp ⟨cs, hcs⟩⟩
    · intro h
      obtain ⟨⟨b, hb⟩, hl⟩ := List.forall_mem_cons.mp h
      obtain ⟨bs, hbs⟩ := ih.mpr hl
      exact ⟨b :: bs, mapM_cons_eq_ok.mpr ⟨b, bs, hb, hbs, rfl⟩⟩

/-- The error for a list is that of the first member with an error. -/
theorem mapM_eq_error_iff {f : α → Except ε β} {l : List α} {e : ε} :
    l.mapM f = .error e ↔
      ∃ pre a post, l = pre ++ a :: post ∧ (∀ b ∈ pre, ∃ c, f b = .ok c) ∧ f a = .error e := by
  induction l with
  | nil => exact ⟨nofun, fun ⟨pre, _, _, h, _⟩ => by cases pre <;> cases h⟩
  | cons a l ih =>
    rw [List.mapM_cons]
    cases ha : f a with
    | error d =>
      constructor
      · intro h
        cases h
        exact ⟨[], a, l, rfl, fun _ hb => (List.not_mem_nil hb).elim, ha⟩
      · rintro ⟨pre, b, post, hl, hpre, hb⟩
        cases pre with
        | nil =>
          cases hl
          cases ha.symm.trans hb
          rfl
        | cons c pre =>
          cases hl
          obtain ⟨_, hc⟩ := hpre a List.mem_cons_self
          rw [ha] at hc
          cases hc
    | ok c =>
      have htail : (do
          let bs ← l.mapM f
          return c :: bs : Except ε (List β)) = .error e ↔ l.mapM f = .error e := by
        cases l.mapM f with
        | error d => exact Iff.rfl
        | ok bs => exact ⟨nofun, nofun⟩
      refine htail.trans (ih.trans ⟨?_, ?_⟩)
      · rintro ⟨pre, b, post, rfl, hpre, hb⟩
        exact ⟨a :: pre, b, post, rfl, List.forall_mem_cons.mpr ⟨⟨c, ha⟩, hpre⟩, hb⟩
      · rintro ⟨pre, b, post, hl, hpre, hb⟩
        cases pre with
        | nil =>
          cases hl
          rw [ha] at hb
          cases hb
        | cons d pre =>
          cases hl
          exact ⟨pre, b, post, rfl, (List.forall_mem_cons.mp hpre).2, hb⟩

/-- Two lists with the same image are alike member by member. -/
theorem forall₂_of_map_eq {f : α → β} {as bs : List α} (h : as.map f = bs.map f) :
    List.Forall₂ (fun a b => f a = f b) as bs := by
  have hforall := List.forall₂_eq_eq_eq ▸ h
  rwa [List.forall₂_map_left_iff, List.forall₂_map_right_iff] at hforall

/-- What is taken from the results for two lists is the same if it is the same member by member. -/
theorem map_eq_of_mapM {γ : Type} {f : α → Except ε β} {view : β → γ} {alike : α → α → Prop}
    {l m : List α} (hlm : List.Forall₂ alike l m) {xs ys : List β} (hxs : l.mapM f = .ok xs)
    (hys : m.mapM f = .ok ys)
    (h : ∀ a ∈ l, ∀ {b x y}, alike a b → f a = .ok x → f b = .ok y → view x = view y) :
    xs.map view = ys.map view := by
  induction hlm generalizing xs ys with
  | nil =>
    cases hxs
    cases hys
    rfl
  | @cons a b l m hab _ ih =>
    obtain ⟨x, xs, hx, hl, rfl⟩ := mapM_cons_eq_ok.mp hxs
    obtain ⟨y, ys, hy, hm, rfl⟩ := mapM_cons_eq_ok.mp hys
    rw [List.map_cons, List.map_cons, h a List.mem_cons_self hab hx hy,
      ih hl hm fun c hc => h c (List.mem_cons_of_mem a hc)]

theorem length_of_mapM {f : α → Except ε β} {l : List α} {bs : List β}
    (h : l.mapM f = .ok bs) : bs.length = l.length := by
  induction l generalizing bs with
  | nil =>
    cases h
    rfl
  | cons a l ih =>
    obtain ⟨c, cs, -, hcs, rfl⟩ := mapM_cons_eq_ok.mp h
    rw [List.length_cons, List.length_cons, ih hcs]

/-! ## Outcomes that are alike -/

/-- Both outcomes are errors, or both have values, which are related. -/
inductive Alike {δ : Type} (R : α → β → Prop) : Except ε α → Except δ β → Prop where
  | error (e : ε) (d : δ) : Alike R (.error e) (.error d)
  | ok {a : α} {b : β} (h : R a b) : Alike R (.ok a) (.ok b)

/-- Members of two lists are related one by one, each to the extent of a statement, and the lists to
the extent of all these statements. -/
inductive Along (R : Prop → α → β → Prop) : Prop → List α → List β → Prop where
  | nil : Along R True [] []
  | cons {E F : Prop} {a : α} {b : β} {as : List α} {bs : List β} (h : R E a b)
    (hs : Along R F as bs) : Along R (E ∧ F) (a :: as) (b :: bs)

namespace Alike

variable {δ γ η : Type} {R : α → β → Prop} {S : γ → η → Prop}
  {x : Except ε α} {y : Except δ β}

theorem refl (x : Except ε α) : Alike (δ := ε) Eq x x := by
  cases x with
  | error e => exact .error e e
  | ok a => exact .ok rfl

/-- The two ways in which outcomes are alike. -/
theorem elim (h : Alike R x y) :
    (∃ e d, x = .error e ∧ y = .error d) ∨ ∃ a b, x = .ok a ∧ y = .ok b ∧ R a b := by
  cases h with
  | error e d => exact .inl ⟨e, d, rfl, rfl⟩
  | ok h => exact .inr ⟨_, _, rfl, rfl, h⟩

theorem imp {R' : α → β → Prop} (h : Alike R x y) (hR : ∀ {a b}, R a b → R' a b) :
    Alike R' x y := by
  cases h with
  | error e d => exact .error e d
  | ok h => exact .ok (hR h)

theorem bind (h : Alike R x y) {f : α → Except ε γ} {g : β → Except δ η}
    (hf : ∀ {a b}, R a b → Alike S (f a) (g b)) : Alike S (x >>= f) (y >>= g) := by
  cases h with
  | error e d => exact .error e d
  | ok h => exact hf h

theorem map (h : Alike R x y) {f : α → γ} {g : β → η} (hf : ∀ {a b}, R a b → S (f a) (g b)) :
    Alike S (x.map f) (y.map g) := by
  cases h with
  | error e d => exact .error e d
  | ok h => exact .ok (hf h)

end Alike

namespace Along

variable {R : Prop → α → β → Prop} {E F : Prop} {as cs : List α} {bs ds : List β}

theorem of_iff (h : Along R E as bs) (hEF : E ↔ F) : Along R F as bs := propext hEF ▸ h

theorem single {a : α} {b : β} (h : R E a b) : Along R E [a] [b] :=
  (cons h nil).of_iff (iff_of_eq (and_true E))

theorem append (h : Along R E as bs) (hs : Along R F cs ds) :
    Along R (E ∧ F) (as ++ cs) (bs ++ ds) := by
  induction h with
  | nil => exact hs.of_iff (iff_of_eq (true_and F)).symm
  | cons h _ ih => exact (cons h ih).of_iff and_assoc.symm

theorem flatten {ass : List (List α)} {bss : List (List β)} (h : Along (Along R) E ass bss) :
    Along R E ass.flatten bss.flatten := by
  induction h with
  | nil => exact .nil
  | cons h _ ih => exact h.append ih

theorem map {γ η : Type} {S : Prop → γ → η → Prop} {f : α → γ} {g : β → η}
    (h : Along R E as bs) (hf : ∀ {E a b}, R E a b → S E (f a) (g b)) :
    Along S E (as.map f) (bs.map g) := by
  induction h with
  | nil => exact .nil
  | cons h _ ih => exact .cons (hf h) ih

/-- Lists that members of related lists give, one after another. -/
theorem flatMap {γ η : Type} {S : γ → η → Prop} {E : γ → Prop} {f : γ → List α} {g : η → List β}
    {l : List γ} {m : List η} (hlm : List.Forall₂ S l m)
    (h : ∀ {c d}, S c d → Along R (E c) (f c) (g d)) :
    Along R (∀ c ∈ l, E c) (l.flatMap f) (m.flatMap g) := by
  induction hlm with
  | nil => exact nil.of_iff (by simp)
  | cons hcd _ ih => exact ((h hcd).append ih).of_iff List.forall_mem_cons.symm

theorem eq {as bs : List α} (h : Along (fun _ => Eq) E as bs) : as = bs := by
  induction h with
  | nil => rfl
  | cons h _ ih => rw [h, ih]

end Along

/-- Steps that are alike for the members of two lists are alike for the lists. -/
theorem alike_mapM {δ γ η : Type} {R : Prop → γ → η → Prop} {E : α → Prop}
    {S : α → β → Prop} {f : α → Except ε γ} {g : β → Except δ η} {l : List α} {m : List β}
    (hlm : List.Forall₂ S l m) (h : ∀ a ∈ l, ∀ {b}, S a b → Alike (R (E a)) (f a) (g b)) :
    Alike (Along R (∀ a ∈ l, E a)) (l.mapM f) (m.mapM g) := by
  induction hlm with
  | nil => exact .ok (Along.nil.of_iff (by simp))
  | @cons a b l m hab _ ih =>
    rw [List.mapM_cons, List.mapM_cons]
    refine (h a List.mem_cons_self hab).bind fun hvalue => ?_
    refine (ih fun c hc => h c (List.mem_cons_of_mem a hc)).bind fun hvalues => ?_
    exact .ok ((Along.cons hvalue hvalues).of_iff List.forall_mem_cons.symm)

/-- Steps with the same results up to errors have them for lists as well. -/
theorem alike_mapM_eq {δ γ : Type} {S : α → β → Prop} {f : α → Except ε γ} {g : β → Except δ γ}
    {l : List α} {m : List β} (hlm : List.Forall₂ S l m)
    (h : ∀ {a b}, S a b → Alike Eq (f a) (g b)) : Alike Eq (l.mapM f) (m.mapM g) := by
  have hsteps : Alike (Along (fun _ => Eq) (∀ a ∈ l, True)) (l.mapM f) (m.mapM g) :=
    alike_mapM hlm fun _ _ {_} hab => h hab
  exact hsteps.imp Along.eq

end IndexQuery.Outcome
