/-
Answers that came out well.

Every operation of the library answers with a value or a cause.  These
equivalences take an answer of several steps apart into the answers of its
steps; each edit is inverted with them once and not unfolded again.  `Alike`
compares two answers, in two registries say, where only causes may differ.
-/
import WorkingTime.Registry.Basic
import Mathlib.Data.List.Forall2

namespace WorkingTime.Answer

variable {ε ε' α β : Type}

@[simp] theorem bind_eq_ok_iff {x : Except ε α} {f : α → Except ε β} {b : β} :
    (x >>= f) = .ok b ↔ ∃ a, x = .ok a ∧ f a = .ok b := by
  cases x with
  | error e => simp [bind, Except.bind]
  | ok a => simp [bind, Except.bind]

@[simp] theorem map_eq_ok_iff {x : Except ε α} {f : α → β} {b : β} :
    f <$> x = .ok b ↔ ∃ a, x = .ok a ∧ f a = b := by
  cases x with
  | error e => simp [Functor.map, Except.map]
  | ok a => simp [Functor.map, Except.map]

@[simp] theorem pure_eq_ok_iff {a b : α} : (pure a : Except ε α) = .ok b ↔ a = b := by
  simp [pure, Except.pure]

@[simp] theorem throw_ne_ok {e : ε} {a : α} : (throw e : Except ε α) = .ok a ↔ False := by
  simp [throw, throwThe, MonadExceptOf.throw]

@[simp] theorem mapError_eq_ok_iff {x : Except ε α} {f : ε → ε'} {a : α} :
    x.mapError f = .ok a ↔ x = .ok a := by
  cases x <;> simp [Except.mapError]

@[simp] theorem asRule_eq_ok_iff {x : Except RuleError α} {a : α} :
    asRule x = .ok a ↔ x = .ok a :=
  mapError_eq_ok_iff

@[simp] theorem discard_eq_ok_iff {x : Except ε α} {u : PUnit.{1}} :
    discard x = .ok u ↔ ∃ a, x = .ok a := by
  cases x <;> simp [discard, Functor.mapConst, Functor.discard, Except.map]

theorem ok_bind {a : α} {f : α → Except ε β} : (.ok a >>= f) = f a := rfl

theorem discard_bind {x : Except ε α} {f : PUnit.{1} → Except ε β} :
    (discard x >>= f) = (x >>= fun _ => f ()) := by
  cases x <;> rfl

theorem exists_eq_ok_iff {x : Except ε α} : (∃ a, x = .ok a) ↔ ∀ e, x ≠ .error e := by
  cases x <;> simp

theorem toOption_eq_some_iff {x : Except ε α} {a : α} : x.toOption = some a ↔ x = .ok a := by
  cases x <;> simp [Except.toOption]

theorem exists_ok_of_any {x : Except ε α} {p : α → Bool} (h : x.toOption.any p = true) :
    ∃ a, x = .ok a ∧ p a = true := by
  cases x with
  | error e => cases h
  | ok a => exact ⟨a, rfl, h⟩

/-! ## Steps for each item of a list -/

theorem forM_eq_ok_iff {f : α → Except ε PUnit.{1}} {l : List α} :
    l.forM f = .ok () ↔ ∀ a ∈ l, f a = .ok () := by
  induction l with
  | nil => simp [List.forM]
  | cons a l ih =>
      rw [List.forM, bind_eq_ok_iff, List.forall_mem_cons, ← ih]
      constructor
      · rintro ⟨_, ha, hl⟩
        exact ⟨ha, hl⟩
      · rintro ⟨ha, hl⟩
        exact ⟨(), ha, hl⟩

theorem mapM_eq_ok_iff {f : α → Except ε β} {l : List α} {bs : List β} :
    l.mapM f = .ok bs ↔ List.Forall₂ (fun a b => f a = .ok b) l bs := by
  induction l generalizing bs with
  | nil => rw [List.mapM_nil, pure_eq_ok_iff, List.forall₂_nil_left_iff, eq_comm]
  | cons a l ih =>
      rw [List.mapM_cons]
      simp only [bind_eq_ok_iff, ih, pure_eq_ok_iff]
      constructor
      · rintro ⟨b, hb, bs', hbs, rfl⟩
        exact .cons hb hbs
      · rintro (_ | ⟨hb, hbs⟩)
        exact ⟨_, hb, _, hbs, rfl⟩

theorem foldlM_invariant {f : β → α → Except ε β} {P : β → Prop} {l : List α} {b b' : β}
    (hstep : ∀ a ∈ l, ∀ b b', P b → f b a = .ok b' → P b') (h : l.foldlM f b = .ok b')
    (hb : P b) : P b' := by
  induction l generalizing b with
  | nil =>
      cases h
      exact hb
  | cons a l ih =>
      rw [List.foldlM_cons, bind_eq_ok_iff] at h
      obtain ⟨b₁, hb₁, h⟩ := h
      have hb₁ : P b₁ := hstep a List.mem_cons_self b b₁ hb hb₁
      exact ih (fun x hx => hstep x (List.mem_cons_of_mem _ hx)) h hb₁

/-- A fold of which every step comes out well is a plain fold.  What makes the
steps come out well may speak of the items to come. -/
theorem foldlM_eq_ok {f : β → α → Except ε β} {g : β → α → β} {P : β → List α → Prop}
    (hstep : ∀ b a l, P b (a :: l) → f b a = .ok (g b a) ∧ P (g b a) l) {l : List α} {b : β}
    (hb : P b l) : l.foldlM f b = .ok (l.foldl g b) := by
  induction l generalizing b with
  | nil => rfl
  | cons a l ih =>
      obtain ⟨hf, hg⟩ := hstep b a l hb
      rw [List.foldlM_cons, hf]
      exact ih hg

theorem exists_of_foldlM_eq_error {f : β → α → Except ε β} {l : List α} {b : β} {e : ε}
    (h : l.foldlM f b = .error e) : ∃ before a after b', l = before ++ a :: after ∧
      before.foldlM f b = .ok b' ∧ f b' a = .error e := by
  induction l generalizing b with
  | nil => cases h
  | cons a l ih =>
      rw [List.foldlM_cons] at h
      cases hfirst : f b a with
      | error e' =>
          rw [hfirst] at h
          obtain rfl : e' = e := Except.error.inj h
          exact ⟨[], a, l, b, rfl, rfl, hfirst⟩
      | ok b₁ =>
          rw [hfirst] at h
          obtain ⟨before, x, after, b', rfl, hbefore, hx⟩ := ih h
          refine ⟨a :: before, x, after, b', rfl, ?_, hx⟩
          rw [List.foldlM_cons, hfirst]
          exact hbefore

/-! ## Guards -/

@[simp] theorem throw_bind {e : ε} {f : α → Except ε β} : (throw e >>= f) = throw e := rfl

@[simp] theorem refuse_eq_ok_iff {c : Prop} [Decidable c] {e : ε} {x : Except ε α} {a : α} :
    (if c then throw e else x) = .ok a ↔ ¬ c ∧ x = .ok a := by
  split <;> simp [*]

@[simp] theorem require_eq_ok_iff {c : Prop} [Decidable c] {e : ε} {x : Except ε α} {a : α} :
    (if c then x else throw e) = .ok a ↔ c ∧ x = .ok a := by
  split <;> simp [*]

/-! ## Two answers -/

/-- Both answers are causes, or both are values and these are related. -/
inductive Alike (R : α → β → Prop) : Except ε α → Except ε' β → Prop
  | ok {a : α} {b : β} : R a b → Alike R (.ok a) (.ok b)
  | error {e : ε} {e' : ε'} : Alike R (.error e) (.error e')

section Alike

variable {α' β' : Type} {R : α → β → Prop} {S : α' → β' → Prop} {x : Except ε α} {y : Except ε' β}

theorem Alike.of_ok {a : α} (h : Alike R (.ok a : Except ε α) y) : ∃ b, y = .ok b ∧ R a b := by
  cases h with
  | ok hab => exact ⟨_, rfl, hab⟩

theorem Alike.of_error {e : ε} (h : Alike R (.error e : Except ε α) y) : ∃ e', y = .error e' := by
  cases h with
  | error => exact ⟨_, rfl⟩

theorem Alike.bind {f : α → Except ε α'} {g : β → Except ε' β'} (h : Alike R x y)
    (hfg : ∀ a b, x = .ok a → y = .ok b → R a b → Alike S (f a) (g b)) :
    Alike S (x >>= f) (y >>= g) := by
  cases h with
  | ok hab => exact hfg _ _ rfl rfl hab
  | error => exact .error

theorem Alike.map {f : α → α'} {g : β → β'} (h : Alike R x y)
    (hfg : ∀ a b, R a b → S (f a) (g b)) : Alike S (f <$> x) (g <$> y) := by
  cases h with
  | ok hab => exact .ok (hfg _ _ hab)
  | error => exact .error

theorem Alike.of_map {f : α → α'} {g : β → β'} (h : Alike S (f <$> x) (g <$> y)) :
    Alike (fun a b => S (f a) (g b)) x y := by
  cases x <;> cases y <;> cases h
  · exact .error
  · exact .ok ‹_›

theorem Alike.mono {R' : α → β → Prop} (h : Alike R x y)
    (hR : ∀ a b, x = .ok a → y = .ok b → R a b → R' a b) : Alike R' x y := by
  cases h with
  | ok hab => exact .ok (hR _ _ rfl rfl hab)
  | error => exact .error

theorem alike_of_ok_iff {x : Except ε (α × α')} {y : Except ε' (α × β')}
    (h : ∀ a, (∃ b, x = .ok (a, b)) ↔ ∃ b, y = .ok (a, b)) :
    Alike (fun p q => q.1 = p.1) x y := by
  cases x with
  | ok p =>
      obtain ⟨b, rfl⟩ := (h p.1).mp ⟨p.2, rfl⟩
      exact .ok rfl
  | error e =>
      cases y with
      | ok q =>
          obtain ⟨b, hb⟩ := (h q.1).mpr ⟨q.2, rfl⟩
          cases hb
      | error e' => exact .error

theorem alike_refuse {c c' : Prop} [Decidable c] [Decidable c'] {e : ε} {e' : ε'} (hc : c ↔ c')
    (h : Alike R x y) : Alike R (if c then throw e else x) (if c' then throw e' else y) := by
  simp only [hc]
  split
  · exact .error
  · exact h

end Alike

end WorkingTime.Answer
