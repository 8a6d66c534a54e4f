import Mathlib.Tactic

/-!
# Reading back a fallible computation

Inversion of `Except` programs written with `do`, and the comparison of two programs of which the
first refuses more often than the second.
-/

namespace TradeEngine.Lib

variable {ε α β : Type}

@[simp] theorem bind_eq_ok {x : Except ε α} {f : α → Except ε β} {b : β} :
    (x >>= f) = .ok b ↔ ∃ a, x = .ok a ∧ f a = .ok b := by
  cases x with
  | error e => simp [bind, Except.bind]
  | ok a => simp [bind, Except.bind]

theorem ok_bind (a : α) (f : α → Except ε β) : (Except.ok a >>= f) = f a := rfl

@[simp] theorem pure_eq_ok {a b : α} : (pure a : Except ε α) = .ok b ↔ a = b := by
  simp [pure, Except.pure]

@[simp] theorem map_eq_ok {x : Except ε α} {f : α → β} {b : β} :
    (f <$> x) = .ok b ↔ ∃ a, x = .ok a ∧ f a = b := by
  cases x with
  | error e => simp [Functor.map, Except.map]
  | ok a => simp [Functor.map, Except.map]

@[simp] theorem throw_ne_ok {e : ε} {a : α} : (throw e : Except ε α) = .ok a ↔ False := by
  simp [throw, throwThe, MonadExceptOf.throw]

@[simp] theorem except_map_eq_ok {x : Except ε α} {f : α → β} {b : β} :
    x.map f = .ok b ↔ ∃ a, x = .ok a ∧ f a = b := by
  cases x with
  | error e => simp [Except.map]
  | ok a => simp [Except.map]

@[simp] theorem except_mapError_eq_ok {ε' : Type} {x : Except ε α} {f : ε → ε'} {b : α} :
    x.mapError f = .ok b ↔ x = .ok b := by
  cases x with
  | error e => simp [Except.mapError]
  | ok a => simp [Except.mapError]

theorem toOption_eq_some {x : Except ε α} {a : α} : x.toOption = some a ↔ x = .ok a := by
  cases x with
  | error e => simp [Except.toOption]
  | ok b => simp [Except.toOption]

theorem toOption_isNone {x : Except ε α} : x.toOption.isNone = true ↔ ∃ e, x = .error e := by
  cases x with
  | error e => simp [Except.toOption]
  | ok b => simp [Except.toOption]

theorem toOption_bind (x : Except ε α) (f : α → Except ε β) :
    (x >>= f).toOption = x.toOption.bind fun a => (f a).toOption := by
  cases x with
  | error e => rfl
  | ok a => rfl

theorem forM_ok {f : α → Except ε Unit} {l : List α} {u : Unit} (h : l.forM f = .ok u) :
    ∀ a ∈ l, f a = .ok () := by
  induction l with
  | nil => simp
  | cons a l ih =>
      change (f a >>= fun _ => l.forM f) = .ok u at h
      obtain ⟨_, ha, h⟩ := bind_eq_ok.mp h
      intro x hx
      rcases List.mem_cons.mp hx with rfl | hx
      · exact ha
      · exact ih h x hx

theorem mapM_ok {f : α → Except ε β} {l : List α} {r : List β} (h : l.mapM f = .ok r) :
    List.Forall₂ (fun a b => f a = .ok b) l r := by
  induction l generalizing r with
  | nil =>
      cases h
      exact .nil
  | cons a l ih =>
      simp only [List.mapM_cons, bind_eq_ok, pure_eq_ok] at h
      obtain ⟨b, hb, rest, hrest, rfl⟩ := h
      exact .cons hb (ih hrest)

theorem forall₂_left {R : α → β → Prop} {l : List α} {r : List β} (h : List.Forall₂ R l r) :
    ∀ a ∈ l, ∃ b ∈ r, R a b := by
  induction h with
  | nil => simp
  | cons hab _ ih =>
      intro x hx
      rcases List.mem_cons.mp hx with rfl | hx
      · exact ⟨_, List.mem_cons_self, hab⟩
      · obtain ⟨y, hy, hxy⟩ := ih x hx
        exact ⟨y, List.mem_cons_of_mem _ hy, hxy⟩

theorem forall₂_right {R : α → β → Prop} {l : List α} {r : List β} (h : List.Forall₂ R l r) :
    ∀ b ∈ r, ∃ a ∈ l, R a b := forall₂_left h.flip

theorem mapM_congr {f g : α → Except ε β} {l : List α} (h : ∀ a ∈ l, f a = g a) : l.mapM f = l.mapM g := by
  induction l with
  | nil => rfl
  | cons a l ih =>
    rw [List.mapM_cons, List.mapM_cons, h a List.mem_cons_self, ih fun b hb => h b (List.mem_cons_of_mem a hb)]

theorem mapM_ok_of {f : α → Except ε β} {l : List α} (h : ∀ a ∈ l, ∃ b, f a = .ok b) :
    ∃ r, l.mapM f = .ok r := by
  induction l with
  | nil => exact ⟨[], rfl⟩
  | cons a l ih =>
      obtain ⟨b, hb⟩ := h a List.mem_cons_self
      obtain ⟨r, hr⟩ := ih fun x hx => h x (List.mem_cons_of_mem _ hx)
      refine ⟨b :: r, ?_⟩
      simp only [List.mapM_cons, bind_eq_ok, pure_eq_ok]
      exact ⟨b, hb, r, hr, rfl⟩

theorem mapM_ok_iff {f : α → Except ε β} {l : List α} :
    (∃ r, l.mapM f = .ok r) ↔ ∀ a ∈ l, ∃ b, f a = .ok b := by
  refine ⟨fun ⟨r, hr⟩ a ha => ?_, mapM_ok_of⟩
  obtain ⟨b, -, hb⟩ := forall₂_left (mapM_ok hr) a ha
  exact ⟨b, hb⟩

/-- `x` gives a result only where `y` gives the same one. -/
def Refuses (x y : Except ε α) : Prop := ∀ a, x = .ok a → y = .ok a

theorem Refuses.refl {x : Except ε α} : Refuses x x := fun _ h => h

theorem Refuses.bind {x y : Except ε α} {f g : α → Except ε β} (h : Refuses x y)
    (hf : ∀ a, x = .ok a → Refuses (f a) (g a)) : Refuses (x >>= f) (y >>= g) := by
  intro b hb
  obtain ⟨a, ha, hb⟩ := bind_eq_ok.mp hb
  exact bind_eq_ok.mpr ⟨a, h a ha, hf a ha b hb⟩

theorem Refuses.mapError {ε' : Type} {x y : Except ε α} {f : ε → ε'} (h : Refuses x y) :
    Refuses (x.mapError f) (y.mapError f) := by
  intro b hb
  exact except_mapError_eq_ok.mpr (h b (except_mapError_eq_ok.mp hb))

theorem Refuses.ite {p : Prop} [Decidable p] {x y x' y' : Except ε α} (h : p → Refuses x y)
    (h' : ¬ p → Refuses x' y') : Refuses (if p then x else x') (if p then y else y') := by
  by_cases hp : p
  · simpa only [hp, if_true] using h hp
  · simpa only [hp, if_false] using h' hp

theorem Refuses.map {x y : Except ε α} {f : α → β} (h : Refuses x y) :
    Refuses (f <$> x) (f <$> y) := by
  intro b hb
  obtain ⟨a, ha, rfl⟩ := map_eq_ok.mp hb
  exact map_eq_ok.mpr ⟨a, h a ha, rfl⟩

theorem Refuses.foldlM {f g : β → α → Except ε β} (h : ∀ b a, Refuses (f b a) (g b a))
    (l : List α) (b : β) : Refuses (l.foldlM f b) (l.foldlM g b) := by
  induction l generalizing b with
  | nil => exact .refl
  | cons a l ih =>
      simp only [List.foldlM_cons]
      exact (h b a).bind fun b' _ => ih b'

theorem Refuses.mapM {f g : α → Except ε β} (h : ∀ a, Refuses (f a) (g a)) (l : List α) :
    Refuses (l.mapM f) (l.mapM g) := by
  induction l with
  | nil => exact .refl
  | cons a l ih =>
      simp only [List.mapM_cons]
      exact (h a).bind fun _ _ => ih.bind fun _ _ => .refl

/-- A fold of steps that each keep `P` keeps `P`. -/
theorem foldlM_invariant {P : β → Prop} {f : β → α → Except ε β} {l : List α}
    (hstep : ∀ b a b', a ∈ l → f b a = .ok b' → P b → P b') {b b' : β}
    (h : l.foldlM f b = .ok b') (hb : P b) : P b' := by
  induction l generalizing b with
  | nil => cases h; exact hb
  | cons a l ih =>
      simp only [List.foldlM_cons, bind_eq_ok] at h
      obtain ⟨c, hc, h⟩ := h
      have hc := hstep b a c List.mem_cons_self hc hb
      exact ih (fun x y z hy => hstep x y z (List.mem_cons_of_mem _ hy)) h hc

/-- A fold of steps that each succeed succeeds. -/
theorem foldlM_ok {f : β → α → Except ε β} {l : List α} (hstep : ∀ b, ∀ a ∈ l, ∃ b', f b a = .ok b') (b : β) :
    ∃ b', l.foldlM f b = .ok b' := by
  induction l generalizing b with
  | nil => exact ⟨b, rfl⟩
  | cons a l ih =>
      obtain ⟨c, hc⟩ := hstep b a List.mem_cons_self
      obtain ⟨b', hb'⟩ := ih (fun x y hy => hstep x y (List.mem_cons_of_mem _ hy)) c
      exact ⟨b', by rw [List.foldlM_cons, hc]; exact hb'⟩

end TradeEngine.Lib
