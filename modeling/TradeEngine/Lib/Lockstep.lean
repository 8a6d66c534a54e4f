import TradeEngine.Lib.Except
import TradeEngine.Lib.Program

/-!
# Two computations side by side

Where the first gives a result the second gives one too, and the two are related. Over a state, the
second does what the first does until the first refuses.
-/

namespace TradeEngine.Lib

variable {ε ε' σ α α' β β' γ γ' : Type}

/-- Where `x` gives a result, `y` gives a related one. -/
def Carries (R : α → α' → Prop) (x : Except ε α) (y : Except ε' α') : Prop :=
  ∀ a, x = .ok a → ∃ b, y = .ok b ∧ R a b

namespace Carries

variable {R : α → α' → Prop} {S : β → β' → Prop} {x : Except ε α} {y : Except ε' α'}

theorem ok {a : α} {b : α'} (h : R a b) : Carries R (.ok a : Except ε α) (.ok b : Except ε' α') := by
  rintro _ ⟨⟩
  exact ⟨b, rfl, h⟩

theorem error {e : ε} : Carries R (.error e) y := by
  rintro _ ⟨⟩

theorem bind {f : α → Except ε β} {g : α' → Except ε' β'} (h : Carries R x y)
    (hf : ∀ a b, R a b → Carries S (f a) (g b)) : Carries S (x >>= f) (y >>= g) := by
  intro r hr
  obtain ⟨a, ha, hr⟩ := bind_eq_ok.mp hr
  obtain ⟨b, hb, hab⟩ := h a ha
  obtain ⟨r', hr', hS⟩ := hf a b hab r hr
  exact ⟨r', bind_eq_ok.mpr ⟨b, hb, hr'⟩, hS⟩

theorem map {f : α → β} {g : α' → β'} (h : Carries R x y) (hf : ∀ a b, R a b → S (f a) (g b)) :
    Carries S (f <$> x) (g <$> y) := by
  intro r hr
  obtain ⟨a, ha, rfl⟩ := map_eq_ok.mp hr
  obtain ⟨b, hb, hab⟩ := h a ha
  exact ⟨g b, map_eq_ok.mpr ⟨b, hb, rfl⟩, hf a b hab⟩

theorem ite {p q : Prop} [Decidable p] [Decidable q] {x' : Except ε α} {y' : Except ε' α'} (hpq : p ↔ q)
    (ht : p → Carries R x y) (he : ¬ p → Carries R x' y') :
    Carries R (if p then x else x') (if q then y else y') := by
  by_cases hp : p
  · simpa only [if_pos hp, if_pos (hpq.mp hp)] using ht hp
  · simpa only [if_neg hp, if_neg (mt hpq.mpr hp)] using he hp

theorem foldlM {L : γ → γ' → Prop} {f : α → γ → Except ε α} {g : α' → γ' → Except ε' α'} {l : List γ}
    {l' : List γ'} (hl : List.Forall₂ L l l')
    (hf : ∀ a b, R a b → ∀ c d, L c d → Carries R (f a c) (g b d)) {a : α} {b : α'} (hab : R a b) :
    Carries R (l.foldlM f a) (l'.foldlM g b) := by
  induction hl generalizing a b with
  | nil => exact .ok hab
  | cons hcd _ ih => exact (hf a b hab _ _ hcd).bind fun a b hab => ih hab

theorem forM {L : γ → γ' → Prop} {f : γ → Except ε Unit} {g : γ' → Except ε' Unit} {l : List γ}
    {l' : List γ'} (hl : List.Forall₂ L l l') (hf : ∀ c d, L c d → Carries Eq (f c) (g d)) :
    Carries Eq (l.forM f) (l'.forM g) := by
  induction hl with
  | nil => exact .ok rfl
  | cons hcd _ ih => exact (hf _ _ hcd).bind fun _ _ _ => ih

end Carries

theorem find?_rel {L : γ → γ' → Prop} {p : γ → Bool} {q : γ' → Bool} {l : List γ} {l' : List γ'}
    (hl : List.Forall₂ L l l') (hpq : ∀ c d, L c d → p c = q d) : Option.Rel L (l.find? p) (l'.find? q) := by
  induction hl with
  | nil => exact .none
  | @cons c d _ _ hcd _ ih =>
      rw [List.find?_cons, List.find?_cons, hpq c d hcd]
      cases q d with
      | true => exact .some hcd
      | false => exact ih

theorem mapM_rel {L : γ → γ' → Prop} {M : β → β' → Prop} {f : γ → Option β} {g : γ' → Option β'} {l : List γ}
    {l' : List γ'} (hl : List.Forall₂ L l l') (hfg : ∀ c d, L c d → Option.Rel M (f c) (g d)) :
    Option.Rel (List.Forall₂ M) (l.mapM f) (l'.mapM g) := by
  induction hl with
  | nil => exact .some .nil
  | @cons c d l l' hcd _ ih =>
      rw [List.mapM_cons, List.mapM_cons]
      have hhead := hfg c d hcd
      generalize f c = b, g d = b' at hhead
      cases hhead with
      | none => exact .none
      | some hhead =>
          generalize l.mapM f = bs, l'.mapM g = bs' at ih
          cases ih with
          | none => exact .none
          | some ih => exact .some (.cons hhead ih)

namespace Prog

variable {refused : ε → Prop}

/-- `q` does what `p` does, unless `p` ends refused. -/
def Tracks (refused : ε → Prop) (p q : Prog ε σ α) : Prop :=
  ∀ s, (∃ e, refused e ∧ (p s).1 = .error e) ∨ p s = q s

namespace Tracks

variable {p q : Prog ε σ α}

theorem refl : Tracks refused p p := fun _ => .inr rfl

theorem bind {f g : α → Prog ε σ β} (h : Tracks refused p q) (hf : ∀ a, Tracks refused (f a) (g a)) :
    Tracks refused (p >>= f) (q >>= g) := by
  intro s
  change (∃ e, refused e ∧ (Prog.bind p f s).1 = .error e) ∨ Prog.bind p f s = Prog.bind q g s
  unfold Prog.bind
  rcases h s with ⟨e, he, hp⟩ | hp
  · left
    rcases hr : p s with ⟨e' | a, s'⟩
    · rw [hr] at hp
      cases hp
      exact ⟨e, he, rfl⟩
    · rw [hr] at hp
      cases hp
  · rw [← hp]
    rcases p s with ⟨e | a, s'⟩
    · exact .inr rfl
    · exact hf a s'

theorem lift {x y : Except ε α} (h : ∀ a, x = .ok a → y = .ok a) (he : ∀ e, x = .error e → refused e) :
    Tracks refused (Prog.lift x : Prog ε σ α) (Prog.lift y) := by
  intro s
  cases x with
  | error e => exact .inl ⟨e, he e rfl, rfl⟩
  | ok a =>
      right
      rw [h a rfl]

theorem foldlM {l : List γ} {f g : α → γ → Prog ε σ α} (hf : ∀ a, ∀ c ∈ l, Tracks refused (f a c) (g a c)) (a : α) :
    Tracks refused (l.foldlM f a) (l.foldlM g a) := by
  induction l generalizing a with
  | nil => exact .refl
  | cons c l ih =>
      rw [List.foldlM_cons, List.foldlM_cons]
      exact (hf a c List.mem_cons_self).bind fun a => ih (fun a c hc => hf a c (List.mem_cons_of_mem _ hc)) a

theorem mapM {l : List γ} {f g : γ → Prog ε σ α} (hf : ∀ c, Tracks refused (f c) (g c)) :
    Tracks refused (l.mapM f) (l.mapM g) := by
  induction l with
  | nil => exact .refl
  | cons c l ih =>
      rw [List.mapM_cons, List.mapM_cons]
      exact (hf c).bind fun _ => ih.bind fun _ => .refl

/-- Looking at how the programs ended, when what is refused is refused again. -/
theorem attempt {f g : Except ε α → Prog ε σ β} (h : Tracks refused p q) (hf : ∀ r, Tracks refused (f r) (g r))
    (hagain : ∀ e, refused e → f (.error e) = fail e) :
    Tracks refused (Prog.attempt p >>= f) (Prog.attempt q >>= g) := by
  intro s
  change (∃ e, refused e ∧ (f (p s).1 (p s).2).1 = .error e) ∨ f (p s).1 (p s).2 = g (q s).1 (q s).2
  rcases h s with ⟨e, he, hp⟩ | hp
  · left
    rw [hp, hagain e he]
    exact ⟨e, he, rfl⟩
  · rw [← hp]
    exact hf _ _

end Tracks

end Prog

end TradeEngine.Lib
