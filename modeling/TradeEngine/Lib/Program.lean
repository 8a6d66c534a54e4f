import Mathlib.Tactic

/-!
# Programs over a state

A program returns a value or an error and leaves the state it reached in both cases: what it did
before it failed stays done. Triples carry one postcondition for each of the two ways out.
-/

namespace TradeEngine.Lib

variable {ε σ τ α β : Type}

/-- A fallible program over states `σ`. -/
def Prog (ε σ α : Type) := σ → Except ε α × σ

namespace Prog

protected def bind (p : Prog ε σ α) (f : α → Prog ε σ β) : Prog ε σ β := fun s =>
  match p s with
  | (.ok a, s') => f a s'
  | (.error e, s') => (.error e, s')

instance : Monad (Prog ε σ) where
  pure a := fun s => (.ok a, s)
  bind := Prog.bind

instance : LawfulMonad (Prog ε σ) := LawfulMonad.mk' _
  (by
    intro α p
    funext s
    change Prog.bind p _ s = p s
    unfold Prog.bind
    rcases p s with ⟨e | a, s'⟩ <;> rfl)
  (by
    intro α β a f
    rfl)
  (by
    intro α β γ p f g
    funext s
    change Prog.bind (Prog.bind p f) g s = Prog.bind p (fun a => Prog.bind (f a) g) s
    unfold Prog.bind
    rcases p s with ⟨e | a, s'⟩ <;> rfl)

/-- A pure computation; the state is left alone. -/
def lift (x : Except ε α) : Prog ε σ α := fun s => (x, s)

def fail (e : ε) : Prog ε σ α := lift (.error e)

def get : Prog ε σ σ := fun s => (.ok s, s)

def gets (f : σ → α) : Prog ε σ α := fun s => (.ok (f s), s)

def modify (f : σ → σ) : Prog ε σ Unit := fun s => (.ok (), f s)

/-- What a state answers; the state is left alone. -/
def read (f : σ → Except ε α) : Prog ε σ α := fun s => (f s, s)

/-- A change that is made whole or not at all. -/
def change (f : σ → Except ε σ) : Prog ε σ Unit := fun s =>
  match f s with
  | .ok s' => (.ok (), s')
  | .error e => (.error e, s)

/-- Run a program on a part of the state. -/
def zoom (part : σ → τ) (put : τ → σ → σ) (p : Prog ε τ α) : Prog ε σ α := fun s =>
  ((p (part s)).1, put (p (part s)).2 s)

/-- Run a program and look at how it ended. -/
def attempt (p : Prog ε σ α) : Prog ε σ (Except ε α) := fun s => (.ok (p s).1, (p s).2)

/-- One program for each element, in order, stopping at the first failure. -/
def forEach (f : α → Prog ε σ Unit) : List α → Prog ε σ Unit
  | [] => pure ()
  | a :: l => do
    f a
    forEach f l

/-! ## Both ways out -/

def Post (Q : α → σ → Prop) (E : ε → σ → Prop) : Except ε α × σ → Prop
  | (.ok a, s) => Q a s
  | (.error e, s) => E e s

theorem post_bind {Q : β → σ → Prop} {E : ε → σ → Prop} {p : Prog ε σ α} {f : α → Prog ε σ β}
    {s : σ} : Post Q E ((p >>= f) s) ↔ Post (fun a s' => Post Q E (f a s')) E (p s) := by
  change Post Q E (Prog.bind p f s) ↔ _
  unfold Prog.bind
  rcases p s with ⟨e | a, s'⟩ <;> exact Iff.rfl

theorem discard_apply (p : Prog ε σ α) (s : σ) :
    (discard p : Prog ε σ PUnit) s = ((p s).1.map fun _ => ⟨⟩, (p s).2) := by
  change (Functor.mapConst PUnit.unit p : Prog ε σ PUnit) s = _
  rw [map_const, Function.comp_apply, map_eq_pure_bind]
  change Prog.bind p _ s = _
  unfold Prog.bind
  rcases p s with ⟨e | a, s'⟩ <;> rfl

theorem post_discard {Q : PUnit → σ → Prop} {E : ε → σ → Prop} {p : Prog ε σ α} {s : σ} :
    Post Q E ((discard p : Prog ε σ PUnit) s) ↔ Post (fun _ => Q ⟨⟩) E (p s) := by
  rw [discard_apply]
  rcases p s with ⟨e | a, s'⟩ <;> exact Iff.rfl

theorem post_zoom {Q : α → σ → Prop} {E : ε → σ → Prop} {part : σ → τ} {put : τ → σ → σ}
    {p : Prog ε τ α} {s : σ} : Post Q E (zoom part put p s) ↔
      Post (fun a t => Q a (put t s)) (fun e t => E e (put t s)) (p (part s)) := by
  unfold zoom
  rcases p (part s) with ⟨e | a, t⟩ <;> exact Iff.rfl

theorem post_attempt {Q : Except ε α → σ → Prop} {E : ε → σ → Prop} {p : Prog ε σ α} {s : σ} :
    Post Q E (attempt p s) ↔ Post (fun a => Q (.ok a)) (fun e => Q (.error e)) (p s) := by
  unfold attempt
  rcases p s with ⟨e | a, t⟩ <;> exact Iff.rfl

theorem Post.and {Q Q' : α → σ → Prop} {E E' : ε → σ → Prop} {r : Except ε α × σ} (h : Post Q E r) (h' : Post Q' E' r) :
    Post (fun a s => Q a s ∧ Q' a s) (fun e s => E e s ∧ E' e s) r := by
  rcases r with ⟨e | a, s⟩
  · exact ⟨h, h'⟩
  · exact ⟨h, h'⟩

theorem Post.weaken {Q Q' : α → σ → Prop} {E E' : ε → σ → Prop} {r : Except ε α × σ}
    (h : Post Q E r) (hQ : ∀ a s, Q a s → Q' a s) (hE : ∀ e s, E e s → E' e s) : Post Q' E' r := by
  rcases r with ⟨e | a, s⟩
  · exact hE e s h
  · exact hQ a s h

theorem bind_ok {p : Prog ε σ α} {f : α → Prog ε σ β} {s s'' : σ} {b : β} :
    (p >>= f) s = (.ok b, s'') ↔ ∃ a s', p s = (.ok a, s') ∧ f a s' = (.ok b, s'') := by
  change Prog.bind p f s = _ ↔ _
  unfold Prog.bind
  rcases p s with ⟨e | a, s'⟩ <;> simp

theorem bind_error {p : Prog ε σ α} {f : α → Prog ε σ β} {s s'' : σ} {e : ε} :
    (p >>= f) s = (.error e, s'') ↔
      p s = (.error e, s'') ∨ ∃ a s', p s = (.ok a, s') ∧ f a s' = (.error e, s'') := by
  change Prog.bind p f s = _ ↔ _
  unfold Prog.bind
  rcases p s with ⟨e | a, s'⟩ <;> simp

/-- A program that goes through a list and fails stopped at one element: those before it went through,
and the state is the one that element left. -/
theorem stopped_at (f : α → Prog ε σ τ) (go : List α → Prog ε σ β) (join : α → τ → β → β) {none : β}
    (hnil : go [] = pure none)
    (hcons : ∀ a l, go (a :: l) = (do
      let x ← f a
      let rest ← go l
      pure (join a x rest))) {l : List α} {s s' : σ} {e : ε} (h : go l s = (.error e, s')) :
    ∃ before a after out s₁, l = before ++ a :: after ∧ go before s = (.ok out, s₁) ∧ f a s₁ = (.error e, s') := by
  induction l generalizing s with
  | nil =>
      rw [hnil] at h
      cases h
  | cons a l ih =>
      rw [hcons, bind_error] at h
      rcases h with hfirst | ⟨x, s₁, hfirst, h⟩
      · exact ⟨[], a, l, none, s, rfl, by rw [hnil]; rfl, hfirst⟩
      · rw [bind_error] at h
        rcases h with hrest | ⟨_, _, -, hpure⟩
        · obtain ⟨before, c, after, out, s₂, rfl, hbefore, hstop⟩ := ih hrest
          refine ⟨a :: before, c, after, join a x out, s₂, rfl, ?_, hstop⟩
          rw [hcons, bind_ok]
          refine ⟨x, s₁, hfirst, ?_⟩
          rw [bind_ok]
          exact ⟨out, s₂, hbefore, rfl⟩
        · cases hpure

theorem forEach_stopped {f : α → Prog ε σ Unit} {l : List α} {s s' : σ} {e : ε}
    (h : forEach f l s = (.error e, s')) :
    ∃ before a after s₁, l = before ++ a :: after ∧ forEach f before s = (.ok (), s₁) ∧
      f a s₁ = (.error e, s') := by
  obtain ⟨before, a, after, ⟨⟩, s₁, hl, hbefore, hstop⟩ :=
    stopped_at f (forEach f) (fun _ _ r => r) rfl (fun _ _ => by simp [forEach]) h
  exact ⟨before, a, after, s₁, hl, hbefore, hstop⟩

theorem change_error {f : σ → Except ε σ} {s s' : σ} {e : ε} (h : change f s = (.error e, s')) :
    f s = .error e ∧ s' = s := by
  unfold change at h
  cases hf : f s with
  | error e' =>
      rw [hf] at h
      cases h
      exact ⟨rfl, rfl⟩
  | ok s₁ =>
      rw [hf] at h
      cases h

theorem returned {p : α × β} {a : α} (h : p.1 = a) : p = (a, p.2) := by rw [← h]

theorem Post.ok {Q : α → σ → Prop} {E : ε → σ → Prop} {r : Except ε α × σ} {a : α} {s : σ}
    (h : Post Q E r) (hr : r = (.ok a, s)) : Q a s := by
  rw [hr] at h
  exact h

theorem Post.error {Q : α → σ → Prop} {E : ε → σ → Prop} {r : Except ε α × σ} {e : ε} {s : σ}
    (h : Post Q E r) (hr : r = (.error e, s)) : E e s := by
  rw [hr] at h
  exact h

/-- What holds both ways holds of the state reached. -/
theorem Post.reached {I : σ → Prop} {r : Except ε α × σ} (h : Post (fun _ => I) (fun _ => I) r) :
    I r.2 := by
  rcases r with ⟨e | a, s⟩ <;> exact h

theorem Post.lift {Q : α → σ → Prop} {E : ε → σ → Prop} {x : Except ε α} {s : σ}
    (hok : ∀ a, x = .ok a → Q a s) (herr : ∀ e, x = .error e → E e s) :
    Post Q E (lift x s) := by
  cases x with
  | error e => exact herr e rfl
  | ok a => exact hok a rfl

theorem Post.modify {Q : Unit → σ → Prop} {E : ε → σ → Prop} {f : σ → σ} {s : σ} (h : Q () (f s)) :
    Post Q E ((modify f : Prog ε σ Unit) s) := h

theorem Post.change {Q : Unit → σ → Prop} {E : ε → σ → Prop} {f : σ → Except ε σ} {s : σ}
    (hok : ∀ s', f s = .ok s' → Q () s') (herr : ∀ e, f s = .error e → E e s) :
    Post Q E (change f s) := by
  unfold Prog.change
  cases h : f s with
  | error e => exact herr e h
  | ok s' => exact hok s' h

theorem Post.gets {Q : α → σ → Prop} {E : ε → σ → Prop} {f : σ → α} {s : σ} (h : Q (f s) s) :
    Post Q E ((gets f : Prog ε σ α) s) := h

theorem Post.get {Q : σ → σ → Prop} {E : ε → σ → Prop} {s : σ} (h : Q s s) :
    Post Q E ((get : Prog ε σ σ) s) := h

/-- From every state in `P` the program returns in `Q` or fails in `E`. -/
def Triple (P : σ → Prop) (p : Prog ε σ α) (Q : α → σ → Prop) (E : ε → σ → Prop) : Prop :=
  ∀ s, P s → Post Q E (p s)

variable {P P' : σ → Prop} {Q Q' : α → σ → Prop} {E E' : ε → σ → Prop}

theorem Triple.pure {a : α} (h : ∀ s, P s → Q a s) : Triple P (pure a : Prog ε σ α) Q E := h

theorem Triple.fail {e : ε} (h : ∀ s, P s → E e s) : Triple P (fail e : Prog ε σ α) Q E := h

theorem Triple.lift {x : Except ε α} (hok : ∀ a s, x = .ok a → P s → Q a s)
    (herr : ∀ e s, x = .error e → P s → E e s) : Triple P (lift x) Q E := by
  intro s hs
  cases x with
  | error e => exact herr e s rfl hs
  | ok a => exact hok a s rfl hs

theorem Triple.read {f : σ → Except ε α} (hok : ∀ a s, f s = .ok a → P s → Q a s)
    (herr : ∀ e s, f s = .error e → P s → E e s) : Triple P (read f) Q E := by
  intro s hs
  exact Post.lift (fun a ha => hok a s ha hs) fun e he => herr e s he hs

theorem Triple.change {f : σ → Except ε σ} {Q : Unit → σ → Prop}
    (hok : ∀ s s', f s = .ok s' → P s → Q () s') (herr : ∀ e s, f s = .error e → P s → E e s) :
    Triple P (change f) Q E := by
  intro s hs
  exact Post.change (fun s' h => hok s s' h hs) fun e h => herr e s h hs

theorem Triple.gets {f : σ → α} (h : ∀ s, P s → Q (f s) s) :
    Triple P (gets f : Prog ε σ α) Q E := h

theorem Triple.modify {f : σ → σ} {Q : Unit → σ → Prop} (h : ∀ s, P s → Q () (f s)) :
    Triple P (modify f : Prog ε σ Unit) Q E := h

theorem Triple.bind {p : Prog ε σ α} {f : α → Prog ε σ β} {Q : α → σ → Prop} {S : β → σ → Prop}
    (hp : Triple P p Q E) (hf : ∀ a, Triple (Q a) (f a) S E) : Triple P (p >>= f) S E := by
  intro s hs
  exact post_bind.mpr ((hp s hs).weaken (fun a s' h => hf a s' h) fun _ _ h => h)

theorem Triple.weaken {p : Prog ε σ α} (h : Triple P p Q E) (hP : ∀ s, P' s → P s)
    (hQ : ∀ a s, Q a s → Q' a s) (hE : ∀ e s, E e s → E' e s) : Triple P' p Q' E' := by
  intro s hs
  exact (h s (hP s hs)).weaken hQ hE

theorem Triple.ite {c : Prop} [Decidable c] {p q : Prog ε σ α}
    (hp : c → Triple P p Q E) (hq : ¬ c → Triple P q Q E) :
    Triple P (if c then p else q) Q E := by
  by_cases hc : c
  · simpa only [hc, if_true] using hp hc
  · simpa only [hc, if_false] using hq hc

theorem Triple.forEach {I : σ → Prop} {f : α → Prog ε σ Unit} {l : List α}
    (h : ∀ a ∈ l, Triple I (f a) (fun _ => I) E) : Triple I (forEach f l) (fun _ => I) E := by
  induction l with
  | nil => exact Triple.pure fun _ hs => hs
  | cons a l ih =>
      exact (h a List.mem_cons_self).bind fun _ => ih fun b hb => h b (List.mem_cons_of_mem _ hb)

/-- A loop whose invariant knows what it has been through. -/
theorem Triple.forEach_done {I : List α → σ → Prop} {f : α → Prog ε σ Unit} (l done : List α)
    (h : ∀ d a rest, l = d ++ a :: rest → Triple (I (done ++ d)) (f a) (fun _ => I (done ++ d ++ [a])) E) :
    Triple (I done) (Prog.forEach f l) (fun _ => I (done ++ l)) E := by
  induction l generalizing done with
  | nil =>
      rw [List.append_nil]
      exact Triple.pure fun _ hs => hs
  | cons a l ih =>
      have hhead := h [] a l rfl
      rw [List.append_nil] at hhead
      have htail : Triple (I (done ++ [a])) (Prog.forEach f l) (fun _ => I (done ++ [a] ++ l)) E := by
        apply ih
        intro d c rest hl
        have hstep := h (a :: d) c rest (by rw [hl]; rfl)
        rwa [List.append_cons] at hstep
      rw [← List.append_cons] at htail
      exact hhead.bind fun _ => htail

theorem Triple.mapM {I : σ → Prop} {R : α → β → Prop} {f : α → Prog ε σ β} (l : List α)
    (h : ∀ a, Triple I (f a) (fun b s => R a b ∧ I s) E) :
    Triple I (l.mapM f) (fun bs s => List.Forall₂ R l bs ∧ I s) E := by
  induction l with
  | nil => exact Triple.pure fun _ hs => ⟨.nil, hs⟩
  | cons a l ih =>
      rw [List.mapM_cons]
      refine (h a).bind ?_
      intro b s hs
      refine post_bind.mpr ((ih s hs.2).weaken ?_ fun _ _ h => h)
      intro bs s' hbs
      exact ⟨.cons hs.1 hbs.1, hbs.2⟩

end Prog

end TradeEngine.Lib
