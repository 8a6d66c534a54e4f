import Mathlib.Logic.Relation
import TradeEngine.Lib.Program

/-!
# Programs as walks

A program moves one part of its state, the core, by steps of a relation, whichever way it ends. A
failure may cut its last step short.
-/

namespace TradeEngine.Lib

open Relation Prog

variable {ε σ κ α β : Type}

/-- Steps, the last one possibly cut short. -/
def Halts (S T : κ → κ → Prop) (c c' : κ) : Prop := ∃ m, ReflTransGen S c m ∧ (m = c' ∨ T m c')

/-- From every core in `K` the program walks by steps; where it returns `a`, it ends in `Q a`. -/
def Walks (core : σ → κ) (S T : κ → κ → Prop) (K : κ → Prop) (p : Prog ε σ α)
    (Q : α → κ → Prop) : Prop :=
  ∀ s, K (core s) → Post (fun a s' => ReflTransGen S (core s) (core s') ∧ Q a (core s'))
    (fun _ s' => Halts S T (core s) (core s')) (p s)

/-- The program leaves the core alone. -/
def Still (core : σ → κ) (p : Prog ε σ α) : Prop := ∀ s, core (p s).2 = core s

variable {core : σ → κ} {S T : κ → κ → Prop} {K K' : κ → Prop} {p : Prog ε σ α}
  {Q Q' : α → κ → Prop}

theorem Halts.refl (c : κ) : Halts S T c c := ⟨c, .refl, Or.inl rfl⟩

theorem Halts.after {c m c' : κ} (h : ReflTransGen S c m) (h' : Halts S T m c') :
    Halts S T c c' := by
  obtain ⟨n, hn, hc⟩ := h'
  exact ⟨n, h.trans hn, hc⟩

/-- A property that every step keeps. -/
def Stable (S : κ → κ → Prop) (K : κ → Prop) : Prop := ∀ c c', S c c' → K c → K c'

theorem Stable.path (hK : Stable S K) {c c' : κ} (h : ReflTransGen S c c') (hc : K c) : K c' := by
  induction h with
  | refl => exact hc
  | tail _ hstep ih => exact hK _ _ hstep ih

theorem Still.bind {p : Prog ε σ α} {f : α → Prog ε σ β} (hp : Still core p)
    (hf : ∀ a, Still core (f a)) : Still core (p >>= f) := by
  intro s
  change core (Prog.bind p f s).2 = core s
  unfold Prog.bind
  have h := hp s
  rcases hr : p s with ⟨e | a, s'⟩
  all_goals rw [hr] at h
  · exact h
  · exact (hf a s').trans h

theorem Still.spec (hp : Still core p) (s : σ) :
    Post (fun _ s' => core s' = core s) (fun _ s' => core s' = core s) (p s) := by
  have h := hp s
  revert h
  rcases p s with ⟨e | a, s'⟩ <;> exact id

theorem Still.attempt (hp : Still core p) : Still core (attempt p) := hp

namespace Walks

theorem still (hp : Still core p) : Walks core S T K p fun _ => K := by
  intro s hs
  refine (hp.spec s).weaken (fun _ s' h => ?_) fun _ s' h => ?_
  · rw [h]
    exact ⟨.refl, hs⟩
  · rw [h]
    exact .refl _

theorem pure {a : α} (h : ∀ c, K c → Q a c) : Walks core S T K (Pure.pure a : Prog ε σ α) Q :=
  fun _ hs => ⟨.refl, h _ hs⟩

theorem lift {x : Except ε α} : Walks core S T K (lift x) fun a c => K c ∧ x = .ok a := by
  intro s hs
  cases x with
  | error e => exact Halts.refl _
  | ok a => exact ⟨.refl, hs, rfl⟩

theorem fail {e : ε} : Walks core S T K (fail e : Prog ε σ α) Q := fun _ _ => Halts.refl _

theorem bind {p : Prog ε σ α} {f : α → Prog ε σ β} {Q : α → κ → Prop} {R : β → κ → Prop}
    (hp : Walks core S T K p Q) (hf : ∀ a, Walks core S T (Q a) (f a) R) :
    Walks core S T K (p >>= f) R := by
  intro s hs
  refine post_bind.mpr ((hp s hs).weaken (fun a s' h => ?_) fun _ _ h => h)
  exact (hf a s' h.2).weaken (fun b s'' hb => ⟨h.1.trans hb.1, hb.2⟩) fun _ _ he => he.after h.1

theorem weaken (h : Walks core S T K p Q) (hK : ∀ c, K' c → K c) (hQ : ∀ a c, Q a c → Q' a c) :
    Walks core S T K' p Q' := by
  intro s hs
  exact (h s (hK _ hs)).weaken (fun a _ ha => ⟨ha.1, hQ a _ ha.2⟩) fun _ _ he => he

theorem pre (h : Walks core S T K p Q) (hK : ∀ c, K' c → K c) : Walks core S T K' p Q :=
  h.weaken hK fun _ _ hq => hq

theorem post (h : Walks core S T K p Q) (hQ : ∀ a c, Q a c → Q' a c) : Walks core S T K p Q' :=
  h.weaken (fun _ hc => hc) hQ

/-- A fact that the precondition gives may be used to prove the walk. -/
theorem assume {φ : Prop} (hK : ∀ c, K c → φ) (h : φ → Walks core S T K p Q) : Walks core S T K p Q :=
  fun s hs => h (hK _ hs) s hs

/-- What two walks of the same program promise. -/
theorem both {S' T' : κ → κ → Prop} (h : Walks core S T K p Q) (h' : Walks core S' T' K' p Q') :
    Walks core S T (fun c => K c ∧ K' c) p fun a c => Q a c ∧ Q' a c := by
  intro s hs
  have hp := h s hs.1
  have hp' := h' s hs.2
  revert hp hp'
  rcases p s with ⟨e | a, s'⟩
  · exact fun hp _ => hp
  · exact fun hp hp' => ⟨hp.1, hp.2, hp'.2⟩

/-- What every step keeps is still there at the end. -/
theorem keep (hK' : Stable S K') (h : Walks core S T K p Q) :
    Walks core S T (fun c => K c ∧ K' c) p fun a c => Q a c ∧ K' c := by
  intro s hs
  exact (h s hs.1).weaken (fun a _ ha => ⟨ha.1, ha.2, hK'.path ha.1 hs.2⟩) fun _ _ he => he

/-- `keep` for a program that asks nothing and promises nothing else. -/
theorem keeps (h : Walks core S T (fun _ => True) p fun _ _ => True) (hK : Stable S K) :
    Walks core S T K p fun _ => K :=
  (h.keep hK).weaken (fun _ hc => ⟨trivial, hc⟩) fun _ _ hq => hq.2

theorem ite {b : Prop} [Decidable b] {q : Prog ε σ α} (hp : b → Walks core S T K p Q)
    (hq : ¬ b → Walks core S T K q Q) : Walks core S T K (if b then p else q) Q := by
  by_cases hb : b
  · simpa only [hb, if_true] using hp hb
  · simpa only [hb, if_false] using hq hb

theorem map {f : α → β} {R : β → κ → Prop} (h : Walks core S T K p fun a c => R (f a) c) :
    Walks core S T K (f <$> p) R :=
  h.bind fun _ => pure fun _ hc => hc

theorem forEach {f : α → Prog ε σ Unit} {l : List α}
    (h : ∀ a ∈ l, Walks core S T K (f a) fun _ => K) : Walks core S T K (forEach f l) fun _ => K := by
  induction l with
  | nil => exact pure fun _ hc => hc
  | cons a l ih =>
      exact (h a List.mem_cons_self).bind fun _ => ih fun b hb => h b (List.mem_cons_of_mem _ hb)

end Walks

end TradeEngine.Lib
