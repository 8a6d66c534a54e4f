import TradeEngine.Lib.OMap
import TradeEngine.Lib.Program

/-!
# Passes over a map

A pass looks at the entries of a map one by one and writes each of them back, or leaves it. Where it is
cut off, the entries it has not come to stand as they were.
-/

namespace TradeEngine.Lib.OMap

open Prog

variable {V σ ε : Type}

/-- A pass has been through `done`: it changed entries as `C` allows, and left each as `D` says. -/
structure Swept (C : V → V → Prop) (D : V → Prop) (m : OMap String V) (done : List String)
    (m' : OMap String V) : Prop where
  absent : ∀ id, m.get id = none → m'.get id = none
  present : ∀ id w, m.get id = some w → ∃ w', m'.get id = some w' ∧ (w' = w ∨ C w w')
  seen : ∀ id ∈ done, ∀ w, m'.get id = some w → D w
  unseen : ∀ id, id ∉ done → m'.get id = m.get id

namespace Swept

variable {C : V → V → Prop} {D : V → Prop} {m m₁ : OMap String V} {done : List String} {id : String}
  {w w' : V}

theorem start (m : OMap String V) : Swept C D m [] m :=
  ⟨fun _ h => h, fun _ w hw => ⟨w, hw, Or.inl rfl⟩, by simp, fun _ _ => rfl⟩

theorem leave (h : Swept C D m done m₁) (hget : m₁.get id = some w) (hD : D w) :
    Swept C D m (done ++ [id]) m₁ := by
  refine ⟨h.absent, h.present, ?_, ?_⟩
  · intro id' hid v hv
    rcases List.mem_append.mp hid with hid | hid
    · exact h.seen id' hid v hv
    · rw [List.mem_singleton.mp hid, hget] at hv
      cases hv
      exact hD
  · intro id' hid
    apply h.unseen
    intro hd
    exact hid (List.mem_append_left _ hd)

theorem write (h : Swept C D m done m₁) (hid : id ∉ done) (hget : m₁.get id = some w) (hC : C w w')
    (hD : D w') : Swept C D m (done ++ [id]) (m₁.put id w') where
  absent id' hnone := by
    rw [OMap.get_put]
    split
    · next heq =>
        rw [h.unseen id hid, ← heq, hnone] at hget
        cases hget
    · exact h.absent id' hnone
  present id' v hv := by
    rw [OMap.get_put]
    split
    · next heq =>
        rw [h.unseen id hid, ← heq, hv] at hget
        cases hget
        exact ⟨w', rfl, Or.inr hC⟩
    · exact h.present id' v hv
  seen id' hmem v hv := by
    rw [OMap.get_put] at hv
    split at hv
    · cases hv
      exact hD
    · next hne =>
        have hdone := (List.mem_append.mp hmem).resolve_right (by simpa using hne)
        exact h.seen id' hdone v hv
  unseen id' hmem := by
    have hne : id' ≠ id := fun heq => hmem (by simp [heq])
    rw [OMap.get_put, if_neg hne]
    apply h.unseen
    intro hd
    exact hmem (List.mem_append_left _ hd)

/-- A pass whose every step writes its own entry or none; the rest of the state keeps to `I`. -/
theorem sweep (part : σ → OMap String V) {I : σ → Prop} {f : σ → String → Except ε σ} {ids : List String}
    {s : σ} (hnodup : ids.Nodup) (hs : I s)
    (hf : ∀ s₁ s₂ id, I s₁ → f s₁ id = .ok s₂ → I s₂ ∧ ∃ w, (part s₁).get id = some w ∧
      (part s₂ = part s₁ ∧ D w ∨ ∃ w', part s₂ = (part s₁).put id w' ∧ C w w' ∧ D w')) :
    Post (fun _ s' => I s' ∧ Swept C D (part s) ids (part s'))
      (fun _ s' => I s' ∧ ∃ done, Swept C D (part s) done (part s'))
      (forEach (fun id => change (f · id)) ids s) := by
  have hloop := Triple.forEach_done (I := fun done s' => I s' ∧ Swept C D (part s) done (part s'))
    (E := fun (_ : ε) s' => I s' ∧ ∃ done, Swept C D (part s) done (part s'))
    (f := fun id => change (f · id)) ids [] ?_
  · exact hloop s ⟨hs, start _⟩
  · intro d id rest hsplit
    have hnew : id ∉ [] ++ d := by
      rw [hsplit] at hnodup
      intro hmem
      exact (List.nodup_append.mp hnodup).2.2 id hmem id List.mem_cons_self rfl
    refine Triple.change (fun s₁ s₂ hstep hswept => ?_) fun _ s₁ _ hswept => ⟨hswept.1, _, hswept.2⟩
    obtain ⟨hI, w, hget, ⟨hsame, hD⟩ | ⟨w', hput, hC, hD⟩⟩ := hf s₁ s₂ id hswept.1 hstep
    · rw [hsame]
      exact ⟨hI, hswept.2.leave hget hD⟩
    · rw [hput]
      exact ⟨hI, hswept.2.write hnew hget hC hD⟩

end Swept

end TradeEngine.Lib.OMap
