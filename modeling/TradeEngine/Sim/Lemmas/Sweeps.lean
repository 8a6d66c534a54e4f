import TradeEngine.Sim.Lemmas.Filling
import TradeEngine.Lib.Sweep

/-!
# Going through the orders of a book

A pass looks at the orders one by one and writes each of them back, or leaves it. Where it is cut off,
the orders it has not come to stand as they were.
-/

namespace TradeEngine.Sim

open Lib Lib.Prog

/-! ## Books -/

/-- Orders are kept under their own ids, and only market orders wait for an opening. -/
structure Book.Tidy (b : Book) : Prop where
  keys : ∀ e ∈ b.orders.items, e.2.1 = e.1
  ids : ∀ id w, b.orders.get id = some w → w.order.id = id
  opening : ∀ id w, b.orders.get id = some w → w.order.tif = .opg → w.order.otype = .market

variable {A : Arith} {cal : Calendars} {b b₁ b₂ : Book} {bar : Bar} {id : String} {w w' : Working}

theorem Book.orderIds_eq (hb : b.Tidy) : b.orderIds = b.orders.items.map (·.1) := by
  unfold Book.orderIds OMap.entries
  rw [List.map_map]
  exact List.map_congr_left hb.keys

theorem Book.orderIds_nodup (hb : b.Tidy) : b.orderIds.Nodup := by
  rw [Book.orderIds_eq hb]
  exact b.orders.nodup

theorem Book.mem_orderIds (hb : b.Tidy) (hw : b.orders.get id = some w) : id ∈ b.orderIds := by
  rw [Book.orderIds_eq hb]
  obtain ⟨k, hk⟩ := OMap.mem_of_get hw
  exact List.mem_map.mpr ⟨_, hk, rfl⟩

theorem Book.Tidy.setOrder (hb : b.Tidy) (hid : w.order.id = id)
    (hopening : w.order.tif = .opg → w.order.otype = .market) : (b.setOrder id w).Tidy where
  keys := OMap.forall_keys_insert (P := fun hk k => k = hk) hb.keys rfl
  ids id' v hv := by
    rw [Book.get_setOrder] at hv
    split at hv
    · next heq =>
        cases hv
        rw [heq, hid]
    · exact hb.ids id' v hv
  opening id' v hv := by
    rw [Book.get_setOrder] at hv
    split at hv
    · cases hv
      exact hopening
    · exact hb.opening id' v hv

/-- The terms of an order in the book stay; the rest of it is written back. -/
theorem Book.Tidy.rewrite (hb : b.Tidy) (hw : b.orders.get id = some w) (hsame : w'.order = w.order) :
    (b.setOrder id w').Tidy :=
  hb.setOrder (hsame ▸ hb.ids id w hw) (hsame ▸ hb.opening id w hw)

/-- Only the calendar of the venue is read. -/
theorem Book.hasExpired_congr (h : b₁.venue = b.venue) (o : VOrder) (t : Ts) :
    b₁.hasExpired cal o t = b.hasExpired cal o t := by
  simp only [Book.hasExpired, Book.expiryInstant, Book.opgSessionOpen, h]

theorem Book.isRegularSessionBar_congr (h : b₁.venue = b.venue) :
    b₁.isRegularSessionBar cal bar = b.isRegularSessionBar cal bar := by
  simp only [Book.isRegularSessionBar, h]

theorem Ts.lt_of_not_le {t u : Ts} (h : t.le u = false) : u.lt t = true := by
  simpa [Ts.le] using h

/-! ## Passes -/

/-- A pass has been through `done`: it changed orders as `C` allows, and left each as `D` says. -/
structure Swept (C : Working → Working → Prop) (D : Working → Prop) (b : Book) (done : List String)
    (b' : Book) : Prop where
  rest : b' = { b with orders := b'.orders }
  tidy : b'.Tidy
  absent : ∀ id, b.orders.get id = none → b'.orders.get id = none
  present : ∀ id w, b.orders.get id = some w →
    ∃ w', b'.orders.get id = some w' ∧ w'.order = w.order ∧ (w' = w ∨ C w w')
  seen : ∀ id ∈ done, ∀ w, b'.orders.get id = some w → D w
  unseen : ∀ id, id ∉ done → b'.orders.get id = b.orders.get id

variable {C : Working → Working → Prop} {D : Working → Prop}

/-- A pass whose every step writes its own order or none. -/
theorem sweep_leaves (hb : b.Tidy) {f : Book → String → R Book}
    (hf : ∀ b₁ b₂ id w, b₁ = { b with orders := b₁.orders } → b₁.orders.get id = some w →
      f b₁ id = .ok b₂ → b₂ = b₁ ∧ D w ∨ ∃ w', b₂ = b₁.setOrder id w' ∧ w'.order = w.order ∧ C w w' ∧ D w')
    (hknown : ∀ b₁ b₂ id, f b₁ id = .ok b₂ → ∃ w, b₁.orders.get id = some w) :
    Post (fun _ b' => Swept C D b b.orderIds b') (fun _ b' => ∃ done, Swept C D b done b')
      (forEach (fun id => change (f · id)) b.orderIds b) := by
  have hswept : ∀ {done b'}, (b' = { b with orders := b'.orders } ∧ b'.Tidy) ∧
      OMap.Swept (fun w w' => w'.order = w.order ∧ C w w') D b.orders done b'.orders → Swept C D b done b' := by
    rintro done b' ⟨⟨hrest, htidy⟩, h⟩
    refine ⟨hrest, htidy, h.absent, ?_, h.seen, h.unseen⟩
    intro id w hw
    obtain ⟨w', hw', rfl | ⟨hterms, hC⟩⟩ := h.present id w hw
    · exact ⟨w', hw', rfl, Or.inl rfl⟩
    · exact ⟨w', hw', hterms, Or.inr hC⟩
  refine (OMap.Swept.sweep (·.orders) (Book.orderIds_nodup hb) ⟨rfl, hb⟩ ?_).weaken
    (fun _ _ h => hswept h) fun _ _ h => h.2.imp fun _ hd => hswept ⟨h.1, hd⟩
  rintro b₁ b₂ id ⟨hrest, htidy⟩ hstep
  obtain ⟨w, hw⟩ := hknown b₁ b₂ id hstep
  rcases hf b₁ b₂ id w hrest hw hstep with ⟨rfl, hD⟩ | ⟨w', rfl, hterms, hC, hD⟩
  · exact ⟨⟨hrest, htidy⟩, w, hw, Or.inl ⟨rfl, hD⟩⟩
  · refine ⟨⟨?_, htidy.rewrite hw hterms⟩, w, hw, Or.inr ⟨w', rfl, ⟨hterms, hC⟩, hD⟩⟩
    rw [hrest]
    rfl

end TradeEngine.Sim
