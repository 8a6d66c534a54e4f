import TradeEngine.Sim.Lemmas.Conserved

/-!
# Every call keeps the book

A fill takes what is left of an order, an exit no more than its bracket has open; every call is made
of fills, of orders written back and of at most one new order.
-/

namespace TradeEngine.Sim

open Lib

variable {A : Arith}

theorem dmin_val (a b : Money) : (dmin a b).val = min a.val b.val := by
  unfold dmin
  split
  · rename_i h
    exact (min_eq_right (Money.lt_iff.mp h).le).symm
  · rename_i h
    exact (min_eq_left (not_lt.mp fun hlt => h (Money.lt_iff.mpr hlt))).symm

theorem dmax_val (a b : Money) : (dmax a b).val = max a.val b.val := by
  unfold dmax
  split
  · rename_i h
    exact (max_eq_right (Money.gt_iff.mp h).le).symm
  · rename_i h
    exact (max_eq_left (not_lt.mp fun hlt => h (Money.gt_iff.mpr hlt))).symm

theorem makeVFill_ok {fillId : String} {o : VOrder} {q price : Money} {t : Ts} {f : VFill}
    (h : makeVFill fillId o q price t = .ok f) :
    0 < q.val ∧ f.fillId = fillId ∧ f.orderId = o.id ∧ f.quantity = q := by
  unfold makeVFill at h
  split at h
  · simp at h
  · rename_i hq
    split at h
    · simp at h
    · cases h
      exact ⟨Money.val_pos_iff.mpr (not_le.mp hq), rfl, rfl, rfl⟩

namespace Book

variable {b b' : Book} {id : String} {w : Working}

/-! ## One fill -/

theorem sumFilled_exact {l : List Working} {s r : Money}
    (h : l.foldlM (fun s w => Ops.add A.exact s w.filled) s = .ok r) :
    r.val = s.val + (l.map (·.filled.val)).sum := by
  induction l generalizing s with
  | nil =>
      cases h
      simp
  | cons w l ih =>
      simp only [List.foldlM_cons, bind_eq_ok] at h
      obtain ⟨t, ht, h⟩ := h
      rw [ih h, Ops.exact_add ht, List.map_cons, List.sum_cons, add_assoc]

theorem bracketOpenQuantity_exact {parent : String} {q : Money}
    (h : b.bracketOpenQuantity A.exact parent = .ok q) :
    ∃ e, b.orders.get parent = some e ∧ q.val = max (e.filled.val - b.exited parent) 0 := by
  simp only [bracketOpenQuantity, bind_eq_ok, pure_eq_ok] at h
  obtain ⟨e, he, exited, hexited, left, hleft, rfl⟩ := h
  refine ⟨e, requireOrder_ok he, ?_⟩
  rw [dmax_val, Ops.exact_sub hleft, sumFilled_exact hexited, Money.val_zero, zero_add]
  rfl

theorem exitQuantity_le {o : VOrder} {parent : String} {left q : Money}
    (h : b.exitQuantity A.exact o parent left = .ok q) (hpos : 0 < q.val) :
    q.val ≤ left.val ∧ ∃ e, b.orders.get parent = some e ∧ b.exited parent + q.val ≤ e.filled.val := by
  simp only [exitQuantity, bind_eq_ok, pure_eq_ok] at h
  obtain ⟨opened, hopen, available, -, rfl⟩ := h
  obtain ⟨e, he, hval⟩ := bracketOpenQuantity_exact hopen
  rw [dmin_val, dmin_val, hval] at hpos ⊢
  have hleft : min left.val (max (e.filled.val - b.exited parent) 0) ≤ left.val := min_le_left _ _
  have hopened : min left.val (max (e.filled.val - b.exited parent) 0) ≤
    max (e.filled.val - b.exited parent) 0 := min_le_right _ _
  refine ⟨(min_le_left _ _).trans hleft, e, he, ?_⟩
  have hbound := (min_le_left (min left.val (max (e.filled.val - b.exited parent) 0))
    available.val).trans hopened
  rcases le_max_iff.mp hbound with h | h
  · linarith
  · linarith

/-- A fill takes no more than is left of its order, nor than its entry has open. -/
theorem fillQuantity_exact {q : Money} (h : b.fillQuantity A.exact w = .ok q) (hpos : 0 < q.val) :
    q.val ≤ w.order.quantity.val - w.filled.val ∧ ∀ p, w.order.parent = some p →
      ∃ e, b.orders.get p = some e ∧ b.exited p + q.val ≤ e.filled.val := by
  simp only [fillQuantity, bind_eq_ok] at h
  obtain ⟨left, hleft, h⟩ := h
  rw [← Ops.exact_sub hleft]
  cases hparent : w.order.parent with
  | none =>
      rw [hparent] at h
      cases h
      exact ⟨le_rfl, by simp⟩
  | some parent =>
      rw [hparent] at h
      obtain ⟨hle, hexit⟩ := exitQuantity_le h hpos
      refine ⟨hle, fun p hp => ?_⟩
      cases hp
      exact hexit

theorem updatePosition_exact {f : VFill} (h : b.updatePosition A.exact f = .ok b') :
    ∃ ps, b' = { b with positions := ps } ∧
      ∀ hk, b'.positionOf hk = b.positionOf hk + if f.instr.hk = hk then f.signed else 0 := by
  simp only [updatePosition, bind_eq_ok, pure_eq_ok] at h
  obtain ⟨change, hchange, updated, hupdated, average, -, rfl⟩ := h
  refine ⟨_, rfl, fun hk => ?_⟩
  have hsigned : change.val = f.signed := by
    unfold VFill.signed
    cases hs : f.side with
    | buy =>
        rw [hs, if_pos rfl, pure_eq_ok] at hchange
        rw [hchange]
    | sell =>
        rw [hs, if_neg (by decide)] at hchange
        exact Ops.exact_neg hchange
  by_cases heq : f.instr.hk = hk
  · subst heq
    simp only [positionOf, OMap.get_insert_self, Option.map_some, Option.getD_some, if_true]
    rw [Ops.exact_add hupdated, hsigned]
  · simp only [positionOf, OMap.get_insert_ne _ _ _ (Ne.symm heq), heq, if_false, add_zero]

/-- One more fill of an order, with the count and the position that go with it. -/
theorem Ok.fill {f : VFill} {w' : Working} {ps : OMap Instrument Pos} (hok : b.Ok)
    (hw : b.orders.get id = some w)
    (hf : f.orderId = id ∧ f.fillId = id ++ ":fill:" ++ toString ((b.fillCounts.get id).getD 0 + 1))
    (horder : w'.order = w.order) (hfilled : w'.filled.val = w.filled.val + f.quantity.val)
    (hle : w'.filled.val ≤ w.order.quantity.val)
    (hdone : w'.state = .filled ↔ w'.filled.val = w.order.quantity.val)
    (hexit : ∀ p, w.order.parent = some p → ∃ e, b.orders.get p = some e ∧
      b.exited p + f.quantity.val ≤ e.filled.val)
    (hps : ∀ hk, ((ps.get hk).map Pos.qty |>.getD Money.zero).val =
      b.positionOf hk + if f.instr.hk = hk then f.signed else 0) :
    Ok { b.setOrder id w' with
      fillCounts := b.fillCounts.put id ((b.fillCounts.get id).getD 0 + 1)
      fills := b.fills ++ [f]
      positions := ps } where
  ids id' v hv := by
    rw [get_setOrder] at hv
    split at hv
    · rename_i heq
      cases hv
      rw [horder, heq, hok.ids id w hw]
    · exact hok.ids id' v hv
  filled id' v hv := by
    rw [get_setOrder] at hv
    refine Eq.trans ?_ (filledOf_append b f id').symm
    rw [hf.1]
    split at hv
    · rename_i heq
      cases hv
      rw [hfilled, if_pos heq.symm, heq, hok.filled id w hw]
    · rename_i heq
      rw [if_neg (Ne.symm heq), add_zero]
      exact hok.filled id' v hv
  le id' v hv := by
    rw [get_setOrder] at hv
    split at hv
    · cases hv
      rw [horder]
      exact hle
    · exact hok.le id' v hv
  done id' v hv := by
    rw [get_setOrder] at hv
    split at hv
    · cases hv
      rw [horder]
      exact hdone
    · exact hok.done id' v hv
  owned g hg := by
    rw [get_setOrder]
    split
    · simp
    · rename_i hne
      rcases List.mem_append.mp hg with hg | hg
      · exact hok.owned g hg
      · rw [List.mem_singleton.mp hg] at hne
        exact absurd hf.1 hne
  numbered g hg := by
    rcases List.mem_append.mp hg with hg | hg
    · obtain ⟨n, hn, hid⟩ := hok.numbered g hg
      refine ⟨n, ?_, hid⟩
      rw [OMap.get_put]
      split
      · rename_i heq
        rw [heq] at hn
        simp only [Option.getD_some]
        omega
      · exact hn
    · rw [List.mem_singleton.mp hg, hf.1]
      exact ⟨(b.fillCounts.get id).getD 0 + 1, by simp, hf.2⟩
  fillIds := by
    rw [List.map_append, List.map_singleton]
    refine List.nodup_append.mpr ⟨hok.fillIds, List.nodup_singleton _, ?_⟩
    rintro x hx y hy rfl
    -- an earlier fill of that name would be numbered past the order's count
    obtain ⟨g, hg, hname⟩ := List.mem_map.mp hx
    obtain ⟨n, hn, hid⟩ := hok.numbered g hg
    rw [List.mem_singleton.mp hy, hf.2, hid] at hname
    have hlist := congrArg String.toList hname
    have hsplit : ∀ (s : String) (n : Nat), (s ++ ":fill:" ++ toString n).toList =
        (s ++ ":fill").toList ++ ':' :: Nat.toDigits 10 n := by
      intro s n
      simp [String.toList_append]
    rw [hsplit, hsplit] at hlist
    obtain ⟨hpre, hnum⟩ := append_number_inj (by decide) hlist
    have hord : g.orderId = id := (String.append_left_inj _).mp (String.toList_injective hpre)
    rw [hord] at hn
    omega
  position hk := by
    refine (hps hk).trans ?_
    rw [hok.position hk]
    exact (netOf_append b f hk).symm
  entries id' v p hv hp := by
    have hchild : ∃ u, b.orders.get id' = some u ∧ u.order = v.order := by
      rw [get_setOrder] at hv
      split at hv
      · rename_i heq
        cases hv
        exact ⟨w, heq ▸ hw, horder.symm⟩
      · exact ⟨v, hv, rfl⟩
    obtain ⟨u, hu, huv⟩ := hchild
    obtain ⟨e, he, hrest⟩ := hok.entries id' u p hu (huv ▸ hp)
    rw [huv] at hrest
    rw [get_setOrder]
    by_cases heq : p = id
    · rw [heq, hw] at he
      cases he
      exact ⟨w', if_pos heq, horder ▸ hrest⟩
    · exact ⟨e, by rw [if_neg heq, he], hrest⟩
  exits p e he := by
    have hsum : (b.setOrder id w').exited p =
        b.exited p + if w.order.parent = some p then f.quantity.val else 0 := by
      rw [exited_setOrder hw, horder, hfilled]
      split <;> ring
    refine hsum.le.trans ?_
    have hqpos := Money.val_pos_iff.mpr f.quantity_pos
    rw [get_setOrder] at he
    by_cases hparent : w.order.parent = some p
    · obtain ⟨x, hx, hroom⟩ := hexit p hparent
      rw [if_pos hparent]
      split at he
      · -- an order is never its own entry: the two are on opposite sides
        rename_i heq
        obtain ⟨y, hy, -, hside⟩ := hok.entries id w p hw hparent
        rw [heq, hw] at hy
        cases hy
        exact absurd rfl hside
      · rw [hx] at he
        cases he
        exact hroom
    · rw [if_neg hparent, add_zero]
      split at he
      · rename_i heq
        cases he
        have hexits := hok.exits p w (heq ▸ hw)
        linarith
      · exact hok.exits p e he

theorem fill_ok {price : Money} {t : Ts} {out : Option Nat} (hok : b.Ok)
    (h : b.fill A.exact id price t = .ok (b', out)) : b'.Ok := by
  simp only [fill, bind_eq_ok] at h
  obtain ⟨w, hw, h⟩ := h
  have hw := requireOrder_ok hw
  split at h
  · cases h
    exact hok
  · simp only [bind_eq_ok] at h
    obtain ⟨q, hq, h⟩ := h
    split at h
    · cases h
      exact hok
    · simp only [bind_eq_ok, pure_eq_ok] at h
      obtain ⟨f, hf, filled, hfilled, b₁, hpos, hb⟩ := h
      cases hb
      obtain ⟨hqpos, hname, hfid, rfl⟩ := makeVFill_ok hf
      have hfilled := Ops.exact_add hfilled
      obtain ⟨ps, rfl, hps⟩ := updatePosition_exact hpos
      obtain ⟨hle, hexit⟩ := fillQuantity_exact hq hqpos
      have hdone : ∀ s : Money, (if s.eqNum w.order.quantity then OrderState.filled
          else .partiallyFilled) = .filled ↔ s.val = w.order.quantity.val := by
        intro s
        rw [← Money.eqNum_iff]
        split <;> simp_all
      refine hok.fill hw ⟨hfid.trans (hok.ids id w hw), hname⟩ rfl hfilled ?_ (hdone _) hexit hps
      rw [hfilled]
      linarith

/-! ## Orders leaving the market -/

theorem Ok.retire {s : OrderState} {t : Ts} (hok : b.Ok) (hw : b.orders.get id = some w)
    (hlive : w.state ≠ .filled) (hs : s ≠ .filled) :
    (b.setOrder id { w with state := s, updatedAt := t }).Ok := by
  refine hok.amend hw ⟨rfl, rfl, rfl, rfl, rfl, hok.le id w hw, ?_⟩
  exact iff_of_false hs fun heq => hlive ((hok.done id w hw).mpr heq)

theorem working_ne_filled {s : OrderState} (h : ¬ (!working s) = true) : s ≠ .filled := by
  rintro rfl
  exact h rfl

variable {cal : Calendars}

theorem expireOne_ok {now : Ts} (hok : b.Ok) (h : expireOne cal now b id = .ok b') : b'.Ok := by
  simp only [expireOne, bind_eq_ok] at h
  obtain ⟨w, hw, h⟩ := h
  split at h
  · cases h
    exact hok
  · rename_i hlive
    simp only [bind_eq_ok] at h
    obtain ⟨expired, -, h⟩ := h
    split at h
    · cases h
      exact hok
    · simp only [bind_eq_ok] at h
      obtain ⟨instant, -, h⟩ := h
      cases instant with
      | none => simp at h
      | some instant =>
          simp only [bind_eq_ok] at h
          obtain ⟨last, -, h⟩ := h
          split at h
          · cases h
            exact hok
          · split at h
            · cases h
              exact hok
            · cases h
              exact hok.retire (requireOrder_ok hw) (working_ne_filled hlive) (by decide)

theorem expireDue_ok {now : R Ts} (hok : b.Ok) (h : b.expireDue cal now = .ok b') : b'.Ok := by
  simp only [expireDue, bind_eq_ok] at h
  obtain ⟨t, -, h⟩ := h
  exact foldlM_invariant (fun _ _ _ _ hstep hb => expireOne_ok hb hstep) h hok

theorem expireAt_ok {bar : Bar} (hok : b.Ok) (h : expireAt cal bar b id = .ok b') : b'.Ok := by
  simp only [expireAt, bind_eq_ok] at h
  obtain ⟨w, hw, h⟩ := h
  split at h
  · rename_i hlive
    simp only [bind_eq_ok] at h
    obtain ⟨expired, -, h⟩ := h
    split at h
    · cases h
      refine hok.retire (requireOrder_ok hw) ?_ (by decide)
      intro hfilled
      rw [hfilled] at hlive
      simp [working] at hlive
    · cases h
      exact hok
  · cases h
    exact hok

/-! ## The calls -/

theorem fillStopInsideEntryBar_ok (hok : b.Ok)
    (h : b.fillStopInsideEntryBar A.exact cal id = .ok b') : b'.Ok := by
  simp only [fillStopInsideEntryBar, bind_eq_ok] at h
  obtain ⟨w, -, h⟩ := h
  split at h
  · split at h
    · cases h
      exact hok
    · simp only [bind_eq_ok] at h
      obtain ⟨regular, -, h⟩ := h
      split at h
      · cases h
        exact hok
      · split at h
        · split at h
          · cases h
            exact hok
          · simp only [bind_eq_ok, pure_eq_ok] at h
            obtain ⟨price, -, r, hr, rfl⟩ := h
            exact fill_ok hok hr
        · cases h
          exact hok
  · cases h
    exact hok

theorem validate_entry {o : VOrder} {u : Unit} (h : b.validate o = .ok u) (p : String)
    (hp : o.parent = some p) :
    ∃ e, b.orders.get p = some e ∧ e.order.instr = o.instr ∧ e.order.side ≠ o.side := by
  simp only [validate, bind_eq_ok] at h
  obtain ⟨_, -, _, -, _, -, _, -, _, -, _, -, h⟩ := h
  rw [hp] at h
  cases he : b.orders.get p with
  | none => simp [he] at h
  | some e =>
      simp only [he, refuseIf_eq_ok, not_or, not_not] at h
      exact ⟨e, rfl, h⟩

theorem submit_ok {o : VOrder} {clock : Clock} {ack : Ack} (hok : b.Ok)
    (h : b.submit A.exact cal o clock = .ok (b', ack)) : b'.Ok := by
  simp only [submit, bind_eq_ok] at h
  obtain ⟨_, -, b₁, hexpire, _, hvalid, h⟩ := h
  have hok₁ := expireDue_ok hok hexpire
  cases hold : b₁.orders.get o.id with
  | some existing =>
      simp only [hold, bind_eq_ok, pure_eq_ok] at h
      obtain ⟨_, -, a, -, h⟩ := h
      cases h
      exact hok₁
  | none =>
      simp only [hold, bind_eq_ok] at h
      obtain ⟨t, -, h⟩ := h
      have hadd : ∀ s : OrderState, s ≠ .filled → (b₁.setOrder o.id ⟨o, s, .zero, t, false⟩).Ok :=
        fun s hs => Ok.add (w := ⟨o, s, .zero, t, false⟩) hok₁ hold rfl hs (validate_entry hvalid)
      split at h
      · simp only [bind_eq_ok, pure_eq_ok] at h
        obtain ⟨a, -, h⟩ := h
        cases h
        exact hadd .rejected (by decide)
      · simp only [bind_eq_ok, pure_eq_ok] at h
        obtain ⟨b₂, hstop, a, -, h⟩ := h
        cases h
        exact fillStopInsideEntryBar_ok (hadd .accepted (by decide)) hstop

theorem cancel_ok {clock : Clock} {ack : Ack} (hok : b.Ok)
    (h : b.cancel cal id clock = .ok (b', ack)) : b'.Ok := by
  simp only [cancel, bind_eq_ok] at h
  obtain ⟨b₁, hexpire, w, hw, h⟩ := h
  have hok₁ := expireDue_ok hok hexpire
  split at h
  iterate 4
    · simp only [bind_eq_ok, pure_eq_ok] at h
      obtain ⟨a, -, h⟩ := h
      cases h
      exact hok₁
  · rename_i hlive _ _
    simp only [bind_eq_ok, pure_eq_ok] at h
    obtain ⟨t, -, a, -, h⟩ := h
    cases h
    exact hok₁.retire (requireOrder_ok hw) hlive (by decide)

theorem replaceBegin_ok {q : Option Money} {clock : Clock} {start : Begin} (hok : b.Ok)
    (h : b.replaceBegin cal id q clock = .ok (b', start)) : b'.Ok ∧ ∀ r, start = .go r →
      ∃ w, b'.requireOrder id = .ok w ∧ w.state ≠ .filled ∧
        w.filled.val ≤ (q.getD w.order.quantity).val := by
  simp only [replaceBegin, bind_eq_ok] at h
  obtain ⟨b₁, hexpire, w, hw, h⟩ := h
  have hok₁ := expireDue_ok hok hexpire
  have hdone : ∀ {x : R Ack}, (do pure (b₁, Begin.done (← x)) : R (Book × Begin)) = .ok (b', start) →
      b'.Ok ∧ ∀ r, start = .go r → ∃ w, b'.requireOrder id = .ok w ∧ w.state ≠ .filled ∧
        w.filled.val ≤ (q.getD w.order.quantity).val := by
    intro x hx
    simp only [bind_eq_ok, pure_eq_ok] at hx
    obtain ⟨a, -, hx⟩ := hx
    cases hx
    exact ⟨hok₁, by simp⟩
  split at h
  · exact hdone h
  · rename_i hlive
    split at h
    · exact hdone h
    · rename_i hlt
      split at h
      · exact hdone h
      · split at h
        · exact hdone h
        · cases h
          rw [Money.lt_iff, not_lt] at hlt
          exact ⟨hok₁, fun _ _ => ⟨w, hw, working_ne_filled hlive, hlt⟩⟩

/-- The replacement is the same order but for its quantity, its prices and its allocation. -/
theorem replacement_ok {o o' : VOrder} {changes : OrderChanges}
    (h : replacement o changes = .ok o') : o'.id = o.id ∧ o'.instr = o.instr ∧ o'.side = o.side ∧
      o'.parent = o.parent ∧ o'.quantity = changes.newQuantity.getD o.quantity := by
  simp only [replacement, bind_eq_ok] at h
  obtain ⟨allocs, -, _, -, h⟩ := h
  split at h
  · simp at h
  · simp only [bind_eq_ok, pure_eq_ok] at h
    obtain ⟨_, -, _, -, _, -, _, -, rfl⟩ := h
    exact ⟨rfl, rfl, rfl, rfl, rfl⟩

theorem replace_ok {changes : OrderChanges} {clock : Clock} {ack : Ack} (hok : b.Ok)
    (h : b.replace cal id changes clock = .ok (b', ack)) : b'.Ok := by
  simp only [replace, bind_eq_ok] at h
  obtain ⟨⟨b₁, start⟩, hbegin, h⟩ := h
  obtain ⟨hok₁, hgo⟩ := replaceBegin_ok hok hbegin
  cases start with
  | done a =>
      cases h
      exact hok₁
  | go q =>
      obtain ⟨w, hw, hlive, hle⟩ := hgo q rfl
      simp only [hw, bind_eq_ok] at h
      obtain ⟨_, hsame, h⟩ := h
      cases hsame
      cases hnew : replacement w.order changes with
      | error e =>
          simp only [hnew, bind_eq_ok, pure_eq_ok] at h
          obtain ⟨a, -, h⟩ := h
          cases h
          exact hok₁
      | ok o =>
          simp only [hnew, replaceCommit, hw, bind_eq_ok, pure_eq_ok] at h
          obtain ⟨_, hsame, t, -, a, -, h⟩ := h
          cases hsame
          cases h
          obtain ⟨hid, hinstr, hside, hparent, hquantity⟩ := replacement_ok hnew
          refine hok₁.amend (requireOrder_ok hw) ⟨hid, hinstr, hside, hparent, rfl, ?_, ?_⟩
          · rw [hquantity]
            exact hle
          · rw [← Money.eqNum_iff]
            split <;> simp_all

theorem executionBase_amends {bar : Bar} {w' : Working} {price : Option Money}
    (h : b.executionBase cal w bar = .ok (w', price)) : ∃ t, w' = { w with triggered := t } := by
  unfold executionBase at h
  split at h
  · simp only [bind_eq_ok] at h
    obtain ⟨opening, -, h⟩ := h
    split at h <;> cases h <;> exact ⟨w.triggered, rfl⟩
  · split at h
    · cases h
      exact ⟨w.triggered, rfl⟩
    · cases h
      exact ⟨w.triggered, rfl⟩
    · simp at h
    · cases h
      exact ⟨w.triggered, rfl⟩
    · simp at h
    · simp only [bind_eq_ok, pure_eq_ok] at h
      obtain ⟨⟨t, base⟩, -, h⟩ := h
      cases h
      exact ⟨t, rfl⟩
    · simp at h

theorem executionPrice_amends {bar : Bar} {w' : Working} {price : Option Money}
    (h : b.executionPrice cal w bar = .ok (w', price)) : ∃ t, w' = { w with triggered := t } := by
  unfold executionPrice at h
  split at h
  · cases h
    exact ⟨w.triggered, rfl⟩
  · simp only [bind_eq_ok] at h
    obtain ⟨⟨w₁, base⟩, hbase, h⟩ := h
    have hw₁ := executionBase_amends hbase
    cases base with
    | none =>
        cases h
        exact hw₁
    | some base =>
        simp only [bind_eq_ok, pure_eq_ok] at h
        obtain ⟨p, -, h⟩ := h
        cases h
        exact hw₁

theorem candidates_ok {bar : Bar} {ids : List String} {choices : List (String × Money)} (hok : b.Ok)
    (h : candidates cal bar b ids = .ok (b', choices)) : b'.Ok := by
  refine foldlM_invariant (P := fun acc : Book × List (String × Money) => acc.1.Ok)
    (fun acc id acc' _ hstep hacc => ?_) h hok
  simp only [bind_eq_ok, pure_eq_ok] at hstep
  obtain ⟨w, hw, ⟨w', price⟩, hprice, rfl⟩ := hstep
  obtain ⟨t, rfl⟩ := executionPrice_amends hprice
  have hw := requireOrder_ok hw
  exact hacc.amend hw ⟨rfl, rfl, rfl, rfl, rfl, hacc.le id w hw, hacc.done id w hw⟩

theorem fillAll_ok {t : Ts} {choices : List (String × Money)} {out : List Nat} (hok : b.Ok)
    (h : b.fillAll A.exact t choices = .ok (b', out)) : b'.Ok := by
  refine foldlM_invariant (P := fun acc : Book × List Nat => acc.1.Ok)
    (fun acc choice acc' _ hstep hacc => ?_) h hok
  simp only [bind_eq_ok, pure_eq_ok] at hstep
  obtain ⟨r, hr, rfl⟩ := hstep
  exact fill_ok hacc hr

/-- Bars seen do not enter the account. -/
theorem Ok.seen (hok : b.Ok) (bars : OMap Instrument Bar) : { b with lastBars := bars }.Ok :=
  ⟨hok.ids, hok.filled, hok.le, hok.done, hok.owned, hok.numbered, hok.fillIds, hok.position,
    hok.entries, hok.exits⟩

theorem processBar_ok {bar : Option Bar} {out : List Nat} (hok : b.Ok)
    (h : b.processBar A.exact cal bar = .ok (b', out)) : b'.Ok := by
  simp only [processBar, bind_eq_ok] at h
  obtain ⟨_, -, h⟩ := h
  cases bar with
  | none => simp at h
  | some bar =>
      simp only [bind_eq_ok] at h
      obtain ⟨_, -, _, -, h⟩ := h
      split at h
      · simp only [bind_eq_ok, pure_eq_ok] at h
        obtain ⟨_, -, h⟩ := h
        cases h
        exact hok
      · simp only [bind_eq_ok] at h
        obtain ⟨_, -, b₁, hexpire, regular, -, h⟩ := h
        have hok₁ : b₁.Ok :=
          foldlM_invariant (fun _ _ _ _ hstep hb => expireAt_ok hb hstep) hexpire hok
        split at h
        · cases h
          exact hok₁.seen _
        · simp only [bind_eq_ok, pure_eq_ok] at h
          obtain ⟨⟨b₂, choices⟩, hchoices, ⟨b₃, out'⟩, hfills, h⟩ := h
          cases h
          exact (fillAll_ok (candidates_ok hok₁ hchoices) hfills).seen _

end Book

/-! ## Runs -/

theorem step_ok {cal : Calendars} {b b' : Book} {call : Call} (hok : b.Ok)
    (h : step A.exact cal b call = .ok b') : b'.Ok := by
  cases call with
  | connect =>
      cases h
      exact ⟨hok.ids, hok.filled, hok.le, hok.done, hok.owned, hok.numbered, hok.fillIds,
        hok.position, hok.entries, hok.exits⟩
  | submit o clock =>
      obtain ⟨r, hr, rfl⟩ := map_eq_ok.mp h
      exact Book.submit_ok hok hr
  | cancel id clock =>
      obtain ⟨r, hr, rfl⟩ := map_eq_ok.mp h
      exact Book.cancel_ok hok hr
  | replace id changes clock =>
      obtain ⟨r, hr, rfl⟩ := map_eq_ok.mp h
      exact Book.replace_ok hok hr
  | processBar bar =>
      obtain ⟨r, hr, rfl⟩ := map_eq_ok.mp h
      exact Book.processBar_ok hok hr

theorem run_ok {cal : Calendars} {b b' : Book} {calls : List Call} (hok : b.Ok)
    (h : run A.exact cal b calls = .ok b') : b'.Ok :=
  foldlM_invariant (fun _ _ _ _ hstep hb => step_ok hb hstep) h hok

/-! ## A run without rounding is a run of the program -/

section Refuses

variable {B : Arith} (le : A.Le B) (cal : Calendars) (b : Book)

include le

theorem Book.bracketOpenQuantity_refuses (parent : String) :
    Refuses (b.bracketOpenQuantity A parent) (b.bracketOpenQuantity B parent) := by
  unfold Book.bracketOpenQuantity
  refine .bind .refl fun p _ => ?_
  refine (Refuses.foldlM (fun s (w : Working) => Ops.add_refuses le s w.filled) _ _).bind fun exited _ => ?_
  exact (Ops.sub_refuses le _ _).bind fun _ _ => .refl

theorem Book.exitQuantity_refuses (o : VOrder) (parent : String) (q : Money) :
    Refuses (b.exitQuantity A o parent q) (b.exitQuantity B o parent q) := by
  unfold Book.exitQuantity
  refine (b.bracketOpenQuantity_refuses le parent).bind fun opened _ => ?_
  exact .bind (.ite (fun _ => Ops.abs_refuses le _) fun _ => .refl) fun _ _ => .refl

theorem Book.fillQuantity_refuses (w : Working) :
    Refuses (b.fillQuantity A w) (b.fillQuantity B w) := by
  unfold Book.fillQuantity
  refine (Ops.sub_refuses le _ _).bind fun left _ => ?_
  split
  · exact .refl
  · exact b.exitQuantity_refuses le _ _ _

theorem Book.updatePosition_refuses (f : VFill) :
    Refuses (b.updatePosition A f) (b.updatePosition B f) := by
  unfold Book.updatePosition
  refine .bind (.ite (fun _ => .refl) fun _ => Ops.neg_refuses le _) fun change _ => ?_
  exact (Ops.add_refuses le _ _).bind fun _ _ => .refl

theorem Book.fill_refuses (id : String) (price : Money) (t : Ts) :
    Refuses (b.fill A id price t) (b.fill B id price t) := by
  unfold Book.fill
  refine .bind .refl fun w _ => .ite (fun _ => .refl) fun _ => ?_
  refine (b.fillQuantity_refuses le w).bind fun q _ => .ite (fun _ => .refl) fun _ => ?_
  refine .bind .refl fun f _ => (Ops.add_refuses le _ _).bind fun filled _ => ?_
  exact (Book.updatePosition_refuses le _ _).bind fun _ _ => .refl

theorem Book.fillStopInsideEntryBar_refuses (id : String) :
    Refuses (b.fillStopInsideEntryBar A cal id) (b.fillStopInsideEntryBar B cal id) := by
  unfold Book.fillStopInsideEntryBar
  refine .bind .refl fun w _ => ?_
  dsimp only
  split
  · refine .ite (fun _ => .refl) fun _ => .bind .refl fun _ _ => .ite (fun _ => .refl) fun _ => ?_
    split
    · split
      · exact .refl
      · exact .bind .refl fun price _ => (b.fill_refuses le _ _ _).bind fun _ _ => .refl
    · exact .refl
  · exact .refl

theorem Book.submit_refuses (o : VOrder) (clock : Clock) :
    Refuses (b.submit A cal o clock) (b.submit B cal o clock) := by
  unfold Book.submit
  refine .bind .refl fun _ _ => .bind .refl fun b₁ _ => .bind .refl fun _ _ => ?_
  split
  · exact .refl
  · refine .bind .refl fun t _ => ?_
    split
    · exact .refl
    · exact (Book.fillStopInsideEntryBar_refuses le cal _ _).bind fun _ _ => .refl

theorem Book.processBar_refuses (bar : Option Bar) :
    Refuses (b.processBar A cal bar) (b.processBar B cal bar) := by
  unfold Book.processBar
  refine .bind .refl fun _ _ => ?_
  split
  · exact .refl
  · refine .bind .refl fun _ _ => .bind .refl fun _ _ => ?_
    dsimp only
    split
    · exact .refl
    · refine .bind .refl fun _ _ => .bind .refl fun b₁ _ => .bind .refl fun _ _ => ?_
      refine .ite (fun _ => .refl) fun _ => .bind .refl fun choices _ => ?_
      refine .bind (Refuses.foldlM (fun acc choice => ?_) _ _) fun _ _ => .refl
      exact (acc.1.fill_refuses le _ _ _).bind fun _ _ => .refl

theorem run_refuses (calls : List Call) : Refuses (run A cal b calls) (run B cal b calls) := by
  refine Refuses.foldlM (fun b call => ?_) calls b
  cases call with
  | submit o clock => exact (b.submit_refuses le cal o clock).map
  | processBar bar => exact (b.processBar_refuses le cal bar).map
  | _ => exact .refl

end Refuses

end TradeEngine.Sim
