import TradeEngine.Lib.Cover
import TradeEngine.Ledger.Lemmas.Keys
import TradeEngine.Ledger.Lemmas.Lots
import TradeEngine.Oms.Structures

/-!
# The cover check is sound

What `uncovered_calls` books of an account, and what its matching of short calls to long calls leaves
uncovered: at no expiry are more shares due than the long calls bring in and the check reports.
-/

namespace TradeEngine.Oms

open Lib
open Sim (dmin dmax)

variable {A : Arith}

def expiryDay (c : OptionContract) : ℤ := c.expiry.numDaysFromCe

/-- Contracts that expire at `t` or later. -/
def unitsFrom (t : ℤ) (l : List (OptionContract × Money)) : ℚ :=
  (l.map fun x => if t ≤ expiryDay x.1 then x.2.val else 0).sum

theorem unitsFrom_cons (t : ℤ) (x : OptionContract × Money) (l : List (OptionContract × Money)) :
    unitsFrom t (x :: l) = (if t ≤ expiryDay x.1 then x.2.val else 0) + unitsFrom t l := by
  simp [unitsFrom]

theorem unitsFrom_nonneg {l : List (OptionContract × Money)} (hl : ∀ y ∈ l, 0 ≤ y.2.val) (t : ℤ) :
    0 ≤ unitsFrom t l := by
  unfold unitsFrom
  refine List.sum_nonneg fun x hx => ?_
  obtain ⟨y, hy, rfl⟩ := List.mem_map.mp hx
  split
  · exact hl y hy
  · exact le_rfl

/-! ## Matching -/

theorem dmin_le (a b : Money) : (dmin a b).val ≤ a.val ∧ (dmin a b).val ≤ b.val := by
  unfold dmin
  split
  · rename_i h
    exact ⟨(Money.lt_iff.mp h).le, le_rfl⟩
  · rename_i h
    exact ⟨le_rfl, not_lt.mp fun hlt => h (Money.lt_iff.mpr hlt)⟩

theorem dmin_nonneg {a b : Money} (ha : 0 ≤ a.val) (hb : 0 ≤ b.val) : 0 ≤ (dmin a b).val := by
  unfold dmin
  split <;> assumption

theorem dmin_choice (a b : Money) : dmin a b = a ∨ dmin a b = b := by
  unfold dmin
  split
  · exact .inr rfl
  · exact .inl rfl

theorem outlasts_iff {long short : OptionContract} :
    outlasts long short = true ↔ expiryDay short ≤ expiryDay long := decide_eq_true_iff

/-- What a short call takes comes from long calls that expire no earlier. -/
theorem takeCover_spec {short : OptionContract} {l l' : List (OptionContract × Money)}
    {need need' : Money} (h : takeCover A.exact short need l = .ok (need', l')) (hneed : 0 ≤ need.val)
    (hl : ∀ y ∈ l, 0 ≤ y.2.val) :
    0 ≤ need'.val ∧ (∀ y ∈ l', 0 ≤ y.2.val) ∧ (∀ t, unitsFrom t l' ≤ unitsFrom t l) ∧
      ∀ t, t ≤ expiryDay short → unitsFrom t l - unitsFrom t l' = need.val - need'.val := by
  induction l generalizing need need' l' with
  | nil =>
      cases h
      exact ⟨hneed, hl, fun _ => le_rfl, fun _ _ => by rw [sub_self, sub_self]⟩
  | cons y l ih =>
      obtain ⟨long, free⟩ := y
      have hfree : 0 ≤ free.val := hl _ List.mem_cons_self
      have hrest : ∀ y ∈ l, 0 ≤ y.2.val := fun y hy => hl y (List.mem_cons_of_mem _ hy)
      unfold takeCover at h
      split at h
      · cases h
        exact ⟨hneed, hl, fun _ => le_rfl, fun _ _ => by rw [sub_self, sub_self]⟩
      · split at h
        · rename_i hlong
          simp only [bind_eq_ok, pure_eq_ok, Prod.mk.injEq] at h
          obtain ⟨free', hfree', rest, hrest', ⟨need₁, l₁⟩, hcall, rfl, rfl⟩ := h
          have hfree' := Ops.exact_sub hfree'
          have hrest' := Ops.exact_sub hrest'
          have hused := dmin_le need free
          have hused0 := dmin_nonneg hneed hfree
          obtain ⟨hn, hl', hle, hexact⟩ := ih hcall (by linarith) hrest
          refine ⟨hn, fun y hy => ?_, fun t => ?_, fun t ht => ?_⟩
          · rcases List.mem_cons.mp hy with rfl | hy
            · dsimp only
              linarith
            · exact hl' y hy
          · rw [unitsFrom_cons, unitsFrom_cons]
            have := hle t
            split <;> linarith
          · -- the long call expires no earlier than the short one, so it counts at `t` too
            rw [Bool.and_eq_true, outlasts_iff] at hlong
            have hlasts : t ≤ expiryDay long := le_trans ht hlong.1
            rw [unitsFrom_cons, unitsFrom_cons, if_pos hlasts, if_pos hlasts]
            have := hexact t ht
            linarith
        · simp only [bind_eq_ok, pure_eq_ok, Prod.mk.injEq] at h
          obtain ⟨⟨need₁, l₁⟩, hcall, rfl, rfl⟩ := h
          obtain ⟨hn, hl', hle, hexact⟩ := ih hcall hneed hrest
          refine ⟨hn, fun y hy => ?_, fun t => ?_, fun t ht => ?_⟩
          · rcases List.mem_cons.mp hy with rfl | hy
            · exact hfree
            · exact hl' y hy
          · rw [unitsFrom_cons, unitsFrom_cons]
            have := hle t
            linarith
          · rw [unitsFrom_cons, unitsFrom_cons]
            have := hexact t ht
            linarith

/-- The short calls that expire from `t` on are covered by what the long calls gave up from `t` on, or
counted as uncovered. -/
theorem coverAll_spec {m : Int} {shorts free free' : List (OptionContract × Money)} {acc acc' : Money}
    (hm : 0 < m) (hmult : ∀ s ∈ shorts, s.1.multiplier = m) (hs : ∀ s ∈ shorts, 0 ≤ s.2.val)
    (hfree : ∀ y ∈ free, 0 ≤ y.2.val)
    (h : shorts.foldlM (coverOne A.exact) (acc, free) = .ok (acc', free')) :
    (∀ y ∈ free', 0 ≤ y.2.val) ∧
      ∀ t, m * unitsFrom t shorts ≤ acc'.val - acc.val + m * (unitsFrom t free - unitsFrom t free') := by
  have hm' : (0 : ℚ) < m := by exact_mod_cast hm
  induction shorts generalizing acc free with
  | nil =>
      cases h
      exact ⟨hfree, fun t => by simp [unitsFrom]⟩
  | cons s shorts ih =>
      simp only [List.foldlM_cons, bind_eq_ok] at h
      obtain ⟨⟨acc₁, free₁⟩, hone, h⟩ := h
      simp only [coverOne, bind_eq_ok, pure_eq_ok] at hone
      obtain ⟨⟨need, free₂⟩, htake, shares, hshares, total, htotal, hone⟩ := hone
      cases hone
      obtain ⟨hneed, hfree₁, hle, hexact⟩ := takeCover_spec htake (hs s List.mem_cons_self) hfree
      obtain ⟨hfree', hrest⟩ := ih (fun x hx => hmult x (List.mem_cons_of_mem _ hx))
        (fun x hx => hs x (List.mem_cons_of_mem _ hx)) hfree₁ h
      refine ⟨hfree', fun t => ?_⟩
      have hrest := hrest t
      have hacc : acc₁.val = acc.val + need.val * m := by
        rw [Ops.exact_add htotal, Ops.exact_mulI hshares, hmult s List.mem_cons_self]
      have hle := mul_le_mul_of_nonneg_left (hle t) hm'.le
      have hneed' := mul_nonneg hneed hm'.le
      rw [unitsFrom_cons]
      split
      · rename_i ht
        have hgiven : unitsFrom t free = unitsFrom t free₂ + (s.2.val - need.val) := by
          linarith [hexact t ht]
        rw [hgiven]
        linarith
      · linarith

/-- What the check reports of one underlying is enough, with the long calls, at every expiry. -/
theorem uncoveredOn_spec {x : Exposure} {u : String} {r : String × Money × Money} {m : Int}
    (h : uncoveredOn A.exact x u = .ok r) (hm : 0 < m)
    (hmult : ∀ s ∈ callsOn u x.shorts, s.1.multiplier = m)
    (hs : ∀ s ∈ callsOn u x.shorts, 0 ≤ s.2.val) (hl : ∀ y ∈ callsOn u x.longs, 0 ≤ y.2.val) :
    r.1 = u ∧ r.2.2 = dmax ((x.shares.get u).getD .zero) .zero ∧
      ∀ t, m * unitsFrom t (callsOn u x.shorts) ≤ r.2.1.val + m * unitsFrom t (callsOn u x.longs) := by
  simp only [uncoveredOn, bind_eq_ok, pure_eq_ok] at h
  obtain ⟨⟨uncovered, free⟩, hfold, rfl⟩ := h
  dsimp only
  refine ⟨rfl, rfl, fun t => ?_⟩
  have hperm := List.perm_insertionSort (fun a b => outlasts a.1 b.1 = true) (callsOn u x.shorts)
  obtain ⟨hfree, hcover⟩ := coverAll_spec hm (fun s hs' => hmult s (hperm.mem_iff.mp hs'))
    (fun s hs' => hs s (hperm.mem_iff.mp hs')) hl hfold
  have hunits : unitsFrom t ((callsOn u x.shorts).insertionSort fun a b => outlasts a.1 b.1 = true) =
      unitsFrom t (callsOn u x.shorts) := (hperm.map _).sum_eq
  have hcover := hcover t
  have hm' : (0 : ℚ) < m := by exact_mod_cast hm
  have hleft := mul_nonneg hm'.le (unitsFrom_nonneg hfree t)
  rw [hunits, Money.val_zero, mul_sub] at hcover
  linarith

/-! ## The check is tight -/

/-- A short call that still needs cover has used up every long call that outlasts it. -/
theorem takeCover_exhausts {short : OptionContract} {l l' : List (OptionContract × Money)}
    {need need' : Money} (h : takeCover A.exact short need l = .ok (need', l')) (hneed : 0 ≤ need.val)
    (hl : ∀ y ∈ l, 0 ≤ y.2.val) (hleft : 0 < need'.val) : unitsFrom (expiryDay short) l' = 0 := by
  induction l generalizing need need' l' with
  | nil =>
      cases h
      rfl
  | cons y l ih =>
      obtain ⟨long, free⟩ := y
      have hfree : 0 ≤ free.val := hl _ List.mem_cons_self
      have hrest : ∀ y ∈ l, 0 ≤ y.2.val := fun y hy => hl y (List.mem_cons_of_mem _ hy)
      unfold takeCover at h
      split at h
      · rename_i hzero
        cases h
        have hmant : need.mantissa = 0 := beq_iff_eq.mp hzero
        rw [Money.val_pos_iff, hmant] at hleft
        exact absurd hleft (lt_irrefl _)
      · split at h
        · simp only [bind_eq_ok, pure_eq_ok, Prod.mk.injEq] at h
          obtain ⟨free', hfree', rest, hrest', ⟨need₁, l₁⟩, hcall, rfl, rfl⟩ := h
          have hfree' := Ops.exact_sub hfree'
          have hrest' := Ops.exact_sub hrest'
          have hused := dmin_le need free
          have hrest0 : 0 ≤ rest.val := by linarith
          have hgone := ih hcall hrest0 hrest hleft
          -- it needs more after this long call, so this one was used up
          have hless : need₁.val ≤ rest.val := by
            obtain ⟨-, -, hle, hexact⟩ := takeCover_spec hcall hrest0 hrest
            linarith [hle (expiryDay short), hexact (expiryDay short) le_rfl]
          have hall : (dmin need free).val = free.val := by
            rcases dmin_choice need free with hd | hd
            · rw [hd] at hrest'
              linarith
            · rw [hd]
          rw [unitsFrom_cons, hgone, add_zero]
          dsimp only
          rw [hfree', hall, sub_self, ite_self]
        · rename_i hlong
          simp only [bind_eq_ok, pure_eq_ok, Prod.mk.injEq] at h
          obtain ⟨⟨need₁, l₁⟩, hcall, rfl, rfl⟩ := h
          rw [unitsFrom_cons, ih hcall hneed hrest hleft, add_zero]
          dsimp only
          split
          · rename_i hlasts
            have hempty : ¬ 0 < free.mantissa := fun hpos => hlong (by simp [outlasts_iff.mpr hlasts, hpos])
            rw [← Money.val_pos_iff, not_lt] at hempty
            exact le_antisymm hempty hfree
          · rfl

/-- What is counted as uncovered is short at some time. -/
theorem coverAll_tight {m : Int} {shorts free free' : List (OptionContract × Money)} {acc acc' : Money}
    (hm : 0 < m) (hmult : ∀ s ∈ shorts, s.1.multiplier = m) (hs : ∀ s ∈ shorts, 0 ≤ s.2.val)
    (hfree : ∀ y ∈ free, 0 ≤ y.2.val)
    (hsorted : shorts.Pairwise fun a b => expiryDay b.1 ≤ expiryDay a.1)
    (h : shorts.foldlM (coverOne A.exact) (acc, free) = .ok (acc', free')) :
    0 ≤ acc'.val - acc.val ∧ (acc'.val - acc.val = 0 ∨
      ∃ t, acc'.val - acc.val ≤ m * (unitsFrom t shorts - unitsFrom t free)) := by
  have hm' : (0 : ℚ) < m := by exact_mod_cast hm
  induction shorts generalizing acc free with
  | nil =>
      cases h
      exact ⟨by rw [sub_self], .inl (sub_self _)⟩
  | cons s shorts ih =>
      simp only [List.foldlM_cons, bind_eq_ok] at h
      obtain ⟨⟨acc₁, free₁⟩, hone, h⟩ := h
      simp only [coverOne, bind_eq_ok, pure_eq_ok] at hone
      obtain ⟨⟨need, free₂⟩, htake, shares, hshares, total, htotal, hone⟩ := hone
      cases hone
      have hs0 := hs s List.mem_cons_self
      obtain ⟨hneed, hfree₁, hle, hexact⟩ := takeCover_spec htake hs0 hfree
      obtain ⟨hgain, hrest⟩ := ih (fun x hx => hmult x (List.mem_cons_of_mem _ hx))
        (fun x hx => hs x (List.mem_cons_of_mem _ hx)) hfree₁ hsorted.of_cons h
      have hacc : acc₁.val = acc.val + need.val * m := by
        rw [Ops.exact_add htotal, Ops.exact_mulI hshares, hmult s List.mem_cons_self]
      have hneed' := mul_nonneg hneed hm'.le
      refine ⟨by linarith, ?_⟩
      have hnone : acc'.val - acc₁.val = 0 → acc'.val - acc.val = 0 ∨
          ∃ t, acc'.val - acc.val ≤ m * (unitsFrom t (s :: shorts) - unitsFrom t free) := by
        intro hzero
        rcases hneed.eq_or_lt with hn | hn
        · refine .inl ?_
          rw [← hn, zero_mul] at hacc
          linarith
        · -- this short call is the last one left short: every long call that outlasts it is used up
          refine .inr ⟨expiryDay s.1, ?_⟩
          have hgone := takeCover_exhausts htake hs0 hfree hn
          have hused := hexact (expiryDay s.1) le_rfl
          have hlater := unitsFrom_nonneg (fun y hy => hs y (List.mem_cons_of_mem _ hy)) (expiryDay s.1)
          rw [hgone, sub_zero] at hused
          rw [unitsFrom_cons, if_pos le_rfl, hused]
          calc acc'.val - acc.val = m * need.val := by linarith
            _ ≤ m * (s.2.val + unitsFrom (expiryDay s.1) shorts - (s.2.val - need.val)) :=
                mul_le_mul_of_nonneg_left (by linarith) hm'.le
      rcases hrest with hzero | ⟨t, ht⟩
      · exact hnone hzero
      · by_cases hts : t ≤ expiryDay s.1
        · refine .inr ⟨t, ?_⟩
          have hused := hexact t hts
          rw [unitsFrom_cons, if_pos hts]
          have hsplit : (m : ℚ) * (s.2.val + unitsFrom t shorts - unitsFrom t free) =
              m * need.val + m * (unitsFrom t shorts - unitsFrom t free₂) := by
            rw [← mul_add]
            congr 1
            linarith
          rw [hsplit]
          linarith
        · -- no short call lasts that long
          refine hnone (le_antisymm ?_ hgain)
          have hshort : unitsFrom t shorts = 0 := by
            unfold unitsFrom
            refine List.sum_eq_zero fun y hy => ?_
            obtain ⟨x, hx, rfl⟩ := List.mem_map.mp hy
            exact if_neg fun htx => hts (htx.trans (List.rel_of_pairwise_cons hsorted hx))
          have hlong := mul_nonneg hm'.le (unitsFrom_nonneg hfree₁ t)
          rw [hshort, zero_sub, mul_neg] at ht
          linarith

/-- Calls with their expiries, as demands or supplies of contracts. -/
def spans (l : List (OptionContract × Money)) : List (ℤ × ℚ) :=
  l.map fun y => (expiryDay y.1, y.2.val)

theorem dueFrom_spans (t : ℤ) (l : List (OptionContract × Money)) :
    dueFrom t (spans l) = unitsFrom t l := by
  rw [dueFrom, spans, List.map_map, unitsFrom]
  rfl

theorem forall_spans {P : ℚ → Prop} {l : List (OptionContract × Money)}
    (h : ∀ y ∈ l, P y.2.val) : ∀ y ∈ spans l, P y.2 := by
  intro y hy
  obtain ⟨x, hx, rfl⟩ := List.mem_map.mp hy
  exact h x hx

/-- The short calls are matched latest expiry first. -/
theorem sorted_shorts (l : List (OptionContract × Money)) :
    (l.insertionSort fun a b => outlasts a.1 b.1 = true).Pairwise
      fun a b => expiryDay b.1 ≤ expiryDay a.1 := by
  have htotal : Std.Total fun a b : OptionContract × Money => outlasts a.1 b.1 = true :=
    ⟨fun a b => (le_total (expiryDay b.1) (expiryDay a.1)).imp outlasts_iff.mpr outlasts_iff.mpr⟩
  have htrans : IsTrans (OptionContract × Money) fun a b => outlasts a.1 b.1 = true :=
    ⟨fun a b c hab hbc => outlasts_iff.mpr ((outlasts_iff.mp hbc).trans (outlasts_iff.mp hab))⟩
  have hsorted := List.pairwise_insertionSort
    (fun a b : OptionContract × Money => outlasts a.1 b.1 = true) l
  refine List.Pairwise.imp ?_ hsorted
  intro a b hab
  exact outlasts_iff.mp hab

/-- The figure of one underlying is the least number of contracts that an assignment leaves, times
their multiplier. -/
theorem uncoveredOn_least {x : Exposure} {u : String} {r : String × Money × Money} {m : Int}
    (S : AddSubgroup ℚ) (h : uncoveredOn A.exact x u = .ok r)
    (hmult : ∀ s ∈ callsOn u x.shorts, s.1.multiplier = m)
    (hs : ∀ s ∈ callsOn u x.shorts, 0 ≤ s.2.val ∧ s.2.val ∈ S)
    (hl : ∀ y ∈ callsOn u x.longs, 0 ≤ y.2.val ∧ y.2.val ∈ S) :
    ∃ k, IsLeast (Set.range fun f : Assignment S (spans (callsOn u x.longs))
      (spans (callsOn u x.shorts)) => f.left) k ∧ r.2.1.val = m * k := by
  have hspec := fun hm => (uncoveredOn_spec (m := m) h hm hmult (fun s hs' => (hs s hs').1)
    fun y hy => (hl y hy).1).2.2
  simp only [uncoveredOn, bind_eq_ok, pure_eq_ok] at h
  obtain ⟨⟨uncovered, free⟩, hfold, rfl⟩ := h
  dsimp only at hspec ⊢
  have hsupply := forall_spans (P := fun q => 0 ≤ q ∧ q ∈ S) hl
  cases hshorts : callsOn u x.shorts with
  | nil =>
      rw [hshorts] at hfold
      cases hfold
      refine ⟨0, isLeast_left le_rfl hsupply (fun y hy => by cases hy) (fun t => ?_) (.inl rfl), by simp⟩
      rw [dueFrom_spans, dueFrom_spans, zero_add]
      exact unitsFrom_nonneg (fun y hy => (hl y hy).1) t
  | cons s rest =>
      rw [← hshorts]
      have hm : 0 < m := by
        rw [← hmult s (by rw [hshorts]; exact List.mem_cons_self)]
        exact s.1.multiplier_pos
      have hm' : (0 : ℚ) < m := by exact_mod_cast hm
      have hperm := List.perm_insertionSort (fun a b => outlasts a.1 b.1 = true) (callsOn u x.shorts)
      obtain ⟨hgain, hworst⟩ := coverAll_tight hm (fun y hy => hmult y (hperm.mem_iff.mp hy))
        (fun y hy => (hs y (hperm.mem_iff.mp hy)).1) (fun y hy => (hl y hy).1) (sorted_shorts _) hfold
      rw [Money.val_zero, sub_zero] at hgain hworst
      have hdemand := forall_spans (P := fun q => 0 ≤ q ∧ q ∈ S) hs
      refine ⟨uncovered.val / m, isLeast_left (div_nonneg hgain hm'.le) hsupply hdemand (fun t => ?_) ?_,
        by rw [mul_div_cancel₀ _ hm'.ne']⟩
      · rw [dueFrom_spans, dueFrom_spans, ← sub_le_iff_le_add, le_div_iff₀ hm']
        linarith [hspec hm t]
      · rcases hworst with hzero | ⟨t, ht⟩
        · exact .inl (by rw [hzero, zero_div])
        · refine .inr ⟨t, ?_⟩
          have hunits : unitsFrom t ((callsOn u x.shorts).insertionSort
              fun a b => outlasts a.1 b.1 = true) = unitsFrom t (callsOn u x.shorts) :=
            (hperm.map _).sum_eq
          rw [dueFrom_spans, dueFrom_spans, div_le_iff₀ hm', ← hunits]
          linarith

end TradeEngine.Oms
