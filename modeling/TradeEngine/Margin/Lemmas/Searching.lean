import TradeEngine.Margin.Lemmas.Greedy

/-!
# What the search finds

The memo holds nothing that a fresh search would not find, so an induction over the recursion is
enough: what holds of a grouping put together from placed candidates holds of every result.
-/

namespace TradeEngine.Margin

open Lib Prog

variable {n : Nat} {D : Type} [Decimal D] {x : Search n D}
  {Q : Book n → Int64 → Option (Grouping n D) → Prop}

/-- Every remembered grouping has the property, every remembered price is the formula's. -/
structure Remembers (x : Search n D) (Q : Book n → Int64 → Option (Grouping n D) → Prop) (c : Cache n D) :
    Prop where
  memo : ∀ e ∈ c.memo, Q e.1.1 e.1.2 e.2
  priced : ∀ e ∈ c.priced, strategyMargin e.1 x.market = .ok e.2

/-- The search stopped on its limit or on a refusal, and what it remembers stands. -/
def Halted (x : Search n D) (Q : Book n → Int64 → Option (Grouping n D) → Prop) (e : Stop) (c : Cache n D) :
    Prop := (e = .tooLarge ∨ ∃ m, e = .err m) ∧ Remembers x Q c

omit [Decimal D] in
theorem Triple.liftResult {α : Type} {r : Result α} {K : Cache n D → Prop} :
    Triple K (lift (Stop.lift r) : Searching n D α) (fun a c => r = .ok a ∧ K c)
      (fun e c => (e = .tooLarge ∨ ∃ m, e = .err m) ∧ K c) := by
  apply Triple.lift
  · intro a c ha hc
    exact ⟨lift_ok.mp ha, hc⟩
  · intro e c he hc
    cases r with
    | ok a => cases he
    | error m =>
        cases he
        exact ⟨Or.inr ⟨m, rfl⟩, hc⟩

theorem figures_triple (s : Matched n) :
    Triple (Remembers x Q) (x.figures s)
      (fun f c => strategyMargin s x.market = .ok f ∧ Remembers x Q c) (Halted x Q) := by
  refine Triple.bind (Q := fun priced c => (∀ e ∈ priced, strategyMargin e.1 x.market = .ok e.2) ∧
    Remembers x Q c) (Triple.gets fun c hc => ⟨hc.priced, hc⟩) ?_
  intro priced
  cases hfind : priced.find? (·.1 = s) with
  | some found =>
      apply Triple.pure
      intro c hc
      have hs : found.1 = s := by simpa using List.find?_some hfind
      exact ⟨hs ▸ hc.1 found (List.mem_of_find?_eq_some hfind), hc.2⟩
  | none =>
      refine Triple.bind (Triple.liftResult.weaken (fun c hc => hc.2) (fun _ _ h => h) fun _ _ h => h) ?_
      intro f
      refine Triple.bind (Q := fun _ c => strategyMargin s x.market = .ok f ∧ Remembers x Q c) ?_ ?_
      · apply Triple.modify
        rintro c ⟨hf, hc⟩
        refine ⟨hf, hc.memo, ?_⟩
        intro e he
        rcases List.mem_cons.mp he with rfl | he
        · exact hf
        · exact hc.priced e he
      · intro _
        exact Triple.pure fun c hc => hc

theorem strategyCost_triple (s : Matched n) :
    Triple (Remembers x Q) (x.strategyCost s)
      (fun cost c => (∃ f, strategyMargin s x.market = .ok f ∧ cost = Search.costOf s f) ∧ Remembers x Q c)
      (Halted x Q) := by
  refine Triple.bind (figures_triple s) ?_
  intro f
  apply Triple.pure
  rintro c ⟨hf, hc⟩
  exact ⟨⟨f, hf, rfl⟩, hc⟩

/-! ## Candidates -/

theorem mem_candidates {items : Book n} {lots : Int64} (hs : items.Sized) (hl : -2 ^ 63 < lots.toInt)
    {first : Fin n × Int64} {cands : List (Matched n)} (h : x.candidates items first lots = .ok cands)
    {m : Matched n} :
    m ∈ cands ↔ (∃ d ∈ x.defs, ∃ cs units, Instance x.market.ctx d cs units m ∧
        Full d cs items lots units ∧ first.1 ∈ cs) ∨
      0 < first.2.toInt ∧ m = long x.market.ctx first.1 first.2 := by
  simp only [Search.candidates, bind_eq_ok, pure_eq_ok] at h
  obtain ⟨found, hfound, rfl⟩ := h
  have hall := mapM_ok hfound
  rw [List.mem_append, List.mem_filter, List.mem_flatten]
  apply or_congr
  · constructor
    · rintro ⟨⟨ms, hms, hm⟩, hincl⟩
      obtain ⟨d, hd, hmatch⟩ := forall₂_right hall ms hms
      obtain ⟨cs, units, hinst, hfull⟩ := matchesOf_sound hs hl hmatch m hm
      obtain ⟨l, hmem, hl⟩ := List.any_eq_true.mp hincl
      refine ⟨d, hd, cs, units, hinst, hfull, ?_⟩
      rw [← hinst.contracts]
      exact List.mem_map.mpr ⟨l, hmem, by simpa using hl⟩
    · rintro ⟨d, hd, cs, units, hinst, hfull, hfirst⟩
      obtain ⟨ms, hms, hmatch⟩ := forall₂_left hall d hd
      obtain ⟨m', hm', hinst'⟩ := matchesOf_complete hs hl hmatch (Or.inl rfl) hinst.pos hinst.seated hfull
      cases hinst.unique hinst'
      refine ⟨⟨ms, hms, hm'⟩, ?_⟩
      rw [← hinst.contracts] at hfirst
      obtain ⟨l, hl, he⟩ := List.mem_map.mp hfirst
      exact List.any_eq_true.mpr ⟨l, hl, by simpa using he⟩
  · by_cases hq : 0 < first.2.toInt
    · simp [hq]
    · simp [hq]

/-- A candidate is a row that takes the first contract, and there is room for it. -/
theorem candidate_row {items : Book n} {lots : Int64} (hs : items.Sized) (hl : -2 ^ 63 < lots.toInt)
    {first : Fin n × Int64} (hfirst : first ∈ items.entries) {cands : List (Matched n)}
    (h : x.candidates items first lots = .ok cands) {m : Matched n} (hm : m ∈ cands) :
    Row x.market.ctx x.defs m ∧ Within items lots m ∧ m.legs ≠ [] := by
  rcases (mem_candidates hs hl h).mp hm with ⟨d, hd, cs, units, hinst, hfull, hc⟩ | ⟨hq, rfl⟩
  · refine ⟨.strategy hd hinst, hinst.within hfull.1, ?_⟩
    rintro hnil
    rw [← hinst.contracts, hnil] at hc
    cases hc
  · refine ⟨.long hq, ?_, by simp [long]⟩
    rw [← Book.qtyOf_of_mem hfirst] at hq ⊢
    exact Within.long hq

theorem items_size (x : Search n D) (b : Book n) : (x.items b).size = b.size := by
  simp [Book.size_eq_sum, Search.items]

theorem items_sized {b : Book n} (h : b.Sized) : (x.items b).Sized := by
  intro c
  simpa [Search.items] using h c

/-! ## The recursion -/

/-- What placing a candidate comes to, with `Q` of the grouping of what it leaves. -/
inductive Outcome (x : Search n D) (Q : Book n → Int64 → Option (Grouping n D) → Prop) (items : Book n)
    (lots : Int64) (m : Matched n) : Option (Grouping n D) → Prop
  | nothing {remaining : Book n} {next : Int64} (htake : items.take m.legs = .ok remaining)
      (hnext : next.toInt = lots.toInt - m.underlyingLots.toInt) (h : Q (x.items remaining) next none) :
      Outcome x Q items lots m none
  | grouped {remaining : Book n} {next : Int64} {rest : Grouping n D} {f : StrategyMargin n D} {cost : Cost D}
      (htake : items.take m.legs = .ok remaining)
      (hnext : next.toInt = lots.toInt - m.underlyingLots.toInt)
      (h : Q (x.items remaining) next (some rest)) (hf : strategyMargin m x.market = .ok f)
      (hcost : addCost (Search.costOf m f) rest.cost = .ok cost) :
      Outcome x Q items lots m (some ⟨cost, m :: rest.strategies, rest.left⟩)

def keepLess (found : Option (Grouping n D)) : Option (Grouping n D) → Option (Grouping n D)
  | none => found
  | some g => if found.all (g.cost < ·.cost) then some g else found

/-- `Q` holds of what the recursion puts together, if it holds of the parts. -/
structure Composes (x : Search n D) (Q : Book n → Int64 → Option (Grouping n D) → Prop) : Prop where
  done : ∀ {items : Book n} {lots : Int64} {cost : Cost D}, items.entries = [] →
    x.lotsCost lots = .ok cost → Q items lots (some ⟨cost, [], lots⟩)
  place : ∀ {items : Book n} {lots : Int64} {first : Fin n × Int64} {cands : List (Matched n)}
    {outcomes : List (Option (Grouping n D))}, items.Sized → -2 ^ 63 < lots.toInt →
    items.entries.head? = some first → x.candidates items first lots = .ok cands →
    List.Forall₂ (Outcome x Q items lots) cands outcomes → Q items lots (outcomes.foldl keepLess none)

variable {items : Book n} {lots : Int64}

theorem place_triple {best : Book n → Int64 → Searching n D (Option (Grouping n D))} {m : Matched n}
    (hm : Within items lots m)
    (hbest : ∀ remaining next, items.take m.legs = .ok remaining →
      next.toInt = lots.toInt - m.underlyingLots.toInt →
      Triple (Remembers x Q) (best (x.items remaining) next)
        (fun r c => Q (x.items remaining) next r ∧ Remembers x Q c) (Halted x Q))
    (found : Option (Grouping n D)) :
    Triple (Remembers x Q) (x.place best items lots found m)
      (fun r c => (∃ o, Outcome x Q items lots m o ∧ r = keepLess found o) ∧ Remembers x Q c) (Halted x Q) := by
  obtain ⟨remaining, htake⟩ := Book.take_ok hm.distinct hm.legs
  obtain ⟨next, hnext⟩ := hm.lots.checked_rest
  have hnext' := checked_ok.mp hnext
  unfold Search.place
  rw [htake, hnext]
  change Triple (Remembers x Q) (best (x.items remaining) next >>= _) _ _
  refine Triple.bind (hbest remaining next htake hnext') ?_
  intro r
  cases r with
  | none =>
      apply Triple.pure
      rintro c ⟨hq, hc⟩
      exact ⟨⟨none, .nothing htake hnext' hq, rfl⟩, hc⟩
  | some rest =>
      intro c hc
      obtain ⟨hq, hc⟩ := hc
      revert c
      change Triple (Remembers x Q) _ _ _
      refine Triple.bind (strategyCost_triple m) ?_
      intro own c hc
      obtain ⟨⟨f, hf, rfl⟩, hc⟩ := hc
      revert c
      change Triple (Remembers x Q) _ _ _
      refine Triple.bind Triple.liftResult ?_
      intro cost c hc
      obtain ⟨hcost, hc⟩ := hc
      have hout : Outcome x Q items lots m (some ⟨cost, m :: rest.strategies, rest.left⟩) :=
        .grouped htake hnext' hq hf hcost
      split
      · next hless => exact ⟨⟨_, hout, (if_pos hless).symm⟩, hc⟩
      · next hless => exact ⟨⟨_, hout, (if_neg hless).symm⟩, hc⟩

theorem places_triple {best : Book n → Int64 → Searching n D (Option (Grouping n D))}
    {cands : List (Matched n)} (hm : ∀ m ∈ cands, Within items lots m)
    (hbest : ∀ m ∈ cands, ∀ remaining next, items.take m.legs = .ok remaining →
      next.toInt = lots.toInt - m.underlyingLots.toInt →
      Triple (Remembers x Q) (best (x.items remaining) next)
        (fun r c => Q (x.items remaining) next r ∧ Remembers x Q c) (Halted x Q))
    (found : Option (Grouping n D)) :
    Triple (Remembers x Q) (cands.foldlM (x.place best items lots) found)
      (fun r c => (∃ os, List.Forall₂ (Outcome x Q items lots) cands os ∧ r = os.foldl keepLess found) ∧
        Remembers x Q c) (Halted x Q) := by
  induction cands generalizing found with
  | nil => exact Triple.pure fun c hc => ⟨⟨[], .nil, rfl⟩, hc⟩
  | cons m cands ih =>
      rw [List.foldlM_cons]
      refine Triple.bind (place_triple (hm m List.mem_cons_self) (hbest m List.mem_cons_self) found) ?_
      intro mid c hc
      obtain ⟨⟨o, ho, rfl⟩, hc⟩ := hc
      refine (ih (fun y hy => hm y (List.mem_cons_of_mem _ hy))
        (fun y hy => hbest y (List.mem_cons_of_mem _ hy)) (keepLess found o) c hc).weaken ?_ fun _ _ h => h
      rintro r c' ⟨⟨os, hos, rfl⟩, hc'⟩
      exact ⟨⟨o :: os, .cons ho hos, rfl⟩, hc'⟩

theorem group_triple (hQ : Composes x Q) (hs : items.Sized) (hl : -2 ^ 63 < lots.toInt)
    {best : Book n → Int64 → Searching n D (Option (Grouping n D))}
    (hbest : ∀ items' lots', items'.Sized → -2 ^ 63 < lots'.toInt → items'.size < items.size →
      Triple (Remembers x Q) (best items' lots') (fun r c => Q items' lots' r ∧ Remembers x Q c)
        (Halted x Q)) :
    Triple (Remembers x Q) (x.group best items lots) (fun r c => Q items lots r ∧ Remembers x Q c)
      (Halted x Q) := by
  unfold Search.group
  split
  · next hentries =>
      refine Triple.bind Triple.liftResult ?_
      intro cost c hc
      exact ⟨hQ.done hentries hc.1, hc.2⟩
  · next first tail hentries =>
      refine Triple.bind Triple.liftResult ?_
      intro cands c hc
      obtain ⟨hcands, hc⟩ := hc
      have hfirst : first ∈ items.entries := by simp [hentries]
      have hrow := fun m hm => candidate_row hs hl hfirst hcands (m := m) hm
      refine (places_triple (fun m hm => (hrow m hm).2.1) ?_ none c hc).weaken ?_ fun _ _ h => h
      · intro m hm remaining next htake hnext
        obtain ⟨hr, hwithin, hne⟩ := hrow m hm
        have hleaves := Leaves.of_take hr hwithin htake hnext
        refine hbest _ _ (items_sized (hleaves.sized hs)) (hleaves.lots_sized hl) ?_
        rw [items_size]
        exact hleaves.size_lt hwithin hne
      · rintro r c' ⟨⟨os, hos, rfl⟩, hc'⟩
        exact ⟨hQ.place hs hl (by simp [hentries]) hcands hos, hc'⟩

theorem best_triple (hQ : Composes x Q) {depth : Nat} (hs : items.Sized) (hl : -2 ^ 63 < lots.toInt)
    (hdepth : items.size < depth) :
    Triple (Remembers x Q) (x.best depth items lots) (fun r c => Q items lots r ∧ Remembers x Q c)
      (Halted x Q) := by
  induction depth generalizing items lots with
  | zero => omega
  | succ depth ih =>
      have hgroup := group_triple hQ hs hl fun items' lots' hs' hl' hless =>
        @ih items' lots' hs' hl' (by omega)
      refine Triple.bind (Q := fun memo c => (∀ e ∈ memo, Q e.1.1 e.1.2 e.2) ∧ Remembers x Q c)
        (Triple.gets fun c hc => ⟨hc.memo, hc⟩) ?_
      intro memo
      cases hfind : memo.find? (·.1 = (items, lots)) with
      | some found =>
          apply Triple.pure
          intro c hc
          have hkey : found.1 = (items, lots) := by simpa using List.find?_some hfind
          have hq := hc.1 found (List.mem_of_find?_eq_some hfind)
          rw [hkey] at hq
          exact ⟨hq, hc.2⟩
      | none =>
          refine Triple.bind (Q := fun _ c => Remembers x Q c) (Triple.gets fun c hc => hc.2) ?_
          intro memo'
          apply Triple.ite
          · intro _
            exact Triple.fail fun c hc => ⟨Or.inl rfl, hc⟩
          · intro _
            refine Triple.bind hgroup ?_
            intro found
            refine Triple.bind (Q := fun _ c => Q items lots found ∧ Remembers x Q c) ?_ ?_
            · apply Triple.modify
              rintro c ⟨hq, hc⟩
              refine ⟨hq, ?_, hc.priced⟩
              intro e he
              rcases List.mem_cons.mp he with rfl | he
              · exact hq
              · exact hc.memo e he
            · intro _
              exact Triple.pure fun c hc => hc

end TradeEngine.Margin
