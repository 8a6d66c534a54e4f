import Mathlib.Algebra.Order.Monoid.Prod
import TradeEngine.Margin.Lemmas.Searching

/-!
# The least of what is searched

The search returns a saturated grouping, and none of those is cheaper; LEAN's grouping is compared
with it at the end.
-/

namespace TradeEngine.Margin

open Lib Prog Unrounded

variable {n : Nat} {D : Type} [Decimal D] {x : Search n D} {items : Book n} {lots left : Int64}
  {rows : List (Matched n)}

/-! ## Keeping the cheaper one -/

theorem keepLess_mem {os : List (Option (Grouping n D))} {found : Option (Grouping n D)} {g : Grouping n D}
    (h : os.foldl keepLess found = some g) : found = some g ∨ some g ∈ os := by
  induction os generalizing found with
  | nil => exact Or.inl h
  | cons o os ih =>
      rcases ih h with hg | hg
      · cases o with
        | none => exact Or.inl hg
        | some g' =>
            simp only [keepLess] at hg
            split at hg
            · cases hg
              exact Or.inr List.mem_cons_self
            · exact Or.inl hg
      · exact Or.inr (List.mem_cons_of_mem _ hg)

theorem keepLess_found {os : List (Option (Grouping n D))} {g₀ : Grouping n D} :
    ∃ g, os.foldl keepLess (some g₀) = some g ∧ g.cost ≤ g₀.cost := by
  induction os generalizing g₀ with
  | nil => exact ⟨g₀, rfl, le_rfl⟩
  | cons o os ih =>
      cases o with
      | none => exact ih
      | some g' =>
          simp only [List.foldl_cons, keepLess, Option.all_some]
          split
          · next hless =>
              obtain ⟨g, hg, hle⟩ := @ih g'
              exact ⟨g, hg, hle.trans (le_of_lt (by simpa using hless))⟩
          · exact ih

theorem keepLess_le {os : List (Option (Grouping n D))} {found : Option (Grouping n D)} {g' : Grouping n D}
    (h : some g' ∈ os) : ∃ g, os.foldl keepLess found = some g ∧ g.cost ≤ g'.cost := by
  induction os generalizing found with
  | nil => cases h
  | cons o os ih =>
      rcases List.mem_cons.mp h with rfl | h
      · simp only [List.foldl_cons, keepLess]
        split
        · exact keepLess_found
        · next hless =>
            cases found with
            | none => simp at hless
            | some g₀ =>
                obtain ⟨g, hg, hle⟩ := @keepLess_found _ _ _ os g₀
                exact ⟨g, hg, hle.trans (by simpa using hless)⟩
      · exact ih h

/-! ## Saturated groupings -/

theorem Saturated.leaves {ctx : Fin n → Contract D} {defs : List StratDef}
    (h : Saturated ctx defs items lots rows left) : Partition ctx defs items lots rows left := by
  induction h with
  | @nil items lots h =>
      refine ⟨items, fun c => ?_, .refl⟩
      rw [Book.qtyOf_of_notMem (by simp [h])]
      rfl
  | strategy hfirst hc hd hm hfull hrest hlots _ ih =>
      obtain ⟨nothing, hzero, hleaves⟩ := ih
      have hone := Leaves.of_take (.strategy hd hm) (hm.within hfull.1) hrest hlots
      exact ⟨nothing, hzero, hone.append (hleaves.congr (fun c => by simp) fun c => rfl)⟩
  | @long items rest lots left first rows hfirst hq hrest _ ih =>
      obtain ⟨nothing, hzero, hleaves⟩ := ih
      have hqty := Book.qtyOf_of_mem (List.mem_of_head? hfirst)
      have hwithin : Within items lots (Margin.long ctx first.1 first.2) := by
        rw [← hqty] at hq ⊢
        exact Within.long hq
      have hone : Leaves ctx defs items lots [Margin.long ctx first.1 first.2] rest lots :=
        .of_take (.long hq) hwithin hrest (by simp [Margin.long])
      exact ⟨nothing, hzero, hone.append (hleaves.congr (fun c => by simp) fun c => rfl)⟩

theorem Partition.of_items {ctx : Fin n → Contract D} {defs : List StratDef} {book : Book n}
    (h : Partition ctx defs (book.retain.sorted ctx) lots rows left) : Partition ctx defs book lots rows left := by
  obtain ⟨nothing, hzero, hleaves⟩ := h
  exact ⟨nothing, hzero, hleaves.congr (fun c => by simp) fun c => rfl⟩

/-- A candidate and a saturated grouping of what it leaves are one of the whole. -/
theorem Saturated.cons_candidate (hs : items.Sized) (hl : -2 ^ 63 < lots.toInt) {first : Fin n × Int64}
    (hfirst : items.entries.head? = some first) {cands : List (Matched n)}
    (hcands : x.candidates items first lots = .ok cands) {m : Matched n} (hm : m ∈ cands) {remaining : Book n}
    {next : Int64} (htake : items.take m.legs = .ok remaining)
    (hnext : next.toInt = lots.toInt - m.underlyingLots.toInt)
    (h : Saturated x.market.ctx x.defs (x.items remaining) next rows left) :
    Saturated x.market.ctx x.defs items lots (m :: rows) left := by
  rcases (mem_candidates hs hl hcands).mp hm with ⟨d, hd, cs, units, hinst, hfull, hc⟩ | ⟨hq, rfl⟩
  · exact .strategy hfirst hc hd hinst hfull htake hnext h
  · have hnext : next = lots := Int64.toInt_inj.mp (by simpa [Margin.long] using hnext)
    subst hnext
    exact .long hfirst hq htake h

/-- Everything the search returns is saturated. -/
def FindsSaturated (x : Search n D) (items : Book n) (lots : Int64) (r : Option (Grouping n D)) : Prop :=
  ∀ g, r = some g → Saturated x.market.ctx x.defs items lots g.strategies g.left

theorem findsSaturated_composes (x : Search n D) : Composes x (FindsSaturated x) where
  done hentries _ := by
    rintro g ⟨⟩
    exact .nil hentries
  place hs hl hfirst hcands hos := by
    intro g hg
    rcases keepLess_mem hg with hg | hg
    · cases hg
    · obtain ⟨m, hm, hout⟩ := forall₂_right hos _ hg
      cases hout with
      | grouped htake hnext h hf hcost =>
          exact Saturated.cons_candidate hs hl hfirst hcands hm htake hnext (h _ rfl)

/-! ## Costs -/

/-- The library computes the costs of `y`: its order is that of the numbers its costs stand for, and it
adds them up exactly. -/
structure Worth (x : Search n D) (y : Search n ℚ) where
  of : Cost D → Cost ℚ
  le : ∀ a b, a ≤ b ↔ of a ≤ of b
  add : ∀ {a b c}, addCost a b = .ok c → of c = of a + of b
  row : ∀ {m f}, strategyMargin m x.market = .ok f → RowCost y m (of (Search.costOf m f))
  stock : ∀ {left c}, x.lotsCost left = .ok c → y.lotsCost left = .ok (of c)

section
variable {y : Search n ℚ} {E : Worth x y}

omit [Decimal D] in
theorem RowCost.unique {m : Matched n} {v v' : Cost ℚ} (h : RowCost y m v) (h' : RowCost y m v') : v = v' := by
  obtain ⟨f, hf, rfl⟩ := h
  obtain ⟨f', hf', rfl⟩ := h'
  rw [hf] at hf'
  cases hf'
  rfl

omit [Decimal D] in
theorem Costs.cons {m : Matched n} {v w : Cost ℚ} (hm : RowCost y m v) (h : Costs y rows left w) :
    Costs y (m :: rows) left (v + w) := by
  obtain ⟨vs, stock, hvs, hstock, rfl⟩ := h
  exact ⟨v :: vs, stock, .cons hm hvs, hstock, by rw [List.sum_cons, add_assoc]⟩

omit [Decimal D] in
theorem Costs.tail {m : Matched n} {v : Cost ℚ} (h : Costs y (m :: rows) left v) :
    ∃ u w, RowCost y m u ∧ Costs y rows left w ∧ v = u + w := by
  obtain ⟨vs, stock, hvs, hstock, rfl⟩ := h
  cases hvs with
  | cons hm hvs => exact ⟨_, _, hm, ⟨_, stock, hvs, hstock, rfl⟩, by rw [List.sum_cons, add_assoc]⟩

/-- The search returns a saturated grouping with its cost, and no saturated grouping costs less. -/
structure FindsLeast (E : Worth x y) (items : Book n) (lots : Int64) (r : Option (Grouping n D)) : Prop where
  saturated : FindsSaturated x items lots r
  costs : ∀ g, r = some g → Costs y g.strategies g.left (E.of g.cost)
  least : ∀ rows left, Saturated x.market.ctx x.defs items lots rows left →
    ∃ g v, r = some g ∧ Costs y rows left v ∧ E.of g.cost ≤ v

theorem Outcome.costs {m : Matched n} {g : Grouping n D} (h : Outcome x (FindsLeast E) items lots m (some g)) :
    Costs y g.strategies g.left (E.of g.cost) := by
  cases h with
  | grouped _ _ h hf hcost =>
      rw [E.add hcost]
      exact Costs.cons (E.row hf) (h.costs _ rfl)

/-- Placing a candidate first is at least as good as any saturated grouping that begins with it. -/
theorem Outcome.least {m : Matched n} {o : Option (Grouping n D)} (h : Outcome x (FindsLeast E) items lots m o)
    {rest : Book n} {lots' : Int64} (hrest : items.take m.legs = .ok rest)
    (hlots : lots'.toInt = lots.toInt - m.underlyingLots.toInt)
    (hsat : Saturated x.market.ctx x.defs (x.items rest) lots' rows left) :
    ∃ g v, o = some g ∧ Costs y (m :: rows) left v ∧ E.of g.cost ≤ v := by
  cases h with
  | nothing htake hnext h =>
      cases hrest.symm.trans htake
      cases Int64.toInt_inj.mp (hlots.trans hnext.symm)
      obtain ⟨g, _, hg, _⟩ := h.least rows left hsat
      cases hg
  | grouped htake hnext h hf hcost =>
      cases hrest.symm.trans htake
      cases Int64.toInt_inj.mp (hlots.trans hnext.symm)
      obtain ⟨g, v, hg, hv, hle⟩ := h.least rows left hsat
      cases hg
      refine ⟨_, _, rfl, Costs.cons (E.row hf) hv, ?_⟩
      rw [E.add hcost]
      exact add_le_add le_rfl hle

theorem findsLeast_composes (E : Worth x y) : Composes x (FindsLeast E) where
  done {items lots cost} hentries hcost := by
    have hnone : Costs y [] lots (E.of cost) := ⟨[], _, .nil, E.stock hcost, by simp⟩
    refine ⟨(findsSaturated_composes x).done hentries hcost, ?_, ?_⟩
    · rintro g ⟨⟩
      exact hnone
    · intro rows left hsat
      cases hsat with
      | nil _ => exact ⟨_, _, rfl, hnone, le_rfl⟩
      | strategy hfirst => simp [hentries] at hfirst
      | long hfirst => simp [hentries] at hfirst
  place {items lots first cands os} hs hl hfirst hcands hos := by
    have hless : ∀ m ∈ cands, ∀ g', (∃ o ∈ os, o = some g' ∧ Outcome x (FindsLeast E) items lots m o) →
        ∃ g, os.foldl keepLess none = some g ∧ E.of g.cost ≤ E.of g'.cost := by
      rintro m _ g' ⟨o, ho, rfl, _⟩
      obtain ⟨g, hg, hle⟩ := keepLess_le ho
      exact ⟨g, hg, (E.le _ _).mp hle⟩
    refine ⟨?_, ?_, ?_⟩
    · refine (findsSaturated_composes x).place hs hl hfirst hcands (hos.imp ?_)
      intro m o ho
      cases ho with
      | nothing htake hnext h => exact .nothing htake hnext h.saturated
      | grouped htake hnext h hf hcost => exact .grouped htake hnext h.saturated hf hcost
    · intro g hg
      rcases keepLess_mem hg with hg | hg
      · cases hg
      · obtain ⟨m, _, hout⟩ := forall₂_right hos _ hg
        exact hout.costs
    · intro rows left hsat
      have hbegin : ∀ {m rows rest lots'}, m ∈ cands → items.take m.legs = .ok rest →
          lots'.toInt = lots.toInt - m.underlyingLots.toInt →
          Saturated x.market.ctx x.defs (x.items rest) lots' rows left →
          ∃ g v, os.foldl keepLess none = some g ∧ Costs y (m :: rows) left v ∧ E.of g.cost ≤ v := by
        intro m rows rest lots' hm hrest hlots hsat
        obtain ⟨o, ho, hout⟩ := forall₂_left hos m hm
        obtain ⟨g', v, rfl, hv, hle'⟩ := hout.least hrest hlots hsat
        obtain ⟨g, hg, hle⟩ := hless m hm g' ⟨_, ho, rfl, hout⟩
        exact ⟨g, v, hg, hv, hle.trans hle'⟩
      cases hsat with
      | nil hnil => simp [hnil] at hfirst
      | strategy hfirst' hc hd hm hfull hrest hlots hsat =>
          cases hfirst.symm.trans hfirst'
          exact hbegin ((mem_candidates hs hl hcands).mpr (Or.inl ⟨_, hd, _, _, hm, hfull, hc⟩)) hrest hlots
            hsat
      | long hfirst' hq hrest hsat =>
          cases hfirst.symm.trans hfirst'
          exact hbegin ((mem_candidates hs hl hcands).mpr (Or.inr ⟨hq, rfl⟩)) hrest (by simp [long]) hsat

end

/-! ## The choice -/

variable {Q : Book n → Int64 → Option (Grouping n D) → Prop} {book : Book n}

theorem priced_triple (rows : List (Matched n)) (start : Cost D) :
    Triple (Remembers x Q)
      (rows.foldlM (fun cost s => do
        let own ← x.strategyCost s
        lift (Stop.lift (addCost cost own))) start : Searching n D (Cost D))
      (fun r c => (∀ y, ∀ E : Worth x y, ∃ vs, List.Forall₂ (RowCost y) rows vs ∧
        E.of r = E.of start + vs.sum) ∧ Remembers x Q c) (Halted x Q) := by
  induction rows generalizing start with
  | nil => exact Triple.pure fun c hc => ⟨fun _ E => ⟨[], .nil, by simp⟩, hc⟩
  | cons m rows ih =>
      rw [List.foldlM_cons]
      refine Triple.bind (Q := fun mid c => (∃ f, strategyMargin m x.market = .ok f ∧
        addCost start (Search.costOf m f) = .ok mid) ∧ Remembers x Q c) ?_ ?_
      · refine Triple.bind (strategyCost_triple m) ?_
        intro own c hc
        obtain ⟨⟨f, hf, rfl⟩, hc⟩ := hc
        refine (Triple.liftResult c hc).weaken ?_ fun _ _ h => h
        rintro mid c' ⟨hmid, hc'⟩
        exact ⟨⟨f, hf, hmid⟩, hc'⟩
      · intro mid c hc
        obtain ⟨⟨f, hf, hmid⟩, hc⟩ := hc
        refine (ih mid c hc).weaken ?_ fun _ _ h => h
        rintro r c' ⟨hr, hc'⟩
        refine ⟨fun y E => ?_, hc'⟩
        obtain ⟨vs, hvs, hworth⟩ := hr y E
        refine ⟨_ :: vs, .cons (E.row hf) hvs, ?_⟩
        rw [hworth, E.add hmid, List.sum_cons, add_assoc]

theorem lean_triple (x : Search n D) (book : Book n) (lots : Int64) :
    Triple (Remembers x Q) (x.lean book lots)
      (fun g c => (matchStrategies x.market.ctx book lots x.defs = .ok (g.strategies, g.left) ∧
        ∀ y, ∀ E : Worth x y, Costs y g.strategies g.left (E.of g.cost)) ∧ Remembers x Q c)
      (fun _ => Remembers x Q) := by
  refine Triple.bind (Q := fun r c => matchStrategies x.market.ctx book lots x.defs = .ok r ∧
    Remembers x Q c) (Triple.lift (fun _ _ h hc => ⟨h, hc⟩) fun _ _ _ hc => hc) ?_
  rintro ⟨rows, left⟩ c ⟨hmatch, hc⟩
  revert c
  change Triple (Remembers x Q) _ _ _
  refine Triple.bind (Triple.liftResult.weaken (fun _ h => h) (fun _ _ h => h) fun _ _ h => h.2) ?_
  rintro start c ⟨hstart, hc⟩
  revert c
  change Triple (Remembers x Q) _ _ _
  refine Triple.bind ((priced_triple rows start).weaken (fun _ h => h) (fun _ _ h => h) fun _ _ h => h.2) ?_
  rintro total c ⟨htotal, hc⟩
  refine ⟨⟨hmatch, fun y E => ?_⟩, hc⟩
  obtain ⟨vs, hvs, hworth⟩ := htotal y E
  exact ⟨vs, E.of start, hvs, E.stock hstart, by rw [hworth, add_comm]⟩

theorem bestOf_triple (hQ : Composes x Q) (hs : book.Sized) (hl : -2 ^ 63 < lots.toInt) :
    Triple (Remembers x Q) (x.bestOf book lots)
      (fun r c => Q (x.items book) lots r ∧ Remembers x Q c) (Halted x Q) := by
  refine best_triple hQ (items_sized hs) hl ?_
  rw [items_size]
  omega

theorem remembers_nothing (x : Search n D) (Q : Book n → Int64 → Option (Grouping n D) → Prop) :
    Remembers x Q ⟨[], []⟩ := ⟨by simp, by simp⟩

/-- The grouping chosen is LEAN's or the search's, and where the search ends, the cheaper of the two. -/
theorem choose_spec (hQ : Composes x Q) (hs : book.Sized) (hl : -2 ^ 63 < lots.toInt) {g : Grouping n D}
    {c : Cache n D} (h : x.choose book lots ⟨[], []⟩ = (.ok g, c)) :
    Remembers x Q c ∧ ∃ g₀, matchStrategies x.market.ctx book lots x.defs = .ok (g₀.strategies, g₀.left) ∧
      (∀ y, ∀ E : Worth x y, Costs y g₀.strategies g₀.left (E.of g₀.cost)) ∧
      (g = g₀ ∨ Q (x.items book) lots (some g)) ∧
      (x.hitsLimit book lots = false → ∃ r, Q (x.items book) lots r ∧ g.cost ≤ g₀.cost ∧
        ∀ g', r = some g' → g.cost ≤ g'.cost) := by
  obtain ⟨g₀, c₀, hlean, h⟩ := bind_ok.mp h
  obtain ⟨⟨hmatch, hcosts⟩, hc₀⟩ := (lean_triple x book lots _ (remembers_nothing x Q)).ok hlean
  have hbest := bestOf_triple hQ hs hl c₀ hc₀
  obtain ⟨e, c₁, hattempt, h⟩ := bind_ok.mp h
  simp only [attempt, Prod.mk.injEq, Except.ok.injEq] at hattempt
  obtain ⟨rfl, rfl⟩ := hattempt
  rcases hrun : x.bestOf book lots c₀ with ⟨e | r, c'⟩
  · have hlimit : e = .tooLarge → x.hitsLimit book lots = true := by
      rintro rfl
      exact Search.hitsLimit_tooLarge hlean hrun
    rw [hrun] at h hbest
    obtain ⟨he, hc'⟩ := hbest
    rcases he with rfl | ⟨m, rfl⟩
    · cases h
      exact ⟨hc', _, hmatch, hcosts, Or.inl rfl, fun hno => by rw [hlimit rfl] at hno; cases hno⟩
    · cases h
  · rw [hrun] at h hbest
    obtain ⟨hq, hc'⟩ := hbest
    cases r with
    | none =>
        cases h
        exact ⟨hc', _, hmatch, hcosts, Or.inl rfl, fun _ => ⟨none, hq, le_rfl, by simp⟩⟩
    | some searched =>
        cases h
        refine ⟨hc', g₀, hmatch, hcosts, ?_⟩
        by_cases hless : searched.cost < g₀.cost
        · rw [if_pos hless]
          refine ⟨Or.inr hq, fun _ => ⟨_, hq, hless.le, ?_⟩⟩
          rintro g' ⟨⟩
          exact le_rfl
        · rw [if_neg hless]
          refine ⟨Or.inl rfl, fun _ => ⟨_, hq, le_rfl, ?_⟩⟩
          rintro g' ⟨⟩
          exact not_lt.mp hless

/-! ## The margin of a book -/

/-- The figures carry the strategy's name, units and legs. -/
def Describes (m : Matched n) (f : StrategyMargin n D) : Prop :=
  f.name = m.name ∧ f.quantity = m.quantity ∧ f.legs = m.legs

theorem strategyMargin_describes {m : Matched n} {market : Market n D} {f : StrategyMargin n D}
    (h : strategyMargin m market = .ok f) : Describes m f := by
  unfold strategyMargin at h
  split at h
  · cases h
  · simp only [bind_eq_ok, pure_eq_ok] at h
    obtain ⟨_, _, _, _, _, _, _, _, _, _, _, _, _, _, rfl⟩ := h
    exact ⟨rfl, rfl, rfl⟩

/-- What `marginBook` returns is the grouping chosen for the whole lots, priced, and the shares that
are in none of its strategies. -/
theorem marginBook_spec {market : Market n D} {book : Book n} {shares rest : D} {defs : List StratDef}
    {limit : Nat} {figures : List (StrategyMargin n D)}
    (h : marginBook market book shares defs limit = .ok (figures, rest)) :
    ∃ multiplier lots g c used, Market.oneMultiplier market.ctx (book.entries.map (·.1))
        s!"{market.underlying} options mix" = .ok multiplier ∧ lotsOf shares multiplier = .ok lots ∧
      Search.choose ⟨market, defs, multiplier, limit⟩ book lots ⟨[], []⟩ = (.ok g, c) ∧
      (∀ Q, Remembers ⟨market, defs, multiplier, limit⟩ Q c →
        List.Forall₂ (fun m f => strategyMargin m market = .ok f) g.strategies figures) ∧
      used.toInt = (lots.toInt - g.left.toInt) * multiplier.toInt ∧ sub shares (decI used) = .ok rest := by
  simp only [marginBook, bind_eq_ok, lift_ok] at h
  obtain ⟨multiplier, hmult, lots, hlots, h⟩ := h
  replace h := returned h
  simp only [bind_ok, lift, Prod.mk.injEq, lift_ok, checked_ok] at h
  obtain ⟨g, c, hg, _, _, ⟨hleft, rfl⟩, used, _, ⟨hused, rfl⟩, _, c', hfigures, _, _, ⟨hrest, rfl⟩, h⟩ := h
  cases h
  refine ⟨multiplier, lots, g, c, used, hmult, hlots, hg, ?_, by rw [hused, hleft], hrest⟩
  intro Q hc
  exact ((Triple.mapM g.strategies figures_triple c hc).ok hfigures).1

end TradeEngine.Margin
