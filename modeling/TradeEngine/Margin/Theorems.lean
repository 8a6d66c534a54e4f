import TradeEngine.Margin.Lemmas.Whole

/-!
# Margin groupings

Every grouping uses the book exactly. The one kept is the cheapest of an uncontested book; in a contested
one a cheaper one may split what the search takes together.
-/

namespace TradeEngine.Margin

open Lib Prog Unrounded

variable {n : Nat} {D : Type} [Decimal D]

/-! ## Nothing lost, nothing used twice -/

/-- The groupings of one book and its lots: the loop ends and leaves long contracts and lots only,
and what is returned is a partition. -/
structure Grouped (market : Market n D) (book : Book n) (lots : Int64) : Prop where
  ends : ∀ defs, ∃ g, matchGreedy defs market.ctx book lots = .ok g ∧
    Leaves market.ctx defs book lots g.strategies g.remaining g.lots
  longs : ∃ g, matchGreedy (byLegCount definitions) market.ctx book lots = .ok g ∧
    ∀ e ∈ g.remaining.entries, 0 < e.2.toInt
  grouped : ∃ rows left, matchStrategies market.ctx book lots definitions = .ok (rows, left)
  strategies : ∀ defs rows left, matchStrategies market.ctx book lots defs = .ok (rows, left) →
    Partition market.ctx defs book lots rows left
  figures : ∀ defs limit shares multiplier figures rest,
    Market.oneMultiplier market.ctx (book.entries.map (·.1)) s!"{market.underlying} options mix" =
      .ok multiplier →
    lotsOf shares multiplier = .ok lots → marginBook market book shares defs limit = .ok (figures, rest) →
    ∃ rows left used, Partition market.ctx defs book lots rows left ∧ List.Forall₂ Describes rows figures ∧
      used.toInt = (lots.toInt - left.toInt) * multiplier.toInt ∧ sub shares (decI used) = .ok rest

/-- `marginBook` returns a partition, priced. -/
theorem marginBook_partition {market : Market n D} {book : Book n} {lots : Int64} (hs : book.Sized)
    (hl : -2 ^ 63 < lots.toInt) {defs : List StratDef} {limit : Nat} {shares rest : D} {multiplier : Int64}
    {figures : List (StrategyMargin n D)}
    (hmult : Market.oneMultiplier market.ctx (book.entries.map (·.1))
      s!"{market.underlying} options mix" = .ok multiplier)
    (hlots : lotsOf shares multiplier = .ok lots)
    (h : marginBook market book shares defs limit = .ok (figures, rest)) :
    ∃ rows left used, Partition market.ctx defs book lots rows left ∧ List.Forall₂ Describes rows figures ∧
      used.toInt = (lots.toInt - left.toInt) * multiplier.toInt ∧ sub shares (decI used) = .ok rest := by
  obtain ⟨multiplier', lots', g, c, used, hmult', hlots', hg, hpriced, hused, hrest⟩ := marginBook_spec h
  cases hmult.symm.trans hmult'
  cases hlots.symm.trans hlots'
  set x : Search n D := ⟨market, defs, multiplier, limit⟩
  obtain ⟨hc, g₀, hmatch, _, hchosen, _⟩ := choose_spec (findsSaturated_composes x) hs hl hg
  refine ⟨g.strategies, g.left, used, ?_, (hpriced _ hc).imp fun _ _ => strategyMargin_describes, hused, hrest⟩
  rcases hchosen with rfl | hsat
  · exact matchStrategies_partition hs hl hmatch
  · exact (hsat g rfl).leaves.of_items

theorem book_is_partitioned (market : Market n D) (book : Book n) (lots : Int64) (hs : book.Sized)
    (hl : -2 ^ 63 < lots.toInt) : Grouped market book lots where
  ends defs := by
    obtain ⟨g, hg, hleaves, _, _⟩ := matchGreedy_spec market.ctx defs hs hl
    exact ⟨g, hg, hleaves⟩
  longs := by
    obtain ⟨g, hg, _, hne, hlong⟩ := matchGreedy_spec market.ctx (byLegCount definitions) hs hl
    refine ⟨g, hg, ?_⟩
    intro e he
    obtain ⟨name, hname⟩ := naked_mem_definitions (market.ctx e.1).right
    have hpos := hlong name _ (mem_byLegCount.mpr hname) e.1 rfl
    rw [Book.qtyOf_of_mem he] at hpos
    have := hne e he
    omega
  grouped := matchStrategies_ok hs hl naked_mem_definitions
  strategies _ _ _ h := matchStrategies_partition hs hl h
  figures _ _ _ _ _ _ hmult hlots h := marginBook_partition hs hl hmult hlots h

namespace Sample

def put (k : Nat) (strike : ℚ) : Contract ℚ :=
  ⟨"AAPL", .ymd 2026 k 1, strike, .put, 100, "AAPL", .resolved "AAPL" false⟩

/-- Puts struck 100, 90, 90, 95 and 100, one month apart. -/
def market : Market 5 ℚ :=
  ⟨![put 1 100, put 2 90, put 3 90, put 4 95, put 5 100], "AAPL", 100, fun _ => some (5 / 2), none, 1 / 2, 1 / 4⟩

def puts : Book 5 := ⟨[(0, -2), (1, -1), (2, 2), (3, -1), (4, 2)], by decide⟩

def oneLong : Book 5 := ⟨[(0, 1)], by decide⟩

end Sample

open TradeEngine.Margin.Sample in
theorem puts_are_partitioned : (puts.Sized ∧ -2 ^ 63 < (0 : Int64).toInt) ∧ Grouped market puts 0 := by
  have hs : puts.Sized := by
    unfold Book.Sized
    decide +kernel
  exact ⟨⟨hs, by decide⟩, book_is_partitioned market puts 0 hs (by decide)⟩

open TradeEngine.Margin.Sample in
/-- A long contract nothing takes is still there when the loop ends. -/
theorem long_remains : ∃ g, matchGreedy (byLegCount definitions) market.ctx oneLong 0 = .ok g ∧
    g.remaining.entries = [(0, 1)] := by
  have h : ((matchGreedy (byLegCount definitions) market.ctx oneLong 0).toOption.any
      fun g => g.remaining.entries = [(0, 1)]) = true := by decide +kernel
  obtain ⟨g, hg, hrest⟩ := (Option.any_eq_true _ _).mp h
  exact ⟨g, toOption_eq_some.mp hg, by simpa using hrest⟩

/-! ## The cheapest grouping -/

/-- Without rounding and inside the limit, the grouping margined of an uncontested book costs no more
than any partition. -/
theorem uncontested_cheapest (R : Reading D) {market : Market n D} {book : Book n} {lots : Int64} (hs : book.Sized)
    (hl : -2 ^ 63 < lots.toInt) {defs : List StratDef} {limit : Nat} {shares rest : D} {multiplier : Int64}
    {figures : List (StrategyMargin n D)} (hdefs : Plain defs) (hbook : Uncontested market.ctx defs book lots)
    (hmult : Market.oneMultiplier market.ctx (book.entries.map (·.1))
      s!"{market.underlying} options mix" = .ok multiplier)
    (hlots : lotsOf shares multiplier = .ok lots)
    (hlimit : Search.hitsLimit ⟨market, defs, multiplier, limit⟩ book lots = false)
    (h : @marginBook n D R.exact market book shares defs limit = .ok (figures, rest)) :
    marginBook market book shares defs limit = .ok (figures, rest) ∧
      ∃ g c, Search.choose ⟨market, defs, multiplier, limit⟩ book lots ⟨[], []⟩ = (.ok g, c) ∧
        List.Forall₂ (fun m f => strategyMargin m market = .ok f) g.strategies figures ∧
        Cheapest R ⟨market, defs, multiplier, limit⟩ book lots g.strategies g.left := by
  have hcode := R.marginBook_exact h
  refine ⟨hcode, ?_⟩
  set x : Search n D := ⟨market, defs, multiplier, limit⟩ with hx
  obtain ⟨multiplier₁, lots₁, g, c, _, hmult₁, hlots₁, hg, hpriced, -, -⟩ := marginBook_spec hcode
  cases hmult.symm.trans hmult₁
  cases hlots.symm.trans hlots₁
  obtain ⟨multiplier₂, lots₂, g', c', _, hmult₂, hlots₂, hg', -, -, -⟩ := @marginBook_spec n D R.exact _ _ _ _ _ _ _ h
  cases hmult.symm.trans hmult₂
  cases hlots.symm.trans hlots₂
  have hsame : @Search.choose n D R.exact x book lots ⟨[], []⟩ = x.choose book lots ⟨[], []⟩ := by
    rcases R.choose_tracks x book lots ⟨[], []⟩ with ⟨e, _, he⟩ | hsame
    · rw [hg'] at he
      cases he
    · exact hsame
  rw [hg] at hsame
  obtain ⟨_, _, hmatch, hcosts₀, hchosen, hless⟩ :=
    @choose_spec n D R.exact x lots _ book (@findsLeast_composes n D R.exact x _ (R.worth x)) hs hl g c hsame
  have hexact := (R.hitsLimit_exact x hsame).trans hlimit
  obtain ⟨r, hr, hle₀, hler⟩ := hless hexact
  have hcosts : Costs (R.search x) g.strategies g.left (R.cost g.cost) := by
    rcases hchosen with rfl | hfound
    · exact hcosts₀ _ (R.worth x)
    · obtain ⟨-, hcosts, -⟩ := hfound
      exact hcosts g rfl
  have hremembers := (choose_spec (findsSaturated_composes x) hs hl hg).1
  refine ⟨g, c, hg, hpriced _ hremembers, _, hcosts, fun rows left v hpart hv => ?_⟩
  obtain ⟨ps, hps, hroom, rfl⟩ := hpart.cost hdefs hv
  obtain ⟨all, hfits, hsum, hle⟩ :=
    exists_full hdefs hbook hps hroom (gain (R.search x) (aloneCost (R.search x) market.ctx book lots))
  have hpending : Pending market.ctx defs book lots all :=
    ⟨fun e he => (hfits e he).mem, fun e he => (hfits e he).seated, fun e he => (hfits e he).pos,
      fun e he => (room_iff_takes (hfits e he).seated).mp (hfits e he).full.1, fun e he => (hfits e he).full.2, hsum⟩
  obtain ⟨rows', left', hsat, hcost⟩ := hpending.saturated (R.search x) hdefs hs hl fun _ => Part.refl _
  -- the search has priced a saturated grouping of these strategies
  obtain ⟨-, -, hleast⟩ := hr
  obtain ⟨g', w, hg', hw, hlew⟩ := hleast rows' left' hsat
  calc R.cost g.cost ≤ R.cost g'.cost := (R.cost_le _ _).mp (hler g' hg')
    _ ≤ w := hlew
    _ = _ := hcost w hw
    _ ≤ _ := by gcongr

theorem rowCosts {y : Search n ℚ} {rows : List (Matched n)} {vs : List (Cost ℚ)}
    (h : rows.map (rowCost y) = vs.map some) : List.Forall₂ (RowCost y) rows vs := by
  rw [← List.forall₂_eq_eq_eq, List.forall₂_map_left_iff, List.forall₂_map_right_iff] at h
  exact h.imp fun _ _ h => rowCost_eq_some.mp h

namespace Sample

def search : Search 5 ℚ := ⟨market, definitions, 100, 20000⟩

def diagonal : StratDef := ⟨"Put Diagonal Spread", 0, [short .put [], bought .put [.otherStrike, .laterExpiry]]⟩

def calendar : StratDef := ⟨"Put Calendar Spread", 0, [short .put [], bought .put [.sameStrike, .laterExpiry]]⟩

/-- One unit of a two-leg definition. -/
def unit (d : StratDef) (sold held : Fin 5) : Matched 5 := ⟨d.name, 1, [(sold, -1), (held, 1)], 0⟩

/-- The first short once against each of the longs. -/
def split : List (Matched 5) := [unit calendar 0 4, unit diagonal 0 2, unit diagonal 3 4, unit calendar 1 2]

theorem unit_row {d : StratDef} (hd : d ∈ definitions) {preds : List Pred} (hlots : d.underlyingLots = 0)
    (hlegs : d.legs = [short .put [], bought .put preds]) {sold held : Fin 5} (hne : held ≠ sold)
    (hs : (market.ctx sold).right = .put) (hh : (market.ctx held).right = .put)
    (hp : ∀ p ∈ preds, p.holds (market.ctx sold) (market.ctx held) = true) :
    Row market.ctx definitions (unit d sold held) := by
  have hunit : Instance market.ctx d [sold, held] 1 (unit d sold held) := by
    refine ⟨one_pos, ?_, rfl, rfl, ?_, ?_⟩
    · rw [hlegs]
      exact ⟨by simp, hs, by simp [short], by simpa using hne, hh, by simpa [bought] using hp, trivial⟩
    · rw [hlegs]
      rfl
    · rw [hlots]
      rfl
  exact .strategy hd hunit

theorem split_partition : Partition market.ctx definitions puts 0 split 0 := by
  refine ⟨⟨[], List.nodup_nil⟩, fun _ => rfl, ?_⟩
  have hrows : ∀ m ∈ split, Row market.ctx definitions m := by
    have hcal : calendar ∈ definitions := by simp [definitions, calendar]
    have hdia : diagonal ∈ definitions := by simp [definitions, diagonal]
    simp only [split, List.forall_mem_cons, List.not_mem_nil, false_implies, implies_true, and_true]
    refine ⟨unit_row hcal rfl rfl ?_ ?_ ?_ ?_, unit_row hdia rfl rfl ?_ ?_ ?_ ?_,
      unit_row hdia rfl rfl ?_ ?_ ?_ ?_, unit_row hcal rfl rfl ?_ ?_ ?_ ?_⟩
    all_goals decide +kernel
  -- a quantity is decided leg by leg: there are 2 ^ 64 of them
  have hsides : (split.all fun m => m.legs.all fun l => Part l.2.toInt (puts.qtyOf l.1).toInt) = true := by
    decide +kernel
  refine ⟨hrows, ?_, by simpa only [List.all_eq_true, decide_eq_true_eq] using hsides, ?_, ?_, ?_, ?_⟩
  all_goals decide +kernel

theorem split_costs : Costs search split 0 (toLex (0, toLex (1000, 1000))) := by
  refine ⟨[toLex (0, toLex (0, 0)), toLex (0, toLex (1000, 1000)), toLex (0, toLex (0, 0)),
    toLex (0, toLex (0, 0))], cost 0 0 0, ?_, ?_, by decide +kernel⟩
  · exact rowCosts (by decide +kernel)
  · exact toOption_eq_some.mp (by decide +kernel)

end Sample

open TradeEngine.Margin.Sample in
/-- Two shorts go together against the nearer long, 2,000; one against each long comes to 1,000. -/
theorem one_against_each_is_cheaper : ∃ g c figures rest,
    marginBook market puts 0 definitions 20000 = .ok (figures, rest) ∧ search.hitsLimit puts 0 = false ∧
      search.choose puts 0 ⟨[], []⟩ = (.ok g, c) ∧
      Costs search g.strategies g.left (toLex (0, toLex (2000, 2000))) ∧
      Partition market.ctx definitions puts 0 split 0 ∧
      Costs search split 0 (toLex (0, toLex (1000, 1000))) := by
  have hrun : (marginBook market puts 0 definitions 20000).toOption.isSome = true := by decide +kernel
  obtain ⟨r, hr⟩ := Option.isSome_iff_exists.mp hrun
  have hchoose : ((search.choose puts 0 ⟨[], []⟩).1.toOption.any fun g =>
      g.strategies.map (rowCost search) = [some (toLex (0, toLex (2000, 2000))),
        some (toLex (0, toLex (0, 0))), some (toLex (0, toLex (0, 0)))] && g.left = 0) = true := by
    decide +kernel
  obtain ⟨g, hg, hcosts⟩ := (Option.any_eq_true _ _).mp hchoose
  refine ⟨g, _, r.1, r.2, toOption_eq_some.mp hr, by decide +kernel, returned (toOption_eq_some.mp hg), ?_,
    split_partition, split_costs⟩
  simp only [Bool.and_eq_true, decide_eq_true_eq] at hcosts
  obtain ⟨hrows, hleft⟩ := hcosts
  rw [hleft]
  have hpriced : List.Forall₂ (RowCost search) g.strategies
      [toLex (0, toLex (2000, 2000)), toLex (0, toLex (0, 0)), toLex (0, toLex (0, 0))] := rowCosts hrows
  exact ⟨_, cost 0 0 0, hpriced, toOption_eq_some.mp (by decide +kernel), by decide +kernel⟩

namespace Sample

def reading : Reading ℚ where
  val := id
  le _ _ := Iff.rfl
  zero := rfl
  ofInt _ := rfl
  ofParts _ _ _ _ := rfl
  neg _ := rfl
  abs _ := rfl

def call (k : Nat) (strike : ℚ) : Contract ℚ :=
  ⟨"AAPL", .ymd 2026 k 1, strike, .call, 100, "AAPL", .resolved "AAPL" false⟩

/-- Calls struck 100 and 110 of one month, puts struck 100, 100 and 95 one month apart. -/
def mixed : Market 5 ℚ :=
  ⟨![call 1 100, call 1 110, put 1 100, put 2 100, put 3 95], "AAPL", 100, fun _ => some (5 / 2), none, 1 / 2, 1 / 4⟩

/-- Two call spreads, and a short put either of two longs can cover. -/
def spreads : Book 5 := ⟨[(0, -2), (1, 2), (2, -1), (3, 1), (4, 1)], by decide⟩

end Sample

theorem definitions_plain : Plain definitions where
  legs := by simp [definitions]
  alone := by
    have hall : ∀ d ∈ definitions, d.legCount = 1 → d = nakedOf .call ∨ d = nakedOf .put := by
      simp [definitions, StratDef.legCount, nakedOf, naked]
    intro d hd hone
    rcases hall d hd hone with h | h
    · exact ⟨.call, h⟩
    · exact ⟨.put, h⟩
  naked right := by
    cases right with
    | call => simp [nakedOf, naked, definitions]
    | put => simp [nakedOf, naked, definitions]

open TradeEngine.Margin.Sample in
/-- The spreads are margined at 2,000 and the put with its calendar at nothing. -/
theorem uncontested_cheapest_spreads : Uncontested mixed.ctx definitions spreads 0 ∧ ∃ figures rest,
    marginBook mixed spreads 0 definitions 20000 = .ok (figures, rest) ∧
      ∃ g c, Search.choose ⟨mixed, definitions, 100, 20000⟩ spreads 0 ⟨[], []⟩ = (.ok g, c) ∧
        Cheapest reading ⟨mixed, definitions, 100, 20000⟩ spreads 0 g.strategies g.left := by
  have hs : spreads.Sized := by
    unfold Book.Sized
    decide +kernel
  have hbook : Uncontested mixed.ctx definitions spreads 0 :=
    uncontested_of_fitting hs (by decide) (by decide +kernel)
  have hrun : (@marginBook 5 ℚ reading.exact mixed spreads 0 definitions 20000).toOption.isSome = true := by
    decide +kernel
  obtain ⟨r, hr⟩ := Option.isSome_iff_exists.mp hrun
  have hmult : Market.oneMultiplier mixed.ctx (spreads.entries.map (·.1))
      s!"{mixed.underlying} options mix" = .ok 100 := toOption_eq_some.mp (by decide +kernel)
  have hlots : lotsOf (0 : ℚ) 100 = .ok 0 := toOption_eq_some.mp (by decide +kernel)
  obtain ⟨hcode, g, c, hg, -, hcheap⟩ := uncontested_cheapest reading hs (by decide) definitions_plain hbook hmult
    hlots (by decide +kernel) (toOption_eq_some.mp hr)
  exact ⟨hbook, r.1, r.2, hcode, g, c, hg, hcheap⟩

end TradeEngine.Margin
