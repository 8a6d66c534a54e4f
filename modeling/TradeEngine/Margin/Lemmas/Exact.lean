import TradeEngine.Margin.Lemmas.Cheapest
import TradeEngine.Margin.Lemmas.Scaling

/-!
# Figures without rounding

With each rounded result refused, what the library computes is what rational arithmetic computes, and
where nothing is refused the library itself computes the same.
-/

namespace TradeEngine.Margin

open Lib Prog Unrounded

variable {n : Nat} {D : Type}

/-! ## Rational figures -/

@[simp] theorem rational_add (a b : ℚ) : add a b = .ok (a + b) := rfl

@[simp] theorem rational_sub (a b : ℚ) : sub a b = .ok (a - b) := rfl

@[simp] theorem rational_mul (a b : ℚ) : mul a b = .ok (a * b) := rfl

@[simp] theorem rational_decI (q : Int64) : (decI q : ℚ) = q.toInt := rfl

theorem orOverflow_ok [Decimal D] {x : Option D} {a : D} : orOverflow x = .ok a ↔ x = some a := by
  cases x with
  | none => simp [orOverflow]
  | some b => simp [orOverflow]

namespace Reading
variable [Decimal D] (R : Reading D)

theorem exact_add {a b c : D} (h : @add D R.exact a b = .ok c) : add a b = .ok c ∧ R.val c = R.val a + R.val b := by
  have h := Option.filter_eq_some_iff.mp (orOverflow_ok.mp h)
  exact ⟨orOverflow_ok.mpr h.1, by simpa using h.2⟩

theorem exact_sub {a b c : D} (h : @sub D R.exact a b = .ok c) : sub a b = .ok c ∧ R.val c = R.val a - R.val b := by
  have h := Option.filter_eq_some_iff.mp (orOverflow_ok.mp h)
  exact ⟨orOverflow_ok.mpr h.1, by simpa using h.2⟩

theorem exact_mul {a b c : D} (h : @mul D R.exact a b = .ok c) : mul a b = .ok c ∧ R.val c = R.val a * R.val b := by
  have h := Option.filter_eq_some_iff.mp (orOverflow_ok.mp h)
  exact ⟨orOverflow_ok.mpr h.1, by simpa using h.2⟩

/-- The library without rounding against the library itself. -/
def itself : @Scaling D D R.exact _ 1 := by
  refine @Scaling.mk D D R.exact _ 1 one_pos (fun _ a b => a = b) (fun _ => rfl) (fun _ _ _ _ => rfl) ?_ ?_ ?_ ?_ ?_
    (fun h => h ▸ rfl) fun h => h ▸ rfl
  · intro i q q' h
    rw [one_pow, one_mul, Int64.toInt_inj] at h
    exact h ▸ rfl
  · rintro _ a _ b _ rfl rfl
    exact Iff.rfl
  · rintro _ a _ b _ rfl rfl c h
    exact ⟨c, (R.exact_add h).1, rfl⟩
  · rintro _ a _ b _ rfl rfl c h
    exact ⟨c, (R.exact_sub h).1, rfl⟩
  · rintro _ _ a _ b _ rfl rfl c h
    exact ⟨c, (R.exact_mul h).1, rfl⟩

/-- The library without rounding against rational arithmetic. -/
def rationally : @Scaling D ℚ R.exact _ 1 := by
  refine @Scaling.mk D ℚ R.exact _ 1 one_pos (fun _ a b => R.val a = b) (fun _ => R.zero) R.ofParts ?_ ?_ ?_ ?_ ?_
    ?_ ?_
  · intro i q q' h
    rw [one_pow, one_mul, Int64.toInt_inj] at h
    exact h ▸ R.ofInt q
  · rintro _ a _ b _ rfl rfl
    exact R.le a b
  · rintro _ a _ b _ rfl rfl c h
    exact ⟨_, rfl, (R.exact_add h).2⟩
  · rintro _ a _ b _ rfl rfl c h
    exact ⟨_, rfl, (R.exact_sub h).2⟩
  · rintro _ _ a _ b _ rfl rfl c h
    exact ⟨_, rfl, (R.exact_mul h).2⟩
  · rintro _ a _ rfl
    exact R.neg a
  · rintro _ a _ rfl
    exact R.abs a

end Reading

/-- Rational figures of `k` times the units. -/
def scaling {k : Int} (hk : 0 < k) : Scaling ℚ ℚ k where
  pos := hk
  rel i a b := a = k ^ i * b
  zero _ := (mul_zero _).symm
  parts _ _ _ _ := by rw [pow_zero, one_mul]
  int h := by
    simp only [rational_decI, h]
    push_cast
    rfl
  le := by
    rintro i _ a _ b rfl rfl
    have hpow : (0 : ℚ) < (k : ℚ) ^ i := by positivity
    exact mul_le_mul_iff_right₀ hpow
  add := by
    rintro i _ a _ b rfl rfl
    exact .ok (by ring)
  sub := by
    rintro i _ a _ b rfl rfl
    exact .ok (by ring)
  mul := by
    rintro i j _ a _ b rfl rfl
    exact .ok (by ring)
  neg := by
    rintro i _ a rfl
    exact (mul_neg _ _).symm
  abs := by
    rintro i _ a rfl
    change |(k : ℚ) ^ i * a| = (k : ℚ) ^ i * |a|
    rw [abs_mul, abs_of_pos (by positivity)]

/-! ## The library without rounding -/

section
variable [Decimal D]

theorem Alike.itself (R : Reading D) (m : Market n D) : @Alike n D D R.exact _ 1 R.itself m m := by
  have hopt (o : Option D) : Option.Rel (fun a b : D => a = b) o o := by
    cases o with
    | none => exact .none
    | some a => exact .some rfl
  refine @Alike.mk n D D R.exact _ 1 R.itself m m (fun _ => ?_) rfl rfl (fun _ => hopt _) ?_ rfl rfl
  · exact @Quotes.mk D D R.exact _ 1 R.itself _ _ rfl rfl rfl rfl
  cases m.entries with
  | none => exact .none
  | some e => exact .some fun c => hopt _

theorem Scaled.itself (s : Matched n) : Scaled 1 s s := by
  refine ⟨rfl, (one_mul _).symm, ?_, (one_mul _).symm⟩
  exact List.forall₂_same.mpr fun l _ => ⟨rfl, (one_mul _).symm⟩

theorem ScaledFigures.itself {R : Reading D} {f f' : StrategyMargin n D}
    (h : @ScaledFigures n D D R.exact _ 1 R.itself f f') : f = f' := by
  have hopt : ∀ {o o' : Option D}, Option.Rel (fun a b : D => a = b) o o' → o = o' := by
    intro o o' h
    cases h with
    | none => rfl
    | some h => rw [h]
  obtain ⟨hname, hunderlying, hquantity, hlegs, hshares, hinitial, hmaintenance, hcash, hnet⟩ := h
  rw [one_mul, Int64.toInt_inj] at hquantity
  have hlegs : f.legs = f'.legs := by
    rw [← List.forall₂_eq_eq_eq]
    refine hlegs.imp ?_
    rintro ⟨c, q⟩ ⟨_, q'⟩ ⟨rfl, hq⟩
    rw [one_mul, Int64.toInt_inj] at hq
    exact Prod.ext rfl hq
  cases f
  cases f'
  simp only [StrategyMargin.mk.injEq]
  exact ⟨hname, hunderlying, hquantity, hlegs, hshares, hinitial, hmaintenance, hopt hcash, hopt hnet⟩

theorem strategyMargin_refuses (R : Reading D) (s : Matched n) (m : Market n D) :
    Refuses (@strategyMargin D R.exact n s m) (strategyMargin s m) := by
  intro f hf
  obtain ⟨f', hf', hfigures⟩ := @strategyMargin_scaled n D D R.exact _ 1 R.itself m m s s (.itself R m) (.itself s) f hf
  rw [hfigures.itself]
  exact hf'

theorem addCost_refuses (R : Reading D) (a b : Cost D) : Refuses (@addCost D R.exact a b) (addCost a b) := by
  refine Refuses.bind (fun c h => (R.exact_add h).1) fun _ _ => ?_
  refine Refuses.bind (fun c h => (R.exact_add h).1) fun _ _ => ?_
  exact Refuses.bind (fun c h => (R.exact_add h).1) fun _ _ => .refl

theorem lotsCost_refuses (R : Reading D) (x : Search n D) (left : Int64) :
    Refuses (@Search.lotsCost n D R.exact x left) (x.lotsCost left) := by
  refine Refuses.bind .refl fun _ _ => Refuses.bind (Refuses.bind ?_ fun _ _ => ?_) fun _ _ => ?_
  · exact fun c h => (R.exact_mul h).1
  · exact fun c h => (R.exact_mul h).1
  refine Refuses.bind (fun c h => (R.exact_mul h).1) fun _ _ => ?_
  exact Refuses.bind (fun c h => (R.exact_mul h).1) fun _ _ => .refl

/-! ## Searching without rounding -/

def Stop.Refused (e : Stop) : Prop := ∃ m, e = .err m

omit [Decimal D] in
theorem lift_tracks {α : Type} {r r' : Result α} (h : Refuses r r') :
    Tracks Stop.Refused (lift (Stop.lift r) : Searching n D α) (lift (Stop.lift r')) := by
  refine Tracks.lift (fun a ha => lift_ok.mpr (h a (lift_ok.mp ha))) fun e he => ?_
  cases r with
  | ok a => cases he
  | error m =>
      cases he
      exact ⟨m, rfl⟩

namespace Reading
variable (R : Reading D) (x : Search n D)

theorem figures_tracks (s : Matched n) : Tracks Stop.Refused (@Search.figures n D R.exact x s) (x.figures s) := by
  refine Tracks.refl.bind fun priced => ?_
  cases priced.find? (·.1 = s) with
  | some found => exact .refl
  | none => exact (lift_tracks (strategyMargin_refuses R s x.market)).bind fun _ => .refl

theorem strategyCost_tracks (s : Matched n) :
    Tracks Stop.Refused (@Search.strategyCost n D R.exact x s) (x.strategyCost s) :=
  (R.figures_tracks x s).bind fun _ => .refl

theorem place_tracks {best best' : Book n → Int64 → Searching n D (Option (Grouping n D))}
    (hbest : ∀ items lots, Tracks Stop.Refused (best items lots) (best' items lots)) (items : Book n) (lots : Int64)
    (found : Option (Grouping n D)) (candidate : Matched n) :
    Tracks Stop.Refused (@Search.place n D R.exact x best items lots found candidate)
      (x.place best' items lots found candidate) := by
  refine Tracks.refl.bind fun remaining => Tracks.refl.bind fun next => (hbest _ _).bind fun rest => ?_
  cases rest with
  | none => exact .refl
  | some rest =>
      refine (R.strategyCost_tracks x candidate).bind fun own => ?_
      exact (lift_tracks (addCost_refuses R own rest.cost)).bind fun cost => .refl

theorem group_tracks {best best' : Book n → Int64 → Searching n D (Option (Grouping n D))}
    (hbest : ∀ items lots, Tracks Stop.Refused (best items lots) (best' items lots)) (items : Book n) (lots : Int64) :
    Tracks Stop.Refused (@Search.group n D R.exact x best items lots) (x.group best' items lots) := by
  unfold Search.group
  cases items.entries with
  | nil => exact (lift_tracks (lotsCost_refuses R x lots)).bind fun _ => .refl
  | cons first _ =>
      refine Tracks.refl.bind fun cands => ?_
      exact Tracks.foldlM (fun found m _ => R.place_tracks x hbest items lots found m) none

theorem best_tracks (depth : Nat) (items : Book n) (lots : Int64) :
    Tracks Stop.Refused (@Search.best n D R.exact x depth items lots) (x.best depth items lots) := by
  induction depth generalizing items lots with
  | zero => exact .refl
  | succ depth ih =>
      refine Tracks.refl.bind fun memo => ?_
      cases memo.find? (·.1 = (items, lots)) with
      | some found => exact .refl
      | none =>
          refine Tracks.refl.bind fun memo' => ?_
          split
          · exact .refl
          · exact (R.group_tracks x ih items lots).bind fun _ => .refl

theorem lean_tracks (book : Book n) (lots : Int64) :
    Tracks Stop.Refused (@Search.lean n D R.exact x book lots) (x.lean book lots) := by
  refine Tracks.refl.bind ?_
  rintro ⟨rows, left⟩
  refine (lift_tracks (lotsCost_refuses R x left)).bind fun start => ?_
  refine (Tracks.foldlM (fun cost m _ => ?_) start).bind fun _ => .refl
  exact (R.strategyCost_tracks x m).bind fun own => lift_tracks (addCost_refuses R cost own)

theorem choose_tracks (book : Book n) (lots : Int64) :
    Tracks Stop.Refused (@Search.choose n D R.exact x book lots) (x.choose book lots) := by
  refine (R.lean_tracks x book lots).bind fun greedy => ?_
  refine Tracks.attempt (R.best_tracks x _ _ _) (fun _ => .refl) ?_
  rintro _ ⟨m, rfl⟩
  rfl

/-- Where no figure is refused, the limit is hit in both or in neither. -/
theorem hitsLimit_exact {book : Book n} {lots : Int64} {g : Grouping n D} {c : Cache n D}
    (h : @Search.choose n D R.exact x book lots ⟨[], []⟩ = (.ok g, c)) :
    @Search.hitsLimit n D R.exact x book lots = x.hitsLimit book lots := by
  obtain ⟨g₀, c₀, hlean, h⟩ := bind_ok.mp h
  have hlean' : x.lean book lots ⟨[], []⟩ = (.ok g₀, c₀) := by
    rcases R.lean_tracks x book lots ⟨[], []⟩ with ⟨e, _, he⟩ | hsame
    · rw [hlean] at he
      cases he
    · rw [← hsame, hlean]
  have hbest : @Search.bestOf n D R.exact x book lots c₀ = x.bestOf book lots c₀ := by
    rcases R.best_tracks x (book.size + 1) (x.items book) lots c₀ with ⟨_, ⟨m, rfl⟩, he⟩ | hsame
    · obtain ⟨e, c₁, hattempt, h⟩ := bind_ok.mp h
      simp only [attempt, Prod.mk.injEq, Except.ok.injEq] at hattempt
      obtain ⟨rfl, rfl⟩ := hattempt
      rw [show (@Search.bestOf n D R.exact x book lots c₀).1 = .error (.err m) from he] at h
      cases h
    · exact hsame
  simp only [Search.hitsLimit, hlean, hlean', hbest]

theorem marginBook_exact {market : Market n D} {book : Book n} {shares : D} {defs : List StratDef} {limit : Nat}
    {r : List (StrategyMargin n D) × D} (h : @marginBook n D R.exact market book shares defs limit = .ok r) :
    marginBook market book shares defs limit = .ok r := by
  simp only [marginBook, bind_eq_ok] at h ⊢
  obtain ⟨multiplier, hmult, lots, hlots, h⟩ := h
  refine ⟨multiplier, hmult, lots, hlots, ?_⟩
  have htracks : Tracks Stop.Refused
      (do let chosen ← @Search.choose n D R.exact ⟨market, defs, multiplier, limit⟩ book lots
          let lotsUsed ← lift (Stop.lift (checked (lots.toInt - chosen.left.toInt)))
          let used ← lift (Stop.lift (checked (lotsUsed.toInt * multiplier.toInt)))
          let figures ← chosen.strategies.mapM (@Search.figures n D R.exact ⟨market, defs, multiplier, limit⟩)
          let rest ← lift (Stop.lift (@sub D R.exact shares (decI used)))
          pure (figures, rest) : Searching n D (List (StrategyMargin n D) × D))
      (do let chosen ← Search.choose ⟨market, defs, multiplier, limit⟩ book lots
          let lotsUsed ← lift (Stop.lift (checked (lots.toInt - chosen.left.toInt)))
          let used ← lift (Stop.lift (checked (lotsUsed.toInt * multiplier.toInt)))
          let figures ← chosen.strategies.mapM (Search.figures ⟨market, defs, multiplier, limit⟩)
          let rest ← lift (Stop.lift (sub shares (decI used)))
          pure (figures, rest)) := by
    refine (R.choose_tracks _ book lots).bind fun chosen => Tracks.refl.bind fun _ => Tracks.refl.bind fun used => ?_
    refine (Tracks.mapM fun m => R.figures_tracks _ m).bind fun figures => ?_
    exact (lift_tracks fun c h => (R.exact_sub h).1).bind fun _ => .refl
  rcases htracks ⟨[], []⟩ with ⟨e, _, he⟩ | hsame
  · cases (h.symm.trans he : Except.ok r = .error e)
  · exact (congrArg Prod.fst hsame).symm.trans h

end Reading

/-! ## What the search compares -/

theorem Alike.rationally (R : Reading D) (m : Market n D) :
    @Alike n D ℚ R.exact _ 1 R.rationally m (R.market m) := by
  have hopt (o : Option D) : Option.Rel (fun (a : D) (b : ℚ) => R.val a = b) o (o.map R.val) := by
    cases o with
    | none => exact .none
    | some a => exact .some rfl
  refine @Alike.mk n D ℚ R.exact _ 1 R.rationally m (R.market m) (fun _ => ?_) rfl rfl (fun _ => hopt _) ?_ rfl rfl
  · exact @Quotes.mk D ℚ R.exact _ 1 R.rationally _ _ rfl rfl rfl rfl
  · unfold Reading.market
    dsimp only
    cases m.entries with
    | none => exact .none
    | some e => exact .some fun c => hopt _

namespace Reading
variable (R : Reading D)

theorem lt (a b : D) : a < b ↔ R.val a < R.val b := by
  rw [← not_le, ← not_le, R.le]

theorem inj (a b : D) : a = b ↔ R.val a = R.val b := by
  rw [le_antisymm_iff, le_antisymm_iff, R.le, R.le]

def cost (c : Cost D) : Cost ℚ :=
  toLex (R.val (ofLex c).1, toLex (R.val (ofLex (ofLex c).2).1, R.val (ofLex (ofLex c).2).2))

theorem cost_le (a b : Cost D) : a ≤ b ↔ R.cost a ≤ R.cost b := by
  simp only [cost, Prod.Lex.le_iff, ofLex_toLex, R.lt, R.inj, R.le]

theorem cost_add {a b c : Cost D} (h : @addCost D R.exact a b = .ok c) : R.cost c = R.cost a + R.cost b := by
  simp only [addCost, bind_eq_ok, pure_eq_ok] at h
  obtain ⟨naked, hn, maintenance, hm, initial, hi, rfl⟩ := h
  simp only [cost, Margin.cost, ofLex_toLex, (R.exact_add hn).2, (R.exact_add hm).2, (R.exact_add hi).2]
  rfl

theorem cost_row (x : Search n D) {m : Matched n} {f : StrategyMargin n D}
    (h : @strategyMargin D R.exact n m x.market = .ok f) : RowCost (R.search x) m (R.cost (Search.costOf m f)) := by
  obtain ⟨f', hf', hfigures⟩ :=
    @strategyMargin_scaled n D ℚ R.exact _ 1 R.rationally x.market (R.market x.market) m m (.rationally R _) (.itself m) f h
  refine ⟨f', hf', ?_⟩
  obtain ⟨-, -, -, -, -, hinitial, hmaintenance, -, -⟩ := hfigures
  change R.val f.initial = f'.initial at hinitial
  change R.val f.maintenance = f'.maintenance at hmaintenance
  unfold Search.costOf
  split
  · simp only [cost, Margin.cost, ofLex_toLex, hmaintenance, hinitial, R.ofInt, rational_decI]
  · simp only [cost, Margin.cost, ofLex_toLex, hmaintenance, hinitial, R.zero]

theorem cost_stock (x : Search n D) {left : Int64} {c : Cost D} (h : @Search.lotsCost n D R.exact x left = .ok c) :
    (R.search x).lotsCost left = .ok (R.cost c) := by
  simp only [Search.lotsCost, mul3, bind_eq_ok, pure_eq_ok] at h
  obtain ⟨count, hcount, _, ⟨_, hvalue', hvalue⟩, _, hmaintenance, _, hinitial, rfl⟩ := h
  have hwhole (q : Int64) : R.val (@decI D R.exact q) = q.toInt := R.ofInt q
  simp only [Search.lotsCost, mul3, hcount, search, market, ok_bind, rational_mul, rational_decI]
  simp only [cost, Margin.cost, ofLex_toLex, (R.exact_mul hmaintenance).2, (R.exact_mul hinitial).2,
    (R.exact_mul hvalue).2, (R.exact_mul hvalue').2, hwhole, R.zero]
  rfl

/-- Without rounding, the search adds up and compares rational costs. -/
def worth (x : Search n D) : @Worth n D R.exact x (R.search x) :=
  @Worth.mk n D R.exact x (R.search x) R.cost R.cost_le R.cost_add (R.cost_row x) (R.cost_stock x)

end Reading

end

end TradeEngine.Margin
