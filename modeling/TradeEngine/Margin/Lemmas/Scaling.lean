import TradeEngine.Lib.Lockstep
import TradeEngine.Margin.Lemmas.Books

/-!
# Figures of scaled strategies

The margin formulas are of one degree in the units of the strategy: prices, strikes and fractions
stay, and every amount in money grows with the units. Said of two decimal libraries at once, it also
carries the figures of one library over to another.
-/

namespace TradeEngine.Margin

open Lib

variable {n : Nat} {D D' β β' : Type} [Decimal D] [Decimal D'] {k : Int}

/-- How the figures of two libraries compare when the first takes `k` times the units: `rel 0` of
prices and fractions, `rel 1` of amounts. -/
structure Scaling (D D' : Type) [Decimal D] [Decimal D'] (k : Int) where
  pos : 0 < k
  rel : Nat → D → D' → Prop
  zero : ∀ i, rel i 0 0
  parts : ∀ units scale, units < 2 ^ 63 → scale ≤ 28 →
    rel 0 (Decimal.ofParts units scale) (Decimal.ofParts units scale)
  int : ∀ {i : Nat} {q q' : Int64}, q.toInt = k ^ i * q'.toInt → rel i (decI q) (decI q')
  le : ∀ {i a a' b b'}, rel i a a' → rel i b b' → (a ≤ b ↔ a' ≤ b')
  add : ∀ {i a a' b b'}, rel i a a' → rel i b b' → Carries (rel i) (add a b) (add a' b')
  sub : ∀ {i a a' b b'}, rel i a a' → rel i b b' → Carries (rel i) (sub a b) (sub a' b')
  mul : ∀ {i j a a' b b'}, rel i a a' → rel j b b' → Carries (rel (i + j)) (mul a b) (mul a' b')
  neg : ∀ {i a a'}, rel i a a' → rel i (Decimal.neg a) (Decimal.neg a')
  abs : ∀ {i a a'}, rel i a a' → rel i (Decimal.abs a) (Decimal.abs a')

/-- The first strategy is `k` times the second. -/
structure Scaled (k : Int) (s s' : Matched n) : Prop where
  name : s.name = s'.name
  quantity : s.quantity.toInt = k * s'.quantity.toInt
  legs : List.Forall₂ (fun l l' => l.1 = l'.1 ∧ l.2.toInt = k * l'.2.toInt) s.legs s'.legs
  underlyingLots : s.underlyingLots.toInt = k * s'.underlyingLots.toInt

/-- Two quotes of one contract. -/
structure Quotes (S : Scaling D D' k) (c : Contract D) (c' : Contract D') : Prop where
  right : c.right = c'.right
  multiplier : c.multiplier = c'.multiplier
  style : c.style = c'.style
  strike : S.rel 0 c.strike c'.strike

/-- Two readings of one market. -/
structure Alike (S : Scaling D D' k) (m : Market n D) (m' : Market n D') : Prop where
  ctx : ∀ c, Quotes S (m.ctx c) (m'.ctx c)
  underlying : m.underlying = m'.underlying
  price : S.rel 0 m.price m'.price
  marks : ∀ c, Option.Rel (S.rel 0) (m.marks c) (m'.marks c)
  entries : Option.Rel (fun e e' => ∀ c, Option.Rel (S.rel 0) (e c) (e' c)) m.entries m'.entries
  initialFraction : S.rel 0 m.initialFraction m'.initialFraction
  maintenanceFraction : S.rel 0 m.maintenanceFraction m'.maintenanceFraction

/-- The figures of a strategy and of `k` times as much. -/
structure ScaledFigures (S : Scaling D D' k) (f : StrategyMargin n D) (f' : StrategyMargin n D') : Prop where
  name : f.name = f'.name
  underlying : f.underlying = f'.underlying
  quantity : f.quantity.toInt = k * f'.quantity.toInt
  legs : List.Forall₂ (fun l l' => l.1 = l'.1 ∧ l.2.toInt = k * l'.2.toInt) f.legs f'.legs
  shares : S.rel 1 f.shares f'.shares
  initial : S.rel 1 f.initial f'.initial
  maintenance : S.rel 1 f.maintenance f'.maintenance
  cashSecured : Option.Rel (S.rel 1) f.cashSecured f'.cashSecured
  netOfCredit : Option.Rel (S.rel 1) f.netOfCredit f'.netOfCredit

/-! ## Counts -/

theorem checked_scaled (hk : 0 < k) {q q' : Int} (h : q = k * q') :
    Carries (fun a b : Int64 => a.toInt = k * b.toInt) (checked q) (checked q') := by
  intro a ha
  have ha := checked_ok.mp ha
  have hbound := a.toInt_lt
  have hbound' := a.le_toInt
  have hle : q'.natAbs ≤ q.natAbs := by
    rw [h, Int.natAbs_mul]
    exact Nat.le_mul_of_pos_left _ (by omega)
  have hneg : q' < 0 → q < 0 := fun h' => h ▸ Int.mul_neg_of_pos_of_neg hk h'
  have hnonneg : 0 ≤ q' → 0 ≤ q := fun h' => h ▸ Int.mul_nonneg hk.le h'
  obtain ⟨b, hb⟩ := checked_of_bounds (k := q') (by omega) (by omega)
  have hb' := checked_ok.mp hb
  exact ⟨b, hb, show a.toInt = k * b.toInt by rw [ha, hb', h]⟩

theorem scaled_nonneg (hk : 0 < k) {q q' : Int} (h : q = k * q') : 0 ≤ q ↔ 0 ≤ q' := by
  rw [h]
  exact mul_nonneg_iff_of_pos_left hk

namespace Scaling

variable (S : Scaling D D' k) {i j : Nat} {a b : D} {a' b' : D'}

theorem lt (ha : S.rel i a a') (hb : S.rel i b b') : a < b ↔ a' < b' := by
  rw [← not_le, ← not_le, S.le hb ha]

theorem max (ha : S.rel i a a') (hb : S.rel i b b') : S.rel i (max a b) (max a' b') := by
  rcases le_total a b with h | h
  · rwa [max_eq_right h, max_eq_right ((S.le ha hb).mp h)]
  · rwa [max_eq_left h, max_eq_left ((S.le hb ha).mp h)]

theorem min (ha : S.rel i a a') (hb : S.rel i b b') : S.rel i (min a b) (min a' b') := by
  rcases le_total a b with h | h
  · rwa [min_eq_left h, min_eq_left ((S.le ha hb).mp h)]
  · rwa [min_eq_right h, min_eq_right ((S.le hb ha).mp h)]

theorem const (units scale : Nat) (hu : units < 2 ^ 63 := by decide) (hs : scale ≤ 28 := by decide) :
    S.rel 0 (Decimal.ofParts units scale) (Decimal.ofParts units scale) := S.parts units scale hu hs

theorem amount {q q' : Int64} (h : q.toInt = k * q'.toInt) : S.rel 1 (decI q) (decI q') :=
  S.int (by rw [h, pow_one])

theorem number (q : Int64) : S.rel 0 (decI q) (decI q) := S.int (by simp)

theorem mul3 {l : Nat} {c : D} {c' : D'} (ha : S.rel i a a') (hb : S.rel j b b') (hc : S.rel l c c') :
    Carries (S.rel (i + j + l)) (mul3 a b c) (mul3 a' b' c') :=
  (S.mul ha hb).bind fun _ _ h => S.mul h hc

end Scaling

/-! ## One contract -/

section
variable {S : Scaling D D' k} {c : Contract D} {c' : Contract D'} {p : D} {p' : D'}

theorem otm_scaled (hc : Quotes S c c') (hp : S.rel 0 p p') : Carries (S.rel 0) (otm c p) (otm c' p') := by
  refine Carries.ite (by rw [hc.right]) (fun _ => ?_) fun _ => ?_
  · exact (S.sub hc.strike hp).bind fun _ _ h => .ok (S.max h (S.zero 0))
  · exact (S.sub hp hc.strike).bind fun _ _ h => .ok (S.max h (S.zero 0))

theorem intrinsic_scaled (hc : Quotes S c c') (hp : S.rel 0 p p') :
    Carries (S.rel 0) (intrinsic c p) (intrinsic c' p') := by
  unfold intrinsic
  refine Carries.ite (S.le hp (S.zero 0)) (fun _ => .error) fun _ => ?_
  refine Carries.ite (by rw [hc.right]) (fun _ => ?_) fun _ => ?_
  · exact (S.sub hp hc.strike).bind fun _ _ h => .ok (S.max h (S.zero 0))
  · exact (S.sub hc.strike hp).bind fun _ _ h => .ok (S.max h (S.zero 0))

theorem nakedMargin_scaled (hc : Quotes S c c') {q q' : Int64} (hq : q.toInt = k * q'.toInt) (hp : S.rel 0 p p')
    {mark : D} {mark' : D'} (hmark : S.rel 0 mark mark') :
    Carries (S.rel 1) (nakedMargin c q p mark) (nakedMargin c' q' p' mark') := by
  unfold nakedMargin
  refine Carries.ite (scaled_nonneg S.pos hq) (fun _ => .ok (S.zero 1)) fun _ => ?_
  have hbase : S.rel 0 (if c.right = .put then c.strike else p) (if c'.right = .put then c'.strike else p') := by
    rw [hc.right]
    split
    · exact hc.strike
    · exact hp
  have hfraction (index : Bool) : S.rel 0 (if index then indexOtmFraction else equityOtmFraction)
      (if index then indexOtmFraction else equityOtmFraction) := by
    cases index with
    | true => exact S.const 15 2
    | false => exact S.const 20 2
  rw [hc.style]
  cases c'.style with
  | unresolved => exact .error
  | resolved _ index =>
      refine (S.mul (hfraction index) hp).bind fun _ _ hband => ?_
      refine (otm_scaled hc hp).bind fun _ _ hotm => ?_
      refine (S.sub hband hotm).bind fun _ _ hband => ?_
      refine (S.mul (S.const 10 2) hbase).bind fun _ _ hfloor => ?_
      refine (S.add hmark (S.max hfloor hband)).bind fun _ _ hshare => ?_
      refine (checked_scaled S.pos (by rw [hq, Int.mul_neg])).bind fun _ _ hcount => ?_
      rw [hc.multiplier]
      exact S.mul3 hshare (S.number _) (S.amount hcount)

end

/-! ## One strategy -/

section
variable {S : Scaling D D' k} {m : Market n D} {m' : Market n D'} {s s' : Matched n}

abbrev ScaledLeg (k : Int) (l l' : Fin n × Int64) : Prop := l.1 = l'.1 ∧ l.2.toInt = k * l'.2.toInt

/-- Initial before premium, maintenance, cash secured. -/
def Required (S : Scaling D D' k) (r : D × D × Option D) (r' : D' × D' × Option D') : Prop :=
  S.rel 1 r.1 r'.1 ∧ S.rel 1 r.2.1 r'.2.1 ∧ Option.Rel (S.rel 1) r.2.2 r'.2.2

theorem value_scaled (hm : Alike S m m') (c : Fin n) {q q' : Int64} (hq : q.toInt = k * q'.toInt) :
    Carries (S.rel 1) (m.value c q) (m'.value c q') := by
  unfold Market.value
  have hmark := hm.marks c
  generalize m.marks c = mark, m'.marks c = mark' at hmark
  cases hmark with
  | none => exact .error
  | some hmark =>
      rw [(hm.ctx c).multiplier]
      exact S.mul3 hmark (S.number _) (S.amount hq)

theorem leg_scaled (hm : Alike S m m') (hs : Scaled k s s') (right : Right) (short : Option Bool) :
    Carries (ScaledLeg k) (m.leg s right short) (m'.leg s' right short) := by
  have hfound := find?_rel hs.legs (p := fun x => (m.ctx x.1).right = right && short.all (decide (x.2.toInt < 0) == ·))
    (q := fun x => (m'.ctx x.1).right = right && short.all (decide (x.2.toInt < 0) == ·)) (by
      rintro ⟨c, q⟩ ⟨c', q'⟩ ⟨rfl, hq⟩
      have hneg : q.toInt < 0 ↔ q'.toInt < 0 := by
        rw [← not_le, ← not_le, scaled_nonneg S.pos hq]
      simp only [(hm.ctx c).right, hneg])
  unfold Market.leg
  generalize s.legs.find? _ = l, s'.legs.find? _ = l' at hfound
  cases hfound with
  | none => exact .error
  | some h => exact .ok h

theorem width_scaled (hm : Alike S m m') (hs : Scaled k s s') (right : Right) :
    Carries (S.rel 1) (m.width s right) (m'.width s' right) := by
  refine (leg_scaled hm hs right (some true)).bind ?_
  rintro ⟨sold, _⟩ ⟨_, _⟩ ⟨rfl, _⟩
  refine (leg_scaled hm hs right (some false)).bind ?_
  rintro ⟨held, _⟩ ⟨_, _⟩ ⟨rfl, _⟩
  have hrest {a : D} {a' : D'} (h : S.rel 0 a a') :
      Carries (S.rel 1) (mul3 (max a 0) (decI (m.ctx sold).multiplier) (decI s.quantity))
        (mul3 (max a' 0) (decI (m'.ctx sold).multiplier) (decI s'.quantity)) := by
    rw [(hm.ctx sold).multiplier]
    exact S.mul3 (S.max h (S.zero 0)) (S.number _) (S.amount hs.quantity)
  refine Carries.ite Iff.rfl (fun _ => ?_) fun _ => ?_
  · exact (S.sub (hm.ctx held).strike (hm.ctx sold).strike).bind fun _ _ h => hrest h
  · exact (S.sub (hm.ctx sold).strike (hm.ctx held).strike).bind fun _ _ h => hrest h

theorem first_scaled (hs : Scaled k s s') : Carries (ScaledLeg k) (Market.first s) (Market.first s') := by
  unfold Market.first
  have hlegs := hs.legs
  cases hlegs' : s.legs with
  | nil => exact .error
  | cons l ls =>
      rw [hlegs'] at hlegs
      obtain ⟨l', ls', hl, -, hls⟩ := List.forall₂_cons_left_iff.mp hlegs
      rw [hls]
      exact .ok hl

theorem neg_scaled (S : Scaling D D' k) {q q' : Int64} (hq : q.toInt = k * q'.toInt) :
    Carries (S.rel 1) (Market.neg (D := D) q) (Market.neg (D := D') q') :=
  (checked_scaled S.pos (by rw [hq, Int.mul_neg])).bind fun _ _ h => .ok (S.amount h)

theorem assignment_scaled {c : Contract D} {c' : Contract D'} (hc : Quotes S c c') {q q' : Int64}
    (hq : q.toInt = k * q'.toInt) : Carries (S.rel 1) (Market.assignment c q) (Market.assignment c' q') := by
  unfold Market.assignment
  rw [hc.multiplier]
  refine (S.mul hc.strike (S.number _)).bind fun _ _ h => ?_
  exact (neg_scaled S hq).bind fun _ _ hq => S.mul h hq

/-- The assigned strike against the price, for a covered leg, and what follows it. -/
theorem inTheMoney_scaled {R : β → β' → Prop} (hm : Alike S m m') (c : Fin n) {q q' : Int64}
    (hq : q.toInt = k * q'.toInt) {f : D → Result β} {f' : D' → Result β'}
    (h : ∀ a a', S.rel 1 a a' → Carries R (f a) (f' a')) :
    Carries R
      (do let amount ← intrinsic (m.ctx c) m.price
          let amount ← mul amount (decI (m.ctx c).multiplier)
          let sold ← Market.neg q
          let amount ← mul amount sold
          f amount)
      (do let amount ← intrinsic (m'.ctx c) m'.price
          let amount ← mul amount (decI (m'.ctx c).multiplier)
          let sold ← Market.neg q'
          let amount ← mul amount sold
          f' amount) := by
  rw [(hm.ctx c).multiplier]
  refine (intrinsic_scaled (hm.ctx c) hm.price).bind fun _ _ ha => ?_
  refine (S.mul ha (S.number _)).bind fun _ _ ha => ?_
  refine (neg_scaled S hq).bind fun _ _ hq => ?_
  exact (S.mul ha hq).bind h

variable {shares value initial maintenance : D} {shares' value' initial' maintenance' : D'}

theorem coveredCall_scaled (hm : Alike S m m') (hs : Scaled k s s') (hshares : S.rel 1 shares shares')
    (hvalue : S.rel 1 value value') (hinitial : S.rel 1 initial initial')
    (hmaintenance : S.rel 1 maintenance maintenance') :
    Carries (Required S) (m.coveredCall s shares value initial maintenance)
      (m'.coveredCall s' shares' value' initial' maintenance') := by
  refine (first_scaled hs).bind ?_
  rintro ⟨c, q⟩ ⟨_, q'⟩ ⟨rfl, hq⟩
  refine inTheMoney_scaled hm c hq fun itm itm' hitm => ?_
  refine (S.mul3 hm.maintenanceFraction (S.abs hshares) (S.min hm.price (hm.ctx c).strike)).bind fun _ _ hstock => ?_
  refine (value_scaled hm c hq).bind fun _ _ hcall => ?_
  refine (S.add hitm hstock).bind fun _ _ hassigned => ?_
  refine (S.mul (S.const 8 1) (S.abs hcall)).bind fun _ _ hcall' => ?_
  refine (S.add hcall' hinitial).bind fun _ _ hinitial' => ?_
  exact .ok ⟨hinitial', S.max hassigned (S.min hvalue (S.max hcall hmaintenance)), .some (S.zero 1)⟩

theorem protective_scaled (hm : Alike S m m') (hs : Scaled k s s') (hinitial : S.rel 1 initial initial')
    (hmaintenance : S.rel 1 maintenance maintenance') :
    Carries (Required S) (m.protective s initial maintenance) (m'.protective s' initial' maintenance') := by
  refine (first_scaled hs).bind ?_
  rintro ⟨c, q⟩ ⟨_, q'⟩ ⟨rfl, hq⟩
  refine (S.mul (S.const 10 2) (hm.ctx c).strike).bind fun _ _ hfloor => ?_
  refine (otm_scaled (hm.ctx c) hm.price).bind fun _ _ hotm => ?_
  refine (S.add hfloor hotm).bind fun _ _ hshare => ?_
  rw [(hm.ctx c).multiplier, hs.name]
  refine (S.mul3 hshare (S.number _) (S.amount hq)).bind fun _ _ hoption => ?_
  refine .ok ⟨hinitial, S.min hoption hmaintenance, ?_⟩
  dsimp only
  split
  · exact .some (S.zero 1)
  · exact .none

theorem coveredPut_scaled (hm : Alike S m m') (hs : Scaled k s s') (hinitial : S.rel 1 initial initial') :
    Carries (Required S) (m.coveredPut s initial) (m'.coveredPut s' initial') := by
  refine (first_scaled hs).bind ?_
  rintro ⟨c, q⟩ ⟨_, q'⟩ ⟨rfl, hq⟩
  refine inTheMoney_scaled hm c hq fun itm itm' hitm => ?_
  exact (S.add hinitial hitm).bind fun _ _ h => .ok ⟨h, h, .none⟩

theorem protectiveCollar_scaled (hm : Alike S m m') (hs : Scaled k s s') (hinitial : S.rel 1 initial initial') :
    Carries (Required S) (m.protectiveCollar s initial) (m'.protectiveCollar s' initial') := by
  refine (leg_scaled hm hs .put none).bind ?_
  rintro ⟨put, q⟩ ⟨_, q'⟩ ⟨rfl, hq⟩
  refine (leg_scaled hm hs .call none).bind ?_
  rintro ⟨call, r⟩ ⟨_, r'⟩ ⟨rfl, hr⟩
  refine (S.mul (S.const 10 2) (hm.ctx put).strike).bind fun _ _ hfloor => ?_
  refine (otm_scaled (hm.ctx put) hm.price).bind fun _ _ hotm => ?_
  refine (S.add hfloor hotm).bind fun _ _ hshare => ?_
  refine (S.mul (S.const 25 2) (hm.ctx call).strike).bind fun _ _ hcall => ?_
  dsimp only
  rw [(hm.ctx put).multiplier]
  refine (S.mul3 (S.min hshare hcall) (S.number _) (S.amount hq)).bind fun _ _ hmaintenance => ?_
  refine inTheMoney_scaled hm call hr fun itm itm' hitm => ?_
  exact (S.add hinitial hitm).bind fun _ _ h => .ok ⟨h, hmaintenance, .some (S.zero 1)⟩

theorem nakedLeg_scaled (hm : Alike S m m') {l l' : Fin n × Int64} (hl : ScaledLeg k l l') (cash : Bool) :
    Carries (Required S) (m.nakedLeg l cash) (m'.nakedLeg l' cash) := by
  obtain ⟨c, q⟩ := l
  obtain ⟨c', q'⟩ := l'
  obtain ⟨rfl, hq⟩ := hl
  have hmark : S.rel 0 ((m.marks c).getD 0) ((m'.marks c).getD 0) := by
    have hmark := hm.marks c
    generalize m.marks c = mark, m'.marks c = mark' at hmark
    cases hmark with
    | none => exact S.zero 0
    | some h => exact h
  refine (nakedMargin_scaled (hm.ctx c) hq hm.price hmark).bind fun _ _ hmargin => ?_
  cases cash with
  | false => exact .ok ⟨hmargin, hmargin, .none⟩
  | true =>
      refine Carries.bind (R := Option.Rel (S.rel 1)) ?_ fun _ _ hcash => .ok ⟨hmargin, hmargin, hcash⟩
      exact (assignment_scaled (hm.ctx c) hq).map fun _ _ h => .some h

theorem formula_scaled (hm : Alike S m m') (hs : Scaled k s s') (multiplier : Int64) :
    Carries (Required S) (m.formula s multiplier) (m'.formula s' multiplier) := by
  have hlots : s.underlyingLots.toInt * multiplier.toInt = k * (s'.underlyingLots.toInt * multiplier.toInt) := by
    rw [hs.underlyingLots, Int.mul_assoc]
  refine (checked_scaled S.pos hlots).bind fun _ _ hshares => ?_
  have hshares := S.amount hshares
  refine (S.mul (S.abs hshares) hm.price).bind fun _ _ hvalue => ?_
  refine (S.mul hm.initialFraction hvalue).bind fun _ _ hinitial => ?_
  refine (S.mul hm.maintenanceFraction hvalue).bind fun _ _ hmaintenance => ?_
  rw [hs.name]
  have hspread (right : Right) : Carries (Required S)
      (do let width ← m.width s right
          pure (width, width, some width))
      (do let width ← m'.width s' right
          pure (width, width, some width)) :=
    (width_scaled hm hs right).bind fun _ _ h => .ok ⟨h, h, .some h⟩
  refine Carries.ite Iff.rfl (fun _ => ?_) fun _ => ?_
  · exact (first_scaled hs).bind fun _ _ h => nakedLeg_scaled hm h _
  refine Carries.ite Iff.rfl (fun _ => .ok ⟨S.zero 1, S.zero 1, .some (S.zero 1)⟩) fun _ => ?_
  refine Carries.ite Iff.rfl (fun _ => hspread .call) fun _ => ?_
  refine Carries.ite Iff.rfl (fun _ => hspread .put) fun _ => ?_
  refine Carries.ite Iff.rfl (fun _ => ?_) fun _ => ?_
  · have hfound := find?_rel hs.legs (p := (·.2.toInt < 0)) (q := (·.2.toInt < 0)) (by
      rintro ⟨_, q⟩ ⟨_, q'⟩ ⟨_, hq⟩
      simp only [← not_le, scaled_nonneg S.pos hq])
    generalize s.legs.find? _ = l, s'.legs.find? _ = l' at hfound
    cases hfound with
    | none => exact .error
    | @some l l' h =>
        have hright : (m.ctx l.1).right = (m'.ctx l'.1).right := by rw [(hm.ctx l.1).right, h.1]
        change Carries (Required S) (m.nakedLeg l ((m.ctx l.1).right = .put))
          (m'.nakedLeg l' ((m'.ctx l'.1).right = .put))
        rw [hright]
        exact nakedLeg_scaled hm h _
  refine Carries.ite Iff.rfl (fun _ => coveredCall_scaled hm hs hshares hvalue hinitial hmaintenance) fun _ => ?_
  refine Carries.ite Iff.rfl (fun _ => protective_scaled hm hs hinitial hmaintenance) fun _ => ?_
  refine Carries.ite Iff.rfl (fun _ => coveredPut_scaled hm hs hinitial) fun _ => ?_
  exact Carries.ite Iff.rfl (fun _ => protectiveCollar_scaled hm hs hinitial) fun _ => .error

theorem oneMultiplier_alike (hm : Alike S m m') (legs : List (Fin n)) (mixes : String) :
    Market.oneMultiplier m.ctx legs mixes = Market.oneMultiplier m'.ctx legs mixes := by
  have h : ∀ c, (m.ctx c).multiplier = (m'.ctx c).multiplier := fun c => (hm.ctx c).multiplier
  simp only [Market.oneMultiplier, Market.sortedMultipliers, h]

theorem Scaled.contracts (hs : Scaled k s s') : s.legs.map (·.1) = s'.legs.map (·.1) := by
  rw [← List.forall₂_eq_eq_eq, List.forall₂_map_left_iff, List.forall₂_map_right_iff]
  exact hs.legs.imp fun _ _ h => h.1

theorem premium_scaled (hm : Alike S m m') {legs legs' : List (Fin n × Int64)}
    (hl : List.Forall₂ (ScaledLeg k) legs legs') :
    Carries (S.rel 1) (legs.foldlM (fun premium x => do add premium (← m.value x.1 x.2)) 0)
      (legs'.foldlM (fun premium x => do add premium (← m'.value x.1 x.2)) 0) := by
  refine Carries.foldlM hl ?_ (S.zero 1)
  rintro _ _ hpremium ⟨c, q⟩ ⟨_, q'⟩ ⟨rfl, hq⟩
  exact (value_scaled hm c hq).bind fun _ _ h => S.add hpremium h

theorem netOfCredit_scaled (hm : Alike S m m') (hs : Scaled k s s') (hmaintenance : S.rel 1 maintenance maintenance') :
    Carries (Option.Rel (S.rel 1)) (m.netOfCredit s maintenance) (m'.netOfCredit s' maintenance') := by
  unfold Market.netOfCredit
  have hentries := hm.entries
  generalize m.entries = entries, m'.entries = entries' at hentries
  cases hentries with
  | none => exact .ok .none
  | @some e e' he =>
      have hpriced : Option.Rel (List.Forall₂ fun x x' => ScaledLeg k x.1 x'.1 ∧ S.rel 0 x.2 x'.2)
          (s.legs.mapM fun x => (e x.1).map (x, ·)) (s'.legs.mapM fun x => (e' x.1).map (x, ·)) := by
        refine mapM_rel hs.legs ?_
        rintro ⟨c, q⟩ ⟨_, q'⟩ ⟨rfl, hq⟩
        have hentry := he c
        dsimp only
        generalize e c = entry, e' c = entry' at hentry
        cases hentry with
        | none => exact .none
        | some h => exact .some ⟨⟨rfl, hq⟩, h⟩
      dsimp only
      generalize (s.legs.mapM fun x => (e x.1).map (x, ·)) = priced,
        (s'.legs.mapM fun x => (e' x.1).map (x, ·)) = priced' at hpriced
      cases hpriced with
      | none => exact .ok .none
      | some hpriced =>
          refine Carries.bind (R := S.rel 1) ?_ fun _ _ hopened => ?_
          · refine Carries.foldlM hpriced ?_ (S.zero 1)
            rintro _ _ hopened ⟨⟨c, q⟩, entry⟩ ⟨⟨_, q'⟩, entry'⟩ ⟨⟨rfl, hq⟩, hentry⟩
            dsimp only at hq hentry ⊢
            rw [(hm.ctx c).multiplier]
            exact (S.mul3 hentry (S.number _) (S.amount hq)).bind fun _ _ h => S.add hopened h
          · exact (S.sub hmaintenance (S.max (S.neg hopened) (S.zero 1))).map fun _ _ h => .some h

/-- The figures of `k` times a strategy, at the same prices, are `k` times its figures. -/
theorem strategyMargin_scaled (hm : Alike S m m') (hs : Scaled k s s') :
    Carries (ScaledFigures S) (strategyMargin s m) (strategyMargin s' m') := by
  unfold strategyMargin
  refine Carries.ite (S.le hm.price (S.zero 0)) (fun _ => .error) fun _ => ?_
  refine (Carries.forM hs.legs ?_).bind fun _ _ _ => ?_
  · rintro ⟨c, q⟩ ⟨_, q'⟩ ⟨rfl, hq⟩
    refine Carries.ite ?_ (fun _ => .ok rfl) fun _ => .error
    have hmark := hm.marks c
    dsimp only
    generalize m.marks c = mark, m'.marks c = mark' at hmark
    cases hmark with
    | none => rfl
    | some h => simpa using S.lt (S.zero 0) h
  rw [oneMultiplier_alike hm, hs.contracts, hs.name]
  refine Carries.bind (R := Eq) (fun a ha => ⟨a, ha, rfl⟩) ?_
  rintro multiplier _ rfl
  refine (formula_scaled hm hs multiplier).bind ?_
  rintro ⟨initial, maintenance, cash⟩ ⟨initial', maintenance', cash'⟩ ⟨hinitial, hmaintenance, hcash⟩
  refine (premium_scaled hm hs.legs).bind fun _ _ hpremium => ?_
  refine (netOfCredit_scaled hm hs hmaintenance).bind fun _ _ hnet => ?_
  have hlots : s.underlyingLots.toInt * multiplier.toInt = k * (s'.underlyingLots.toInt * multiplier.toInt) := by
    rw [hs.underlyingLots, Int.mul_assoc]
  refine (checked_scaled S.pos hlots).bind fun _ _ hshares => ?_
  refine (S.add hinitial (S.max hpremium (S.zero 1))).bind fun _ _ hinitial => ?_
  exact .ok ⟨rfl, hm.underlying, hs.quantity, hs.legs, S.amount hshares, hinitial, hmaintenance, hcash, hnet⟩

end

end TradeEngine.Margin
