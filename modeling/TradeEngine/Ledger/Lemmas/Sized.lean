import TradeEngine.Ledger.Lemmas.Expected
import TradeEngine.Money.Whole

/-!
# Fills of a mirror of moderate size

Where no ticket comes to `10¹⁴` units, and all of them together not to `10²⁸` contracts, the fold
rounds nothing and refuses no fill for its arithmetic.
-/

namespace TradeEngine

open Lib

variable {D : RustDecimal}

/-! ## Whole amounts -/

def Whole (x : ℚ) : Prop := ∃ n : ℤ, x = n

namespace Whole

variable {x y : ℚ}

theorem zero : Whole 0 := ⟨0, by simp⟩

theorem cast (n : ℤ) : Whole n := ⟨n, rfl⟩

theorem add (hx : Whole x) (hy : Whole y) : Whole (x + y) := by
  obtain ⟨n, rfl⟩ := hx
  obtain ⟨k, rfl⟩ := hy
  exact ⟨n + k, by push_cast; rfl⟩

theorem sub (hx : Whole x) (hy : Whole y) : Whole (x - y) := by
  obtain ⟨n, rfl⟩ := hx
  obtain ⟨k, rfl⟩ := hy
  exact ⟨n - k, by push_cast; rfl⟩

theorem mul (hx : Whole x) (hy : Whole y) : Whole (x * y) := by
  obtain ⟨n, rfl⟩ := hx
  obtain ⟨k, rfl⟩ := hy
  exact ⟨n * k, by push_cast; rfl⟩

/-- A whole amount below another has room for one more. -/
theorem add_one_le (hx : Whole x) (hy : Whole y) (h : x < y) : x + 1 ≤ y := by
  obtain ⟨n, rfl⟩ := hx
  obtain ⟨k, rfl⟩ := hy
  exact_mod_cast h

theorem sign (s : Side) : Whole s.sign.val := by
  rw [s.sign_val]
  cases s
  · exact ⟨1, by simp [Side.unit]⟩
  · exact ⟨-1, by simp [Side.unit]⟩

theorem total {l : List Money} (h : ∀ m ∈ l, Whole m.val) : Whole (TradeEngine.total l) := by
  refine sum_whole fun x hx => ?_
  obtain ⟨m, hm, rfl⟩ := List.mem_map.mp hx
  exact h m hm

end Whole

private theorem natAbs_lt {k : ℤ} {n : ℕ} (h : |(k : ℚ)| < n) : k.natAbs < n := by
  have hk : |k| < n := by exact_mod_cast h
  rw [Int.abs_eq_natAbs] at hk
  exact_mod_cast hk

theorem Money.add_ok {a b : Money} (ha : Whole a.val) (hb : Whole b.val)
    (h : |a.val + b.val| < 10 ^ 28) : ∃ r, Money.add a b = .ok r ∧ r.val = a.val + b.val := by
  obtain ⟨k, hk⟩ := ha
  obtain ⟨l, hl⟩ := hb
  have hlt : |((k + l : ℤ) : ℚ)| < (10 ^ 28 : ℕ) := by
    push_cast
    rwa [← hk, ← hl]
  exact Money.add_whole hk hl (natAbs_lt hlt)

namespace Ops

variable {a b : Money}

theorem add_ok (ha : Whole a.val) (hb : Whole b.val) (h : |a.val + b.val| < 10 ^ 28) :
    ∃ r, add (Unrounded D) a b = .ok r ∧ r.val = a.val + b.val := by
  obtain ⟨r, hr, hval⟩ := Money.add_ok ha hb h
  exact ⟨r, except_mapError_eq_ok.mpr (keepExact_eq_ok.mpr ⟨hr, hval⟩), hval⟩

theorem sub_ok (ha : Whole a.val) (hb : Whole b.val) (h : |a.val - b.val| < 10 ^ 28) :
    ∃ r, sub (Unrounded D) a b = .ok r ∧ r.val = a.val - b.val := by
  obtain ⟨k, hk⟩ := ha
  obtain ⟨l, hl⟩ := hb
  have hlt : |((k - l : ℤ) : ℚ)| < (10 ^ 28 : ℕ) := by
    push_cast
    rwa [← hk, ← hl]
  obtain ⟨r, hr, hval⟩ := Money.sub_whole hk hl (natAbs_lt hlt)
  exact ⟨r, except_mapError_eq_ok.mpr (keepExact_eq_ok.mpr ⟨hr, hval⟩), hval⟩

theorem mul_ok (ha : Whole a.val) (hb : Whole b.val) (h : |a.val * b.val| < 10 ^ 28) :
    ∃ r, mul (Unrounded D) a b = .ok r ∧ r.val = a.val * b.val := by
  obtain ⟨k, hk⟩ := ha
  obtain ⟨l, hl⟩ := hb
  have hlt : |((k * l : ℤ) : ℚ)| < (10 ^ 28 : ℕ) := by
    push_cast
    rwa [← hk, ← hl]
  obtain ⟨r, hr, hval⟩ := Money.mul_whole hk hl (natAbs_lt hlt)
  exact ⟨r, except_mapError_eq_ok.mpr (keepExact_eq_ok.mpr ⟨hr, hval⟩), hval⟩

theorem mulI_ok {n : ℤ} (ha : Whole a.val) (hn : |(n : ℚ)| < 10 ^ 28) (h : |a.val * n| < 10 ^ 28) :
    ∃ r, mulI (Unrounded D) a n = .ok r ∧ r.val = a.val * n := by
  have hlt := natAbs_lt (n := 10 ^ 28) (k := n) (by push_cast; exact hn)
  obtain ⟨b, hb, hbval⟩ := Money.fromI128_ok (k := n) (by omega)
  obtain ⟨r, hr, hval⟩ := mul_ok (D := D) ha (hbval ▸ Whole.cast n) (by rwa [hbval])
  rw [hbval] at hval
  rw [mul, except_mapError_eq_ok] at hr
  exact ⟨r, except_mapError_eq_ok.mpr (bind_eq_ok.mpr ⟨b, hb, hr⟩), hval⟩

theorem addOne_ok (ha : Whole a.val) (h : |a.val + 1| < 10 ^ 28) :
    ∃ r, ((Unrounded D).addI a 1).mapError derr = .ok r := by
  obtain ⟨b, hb, hbval⟩ := Money.fromI128_ok (k := 1) (by norm_num)
  have hone : b.val = 1 := by rw [hbval]; norm_num
  obtain ⟨r, hr, -⟩ := add_ok (D := D) ha (hbval ▸ Whole.cast 1) (by rwa [hone])
  rw [add, except_mapError_eq_ok] at hr
  exact ⟨r, except_mapError_eq_ok.mpr (bind_eq_ok.mpr ⟨b, hb, hr⟩)⟩

theorem sum_ok {l : List Money} {s : Money} (hs : Whole s.val) (hs0 : 0 ≤ s.val)
    (hl : ∀ m ∈ l, Whole m.val ∧ 0 ≤ m.val) (h : s.val + total l < 10 ^ 28) :
    ∃ r, l.foldlM (add (Unrounded D)) s = .ok r := by
  induction l generalizing s with
  | nil => exact ⟨s, rfl⟩
  | cons m l ih =>
      obtain ⟨hm, hm0⟩ := hl m List.mem_cons_self
      have hrest : 0 ≤ total l := List.sum_nonneg fun x hx => by
        obtain ⟨y, hy, rfl⟩ := List.mem_map.mp hx
        exact (hl y (List.mem_cons_of_mem _ hy)).2
      rw [total_cons] at h
      obtain ⟨t, ht, htval⟩ := add_ok (D := D) hs hm (by rw [abs_of_nonneg (by linarith)]; linarith)
      obtain ⟨r, hr⟩ := ih (htval ▸ hs.add hm) (by linarith)
        (fun y hy => hl y (List.mem_cons_of_mem _ hy)) (by linarith)
      exact ⟨r, by simp only [List.foldlM_cons, bind_eq_ok]; exact ⟨t, ht, hr⟩⟩

end Ops

/-! ## Shares -/

theorem bumpShares_ok {ws ss : List Money} {r : ℤ} (h : List.Forall₂ (fun w s : Money =>
    Whole s.val ∧ 0 ≤ s.val ∧ Whole w.val ∧ w.val < 10 ^ 28) ws ss) :
    ∃ ps, bumpShares (Unrounded D) (ws.zip ss) r = .ok ps := by
  induction h generalizing r with
  | nil => exact ⟨[], rfl⟩
  | @cons w s ws ss hs hrest ih =>
      rw [List.zip_cons_cons, bumpShares]
      split
      · exact ⟨_, rfl⟩
      · split
        · rename_i hlt
          rw [Money.lt_iff] at hlt
          obtain ⟨hwhole, hs0, hw, hwlt⟩ := hs
          have hroom : s.val + 1 ≤ w.val := hwhole.add_one_le hw hlt
          obtain ⟨s', hs'⟩ := Ops.addOne_ok (D := D) hwhole
            (by rw [abs_of_nonneg (by linarith)]; linarith)
          obtain ⟨ps, hps⟩ := ih (r := r - 1)
          exact ⟨s' :: ps, by simp only [bind_eq_ok, pure_eq_ok]; exact ⟨s', hs', ps, hps, rfl⟩⟩
        · obtain ⟨ps, hps⟩ := ih (r := r)
          exact ⟨s :: ps, by simp only [bind_eq_ok, pure_eq_ok]; exact ⟨ps, hps, rfl⟩⟩

/-- The quotients of a split below `10²⁸` are all computed, if the products are below it too. -/
theorem share_ok {w amount whole : Money} (hw : Whole w.val) (hw0 : 0 ≤ w.val)
    (hwhole : Whole whole.val) (hlt : whole.val < 10 ^ 28) (ha : Whole amount.val) (ha0 : 0 < amount.val)
    (hale : amount.val ≤ whole.val) (hprod : w.val * amount.val < 10 ^ 28) :
    ∃ s, (do
      let x ← Ops.div (Unrounded D) (← Ops.mul (Unrounded D) w amount) whole
      (x.toIntegral .floor).mapError derr) = .ok s := by
  obtain ⟨p, hp, hpval⟩ := Ops.mul_ok (D := D) hw ha
    (by rw [abs_of_nonneg (mul_nonneg hw0 ha0.le)]; exact hprod)
  obtain ⟨k, hk⟩ := hpval ▸ hw.mul ha
  obtain ⟨l, hl⟩ := hwhole
  have hp0 : 0 ≤ p.val := by rw [hpval]; positivity
  have hk0 : 0 ≤ k := by rw [hk] at hp0; exact_mod_cast hp0
  have hk28 : k < 10 ^ 28 := by
    rw [← hpval, hk] at hprod
    exact_mod_cast hprod
  have hl0 : 0 < l := by
    have : 0 < whole.val := ha0.trans_le hale
    rw [hl] at this
    exact_mod_cast this
  have hl28 : l < 10 ^ 28 := by
    rw [hl] at hlt
    exact_mod_cast hlt
  obtain ⟨x, hx⟩ := Money.div_whole hk hl hk0 hk28 hl0 (by omega)
  have hx0 : 0 ≤ x.val := Money.div_nonneg hp0 (ha0.le.trans hale) hx
  obtain ⟨s, hs⟩ := Money.toIntegral_ok x hx0
  refine ⟨s, ?_⟩
  simp only [bind_eq_ok, except_mapError_eq_ok]
  exact ⟨p, hp, x, by rw [Ops.div, except_mapError_eq_ok]; exact hx, hs⟩

theorem proRata_ok {weights : List Money} {whole amount : Money}
    (hws : ∀ w ∈ weights, Whole w.val ∧ 0 ≤ w.val) (hlt : whole.val < 10 ^ 28)
    (hwhole : whole.val = total weights) (ha : Whole amount.val) (ha0 : 0 < amount.val)
    (hale : amount.val ≤ whole.val) (hprod : ∀ w ∈ weights, w.val * amount.val < 10 ^ 28) :
    ∃ pieces, proRata (Unrounded D) weights whole amount = .ok pieces := by
  have hle : ∀ w ∈ weights, w.val ≤ whole.val := by
    intro w hw
    rw [hwhole]
    exact val_le_total (fun m hm => (hws m hm).2) hw
  have hwh : Whole whole.val := hwhole ▸ Whole.total fun w hw => (hws w hw).1
  obtain ⟨shares, hshares⟩ := mapM_ok_of fun w hw =>
    share_ok (D := D) (hws w hw).1 (hws w hw).2 hwh hlt ha ha0 hale (hprod w hw)
  have heach : List.Forall₂ (fun w s : Money => Share w.val (w.val * amount.val / whole.val) s.val ∧
      Whole w.val ∧ w.val < 10 ^ 28) weights shares := by
    refine ((List.forall₂_and_left _ _).mpr ⟨fun w hw => hw, mapM_ok hshares⟩).imp fun w s hs => ?_
    obtain ⟨hw, hs⟩ := hs
    simp only [bind_eq_ok, except_mapError_eq_ok] at hs
    obtain ⟨p, hp, x, hx, hs⟩ := hs
    exact ⟨(share_of_quotient (hws w hw).1 (hws w hw).2 (hle w hw) ha0 hale hp hx hs).1, (hws w hw).1,
      (hle w hw).trans_lt hlt⟩
  have hwholes : ∀ s ∈ shares, Whole s.val ∧ 0 ≤ s.val := by
    intro s hs
    obtain ⟨w, -, hshare, -⟩ := forall₂_right heach s hs
    exact ⟨hshare.whole, hshare.nonneg⟩
  -- no share passes its weight, so their sum does not pass the whole
  have htotal : total shares ≤ whole.val := by
    rw [hwhole]
    clear hshares hwholes hle hws hwhole hwh hprod
    induction heach with
    | nil => exact le_rfl
    | cons h _ ih =>
        rw [total_cons, total_cons]
        linarith [h.1.le_weight]
  have hsum0 : 0 ≤ total shares := List.sum_nonneg fun x hx => by
    obtain ⟨s, hs, rfl⟩ := List.mem_map.mp hx
    exact (hwholes s hs).2
  obtain ⟨sum, hsum⟩ := Ops.sum_ok (D := D) (s := .zero) (l := shares) (by simpa using Whole.zero)
    (by simp) hwholes (by rw [Money.val_zero]; linarith)
  have hsumval : sum.val = total shares := by rw [unrounded_total hsum, Money.val_zero, zero_add]
  have hsumw : Whole sum.val := hsumval ▸ Whole.total fun s hs => (hwholes s hs).1
  obtain ⟨diff, hdiff, hdval⟩ := Ops.sub_ok (D := D) ha hsumw
    (by rw [hsumval, abs_lt]; constructor <;> linarith)
  obtain ⟨r, hr⟩ := hdval ▸ ha.sub hsumw
  obtain ⟨pieces, hpieces⟩ := bumpShares_ok (D := D) (r := r)
    (heach.imp fun w s h => ⟨h.1.whole, h.1.nonneg, h.2⟩)
  refine ⟨pieces, ?_⟩
  simp only [proRata, bind_eq_ok]
  exact ⟨shares, hshares, sum, hsum, diff, hdiff, r,
    by rw [except_mapError_eq_ok]; exact Money.truncI128_ok hr, hpieces⟩

/-! ## Contracts -/

/-- The contracts one unit of a ticket trades, over all its legs. -/
def MirrorQueued.span (q : MirrorQueued) : ℚ :=
  match q.instrument with
  | .combo legs => (legs.map fun leg => (leg.ratio : ℚ)).sum
  | .single _ => 1

/-- The contracts of a map, long and short alike. -/
def mass (m : OMap Contract Money) : ℚ := m.sumBy fun v => |v.val|

theorem legs_nonneg (legs : List ComboLeg) : 0 ≤ (legs.map fun leg => (leg.ratio : ℚ)).sum :=
  List.sum_nonneg fun x hx => by
    obtain ⟨leg, -, rfl⟩ := List.mem_map.mp hx
    exact_mod_cast leg.ratio_pos.le

theorem MirrorQueued.span_nonneg (q : MirrorQueued) : 0 ≤ q.span := by
  unfold MirrorQueued.span
  split
  · exact legs_nonneg _
  · exact zero_le_one

theorem whole_insert {m : OMap Contract Money} {c : Contract} {x : Money}
    (h : ∀ v ∈ m.values, Whole v.val) (hx : Whole x.val) :
    ∀ v ∈ (m.insert c.hk c x).values, Whole v.val := by
  intro v hv
  obtain ⟨e, he, rfl⟩ := List.mem_map.mp hv
  rcases OMap.mem_insert he with ⟨-, hnew⟩ | ⟨hold, -⟩
  · rw [hnew]
    exact hx
  · exact h _ (List.mem_map_of_mem hold)

theorem mass_insert_le (m : OMap Contract Money) (c : Contract) (v : Money) :
    mass (m.insert c.hk c v) ≤ mass m + |v.val| := by
  rw [mass, OMap.sumBy_insert]
  have hold : 0 ≤ ((m.get c.hk).map fun v : Money => |v.val|).getD 0 := by
    cases m.get c.hk with
    | none => exact le_rfl
    | some v => exact abs_nonneg _
  rw [mass]
  linarith

/-- What a unit count makes of the legs: whole amounts, their sum bounded by the legs' ratios. -/
theorem legContracts_ok {units : Money} (hu : Whole units.val) (hu0 : 0 ≤ units.val)
    {legs : List ComboLeg} {out : OMap Contract Money}
    (hspan : (legs.map fun leg => (leg.ratio : ℚ)).sum < 10 ^ 28)
    (hlt : units.val * (legs.map fun leg => (leg.ratio : ℚ)).sum < 10 ^ 28)
    (hout : ∀ v ∈ out.values, Whole v.val) :
    ∃ out', legs.foldlM (fun out leg => do
      let v ← Ops.mulI (Unrounded D) (← Ops.mul (Unrounded D) leg.side.sign units) leg.ratio
      pure (out.insert leg.contract.hk leg.contract v)) out = .ok out' ∧
      (∀ v ∈ out'.values, Whole v.val) ∧
      mass out' ≤ mass out + units.val * (legs.map fun leg => (leg.ratio : ℚ)).sum := by
  induction legs generalizing out with
  | nil => exact ⟨out, rfl, hout, by simp⟩
  | cons leg legs ih =>
      rw [List.map_cons, List.sum_cons] at hspan hlt
      have hrest := legs_nonneg legs
      have hratio : (1 : ℚ) ≤ leg.ratio := by exact_mod_cast leg.ratio_pos
      have hmore := mul_nonneg hu0 hrest
      rw [mul_add] at hlt
      have hsize : |leg.side.sign.val * units.val| = units.val := by
        rw [abs_mul, Side.sign_val, Side.abs_unit, one_mul, abs_of_nonneg hu0]
      obtain ⟨s, hs, hsval⟩ := Ops.mul_ok (D := D) (Whole.sign leg.side) hu
        (by rw [hsize]; nlinarith)
      have hsw : Whole s.val := hsval ▸ (Whole.sign leg.side).mul hu
      have habs : |s.val * leg.ratio| = units.val * leg.ratio := by
        rw [abs_mul, hsval, hsize, abs_of_nonneg (by linarith)]
      obtain ⟨x, hx, hxval⟩ := Ops.mulI_ok (D := D) (n := leg.ratio) hsw
        (by rw [abs_of_nonneg (by linarith)]; linarith) (by rw [habs]; linarith)
      have hxw : Whole x.val := hxval ▸ hsw.mul (Whole.cast _)
      obtain ⟨out', hout', hwhole, hmass⟩ := ih (by linarith) (by nlinarith) (whole_insert hout hxw)
      refine ⟨out', ?_, hwhole, ?_⟩
      · simp only [List.foldlM_cons, bind_eq_ok, pure_eq_ok]
        exact ⟨_, ⟨s, hs, x, hx, rfl⟩, hout'⟩
      · have hins := mass_insert_le out leg.contract x
        rw [hxval, habs] at hins
        rw [List.map_cons, List.sum_cons, mul_add]
        linarith

theorem ticketContracts_ok {q : MirrorQueued} {units : Money} (hu : Whole units.val)
    (hu0 : 0 ≤ units.val) (hspan : q.span < 10 ^ 28) (hlt : units.val * q.span < 10 ^ 28) :
    ∃ m, ticketContracts (Unrounded D) q units = .ok m ∧ (∀ v ∈ m.values, Whole v.val) ∧
      mass m ≤ units.val * q.span := by
  unfold ticketContracts
  unfold MirrorQueued.span at *
  cases hi : q.instrument with
  | combo legs =>
      rw [hi] at hspan hlt
      have hnone : ∀ v ∈ (OMap.empty : OMap Contract Money).values, Whole v.val := by
        simp [OMap.values, OMap.empty]
      obtain ⟨m, hm, hwhole, hmass⟩ := legContracts_ok (D := D) hu hu0 hspan hlt hnone
      refine ⟨m, hm, hwhole, ?_⟩
      simpa [mass] using hmass
  | single c =>
      rw [hi] at hlt
      have hsize : |q.side.sign.val * units.val| = units.val := by
        rw [abs_mul, Side.sign_val, Side.abs_unit, one_mul, abs_of_nonneg hu0]
      obtain ⟨v, hv, hvval⟩ := Ops.mul_ok (D := D) (Whole.sign q.side) hu
        (by rw [hsize]; simpa using hlt)
      refine ⟨OMap.empty.insert c.hk c v, ?_, ?_, ?_⟩
      · simp only [bind_eq_ok, pure_eq_ok]
        exact ⟨v, hv, rfl⟩
      · exact whole_insert (by simp [OMap.values, OMap.empty]) (hvval ▸ (Whole.sign q.side).mul hu)
      · have hins := mass_insert_le .empty c v
        rw [hvval, hsize] at hins
        simpa [mass] using hins

/-! ## The book -/

/-- Every amount of the book is whole. -/
def WholeBook (book : OMap (String × Contract) Money) : Prop := ∀ a c, Whole (bookQty book a c)

theorem bookAdds_ok (account : String) {es : List (Contract × Money)}
    {book : OMap (String × Contract) Money} (hbook : WholeBook book) (hes : ∀ e ∈ es, Whole e.2.val)
    (hlt : ∀ a c, |bookQty book a c| + (es.map fun e => |e.2.val|).sum < 10 ^ 28) :
    ∃ book', es.foldlM (bookAdd (Unrounded D) account) book = .ok book' ∧ WholeBook book' ∧
      ∀ a c, |bookQty book' a c| ≤ |bookQty book a c| + (es.map fun e => |e.2.val|).sum := by
  induction es generalizing book with
  | nil => exact ⟨book, rfl, hbook, by simp⟩
  | cons e es ih =>
      have hrest : 0 ≤ (es.map fun e => |e.2.val|).sum := List.sum_nonneg fun x hx => by
        obtain ⟨y, -, rfl⟩ := List.mem_map.mp hx
        exact abs_nonneg _
      simp only [List.map_cons, List.sum_cons] at hlt ⊢
      have hone : |bookQty book account e.1 + e.2.val| < 10 ^ 28 := by
        have htri := abs_add_le (bookQty book account e.1) e.2.val
        have := hlt account e.1
        linarith
      obtain ⟨t, ht, -⟩ := Ops.add_ok (D := D) (hbook account e.1) (hes e List.mem_cons_self) hone
      have hadd : ∃ mid, bookAdd (Unrounded D) account book e = .ok mid := by
        simp only [bookAdd, bind_eq_ok]
        exact ⟨_, t, ht, rfl⟩
      obtain ⟨mid, hmid⟩ := hadd
      have hspec := bookAdd_spec hmid
      have hstep : ∀ a c, |bookQty mid a c| ≤ |bookQty book a c| + |e.2.val| := by
        intro a c
        rw [hspec]
        split
        · exact abs_add_le _ _
        · rw [add_zero]
          linarith [abs_nonneg e.2.val]
      have hmidw : WholeBook mid := by
        intro a c
        rw [hspec]
        split
        · exact (hbook a c).add (hes e List.mem_cons_self)
        · rw [add_zero]
          exact hbook a c
      obtain ⟨book', hbook', hwhole, hle⟩ := ih hmidw (fun x hx => hes x (List.mem_cons_of_mem _ hx))
        fun a c => by linarith [hstep a c, hlt a c]
      refine ⟨book', ?_, hwhole, fun a c => by linarith [hle a c, hstep a c]⟩
      simp only [List.foldlM_cons, bind_eq_ok]
      exact ⟨mid, hmid, hbook'⟩

theorem mass_eq (m : OMap Contract Money) : mass m = (m.entries.map fun e => |e.2.val|).sum := by
  rw [mass, OMap.sumBy, OMap.values, OMap.entries, List.map_map, List.map_map]
  rfl

/-- The pieces of an increment go into the table and the book, if neither grows past `10²⁸`. -/
theorem allocateFills_ok {q : MirrorQueued} (hspan : q.span < 10 ^ 28)
    {ps : List (MirrorAllocation × Money)} {al : OMap String Money}
    {book : OMap (String × Contract) Money} (hbook : WholeBook book)
    (hps : ∀ e ∈ ps, Whole e.2.val ∧ 0 ≤ e.2.val)
    (hal : ∀ e ∈ ps, Whole (given al e.1.strategyOrderId) ∧ 0 ≤ given al e.1.strategyOrderId ∧
      given al e.1.strategyOrderId + total (ps.map (·.2)) < 10 ^ 28)
    (hlt : ∀ a c, |bookQty book a c| + total (ps.map (·.2)) * q.span < 10 ^ 28) :
    ∃ r, ps.foldlM (allocateFill (Unrounded D) q) (al, book) = .ok r := by
  induction ps generalizing al book with
  | nil => exact ⟨_, rfl⟩
  | cons e ps ih =>
      have hsum0 : 0 ≤ total (ps.map (·.2)) := List.sum_nonneg fun x hx => by
        obtain ⟨y, hy, rfl⟩ := List.mem_map.mp hx
        obtain ⟨z, hz, rfl⟩ := List.mem_map.mp hy
        exact (hps z (List.mem_cons_of_mem _ hz)).2
      obtain ⟨hew, he0⟩ := hps e List.mem_cons_self
      obtain ⟨hgw, hg0, hglt⟩ := hal e List.mem_cons_self
      simp only [List.map_cons, total_cons] at hal hlt hglt
      have hmore := mul_nonneg hsum0 q.span_nonneg
      obtain ⟨t, ht, -⟩ := Ops.add_ok (D := D) hgw hew
        (by change |given al _ + e.2.val| < _; rw [abs_of_nonneg (by linarith)]; linarith)
      have hcap : e.2.val * q.span < 10 ^ 28 := by
        have := hlt "" (.equity "")
        have := abs_nonneg (bookQty book "" (.equity ""))
        linarith
      obtain ⟨m, hm, hmw, hmass⟩ := ticketContracts_ok (D := D) hew he0 hspan hcap
      rw [mass_eq] at hmass
      have hentries : ∀ x ∈ m.entries, Whole x.2.val := by
        intro x hx
        obtain ⟨y, hy, rfl⟩ := List.mem_map.mp hx
        exact hmw _ (List.mem_map_of_mem hy)
      obtain ⟨book', hbook', hwhole, hle⟩ := bookAdds_ok (D := D) e.1.strategyAccount hbook hentries
        (fun a c => by nlinarith [hlt a c])
      have hone : allocateFill (Unrounded D) q (al, book) e = .ok (al.put e.1.strategyOrderId t, book') := by
        simp only [allocateFill, bind_eq_ok, pure_eq_ok]
        exact ⟨t, ht, m, hm, book', hbook', rfl⟩
      obtain ⟨hgiven, -, -⟩ := allocateFill_spec hone
      have hnext : ∀ x ∈ ps, Whole (given (al.put e.1.strategyOrderId t) x.1.strategyOrderId) ∧
          0 ≤ given (al.put e.1.strategyOrderId t) x.1.strategyOrderId ∧
          given (al.put e.1.strategyOrderId t) x.1.strategyOrderId + total (ps.map (·.2)) < 10 ^ 28 := by
        intro x hx
        obtain ⟨hxw, hx0, hxlt⟩ := hal x (List.mem_cons_of_mem _ hx)
        rw [hgiven]
        split
        · exact ⟨hxw.add hew, by linarith, by linarith⟩
        · rw [add_zero]
          exact ⟨hxw, hx0, by linarith⟩
      obtain ⟨r, hr⟩ := ih hwhole (fun x hx => hps x (List.mem_cons_of_mem _ hx)) hnext
        fun a c => by nlinarith [hlt a c, hle a c]
      refine ⟨r, ?_⟩
      simp only [List.foldlM_cons, bind_eq_ok]
      exact ⟨_, hone, hr⟩

/-! ## The mirror -/

/-- The units of a ticket, by its strategy orders. -/
def MirrorQueued.units (q : MirrorQueued) : ℚ := total (q.allocations.map (·.quantity))

/-- No ticket comes to `10¹⁴` units, and all together not to `10²⁸` contracts. -/
structure MirrorState.Sized (m : MirrorState) : Prop where
  each : ∀ key t, m.tickets.get key = some t → t.queued.units < 10 ^ 14
  all : (m.tickets.sumBy fun t => t.queued.units * t.queued.span) < 10 ^ 28

theorem MirrorQueued.abs_unitContracts_le (q : MirrorQueued) (hk : String) :
    |q.unitContracts hk| ≤ q.span := by
  unfold MirrorQueued.unitContracts MirrorQueued.span
  cases q.instrument with
  | combo legs =>
      suffices h : ∀ (legs : List ComboLeg) (v : ℚ),
          |legs.foldl (legUnits hk) v| ≤ |v| + (legs.map fun leg => (leg.ratio : ℚ)).sum by
        simpa using h legs 0
      intro legs
      induction legs with
      | nil => simp
      | cons leg legs ih =>
          intro v
          have hratio : (0 : ℚ) < leg.ratio := by exact_mod_cast leg.ratio_pos
          have hone : |legUnits hk v leg| ≤ |v| + leg.ratio := by
            unfold legUnits
            split
            · rw [abs_mul, Side.abs_unit, one_mul, abs_of_pos hratio]
              linarith [abs_nonneg v]
            · linarith
          rw [List.foldl_cons, List.map_cons, List.sum_cons]
          linarith [ih (legUnits hk v leg)]
  | single c =>
      dsimp only
      split
      · rw [Side.abs_unit]
      · simp

theorem MirrorQueued.unitContracts_whole (q : MirrorQueued) (hk : String) : Whole (q.unitContracts hk) := by
  have hunit : ∀ s : Side, Whole s.unit := fun s => s.sign_val ▸ Whole.sign s
  unfold MirrorQueued.unitContracts
  split
  · rename_i legs _
    suffices h : ∀ (legs : List ComboLeg) (v : ℚ), Whole v → Whole (legs.foldl (legUnits hk) v) from
      h legs 0 Whole.zero
    intro legs
    induction legs with
    | nil => exact fun v hv => hv
    | cons leg legs ih =>
        intro v hv
        refine ih _ ?_
        unfold legUnits
        split
        · exact (hunit _).mul (Whole.cast _)
        · exact hv
  · split
    · exact hunit _
    · exact Whole.zero

section Ticket

variable {t : MirrorTicketState} {key : String}

theorem MirrorTicketState.Ok.filled_whole (h : t.Ok key) : Whole t.filled.val ∧ 0 ≤ t.filled.val := by
  rw [← h.sum]
  constructor
  · refine sum_whole fun x hx => ?_
    obtain ⟨a, ha, rfl⟩ := List.mem_map.mp hx
    exact (h.each a ha).1
  · refine List.sum_nonneg fun x hx => ?_
    obtain ⟨a, ha, rfl⟩ := List.mem_map.mp hx
    exact (h.each a ha).2.1

theorem MirrorTicketState.Ok.contracts_whole (h : t.Ok key) (account hk : String) :
    Whole (t.contracts account hk) := by
  refine sum_whole fun x hx => ?_
  obtain ⟨a, ha, rfl⟩ := List.mem_map.mp hx
  split
  · exact (t.queued.unitContracts_whole hk).mul (h.each a ha).1
  · exact Whole.zero

/-- A ticket's contracts in an account are at most what it filled over all its legs. -/
theorem MirrorTicketState.Ok.abs_contracts_le (h : t.Ok key) (account hk : String) :
    |t.contracts account hk| ≤ t.filled.val * t.queued.span := by
  have hunit := t.queued.abs_unitContracts_le hk
  rw [← h.sum, MirrorTicketState.contracts]
  have hpos := fun a ha => (h.each a ha).2.1
  generalize t.queued.allocations = as at *
  clear h
  induction as with
  | nil => simp
  | cons a as ih =>
      simp only [List.map_cons, List.sum_cons]
      have hg := hpos a List.mem_cons_self
      have htri := abs_add_le (if a.strategyAccount = account then
        t.queued.unitContracts hk * given t.allocated a.strategyOrderId else 0)
        (as.map fun a => if a.strategyAccount = account then
          t.queued.unitContracts hk * given t.allocated a.strategyOrderId else 0).sum
      have hone : |if a.strategyAccount = account then
          t.queued.unitContracts hk * given t.allocated a.strategyOrderId else 0| ≤
          given t.allocated a.strategyOrderId * t.queued.span := by
        split
        · rw [abs_mul, abs_of_nonneg hg, mul_comm]
          exact mul_le_mul_of_nonneg_left hunit hg
        · rw [abs_zero]
          exact mul_nonneg hg t.queued.span_nonneg
      rw [add_mul]
      linarith [ih fun a ha => hpos a (List.mem_cons_of_mem _ ha)]

end Ticket

section Mirror

variable {m m' : MirrorState}

theorem OMap.exists_get {V : Type} {l : OMap String V} {v : V} (h : v ∈ l.values) :
    ∃ key, l.get key = some v := by
  obtain ⟨e, he, rfl⟩ := List.mem_map.mp h
  exact ⟨e.1, OMap.get_of_mem he⟩

theorem MirrorState.Ok.wholeBook (h : m.Ok) : WholeBook m.book := by
  intro a c
  rw [h.book]
  refine sum_whole fun x hx => ?_
  obtain ⟨t, ht, rfl⟩ := List.mem_map.mp hx
  obtain ⟨key, hkey⟩ := OMap.exists_get ht
  exact (h.tickets key t hkey).contracts_whole a c.hk

/-- The book and one more increment of a ticket stay within what the tickets come to. -/
theorem MirrorState.Ok.book_le (h : m.Ok) {key : String} {t : MirrorTicketState} {filled : ℚ}
    (ht : m.tickets.get key = some t) (hle : filled ≤ t.queued.units) (a : String) (c : Contract) :
    |bookQty m.book a c| + (filled - t.filled.val) * t.queued.span ≤
      m.tickets.sumBy fun t => t.queued.units * t.queued.span := by
  have hbook : |bookQty m.book a c| ≤ m.tickets.sumBy fun t => t.filled.val * t.queued.span := by
    have habs := Multiset.abs_sum_le_sum_abs
      (s := ((m.tickets.values.map fun t => t.contracts a c.hk : List ℚ) : Multiset ℚ))
    rw [Multiset.sum_coe, Multiset.map_coe, Multiset.sum_coe, List.map_map] at habs
    rw [h.book]
    refine habs.trans (List.sum_le_sum fun u hu => ?_)
    obtain ⟨k, hk⟩ := OMap.exists_get hu
    exact (h.tickets k u hk).abs_contracts_le a c.hk
  -- what the tickets lack covers what this one still gets
  have hrest : (filled - t.filled.val) * t.queued.span ≤
      m.tickets.sumBy fun t => (t.queued.units - t.filled.val) * t.queued.span := by
    have hlack : ∀ x ∈ m.tickets.values.map fun t : MirrorTicketState =>
        (t.queued.units - t.filled.val) * t.queued.span, 0 ≤ x := by
      intro x hx
      obtain ⟨u, hu, rfl⟩ := List.mem_map.mp hx
      obtain ⟨k, hk⟩ := OMap.exists_get hu
      have hok := h.tickets k u hk
      refine mul_nonneg (sub_nonneg.mpr ?_) u.queued.span_nonneg
      rw [MirrorQueued.units, hok.quantity]
      exact hok.filled_le
    have hown := List.single_le_sum hlack _ (List.mem_map_of_mem (OMap.mem_values_of_get ht))
    exact (mul_le_mul_of_nonneg_right (by linarith) t.queued.span_nonneg).trans hown
  have hsplit : (m.tickets.sumBy fun t => t.queued.units * t.queued.span) =
      (m.tickets.sumBy fun t => t.filled.val * t.queued.span) +
        m.tickets.sumBy fun t => (t.queued.units - t.filled.val) * t.queued.span := by
    rw [OMap.sumBy, OMap.sumBy, OMap.sumBy, ← List.sum_map_add]
    refine congrArg List.sum (List.map_congr_left fun u _ => ?_)
    ring
  linarith

/-- An increment of a ticket is split and booked. -/
theorem MirrorState.Ok.split_ok (h : m.Ok) (hs : m.Sized) {key : String} {t : MirrorTicketState}
    {filled : Money} (ht : m.tickets.get key = some t) (hwhole : Whole filled.val)
    (hgt : t.filled.val < filled.val) (hle : filled.val ≤ t.queued.quantity.val) :
    ∃ lacking whole amount pieces r,
      t.queued.allocations.mapM (fun a => Ops.sub (Unrounded D) a.quantity
        ((t.allocated.get a.strategyOrderId).getD .zero)) = .ok lacking ∧
      Ops.sub (Unrounded D) t.queued.quantity t.filled = .ok whole ∧
      Ops.sub (Unrounded D) filled t.filled = .ok amount ∧
      proRata (Unrounded D) lacking whole amount = .ok pieces ∧
      (t.queued.allocations.zip pieces).foldlM (allocateFill (Unrounded D) t.queued)
        (t.allocated, m.book) = .ok r := by
  have hok := h.tickets key t ht
  have hunits : t.queued.units = t.queued.quantity.val := hok.quantity
  have hsize := hs.each key t ht
  obtain ⟨hfw, hf0⟩ := hok.filled_whole
  have hqw : Whole t.queued.quantity.val := by
    rw [← hunits]
    refine Whole.total fun q hq => ?_
    obtain ⟨a, -, rfl⟩ := List.mem_map.mp hq
    exact Money.val_whole a.quantity_whole
  have hcap : ∀ a ∈ t.queued.allocations, a.quantity.val ≤ t.queued.units := by
    intro a ha
    refine List.single_le_sum (fun x hx => ?_) _ (List.mem_map_of_mem (List.mem_map_of_mem ha))
    obtain ⟨q, hq, rfl⟩ := List.mem_map.mp hx
    obtain ⟨b, -, rfl⟩ := List.mem_map.mp hq
    exact (Money.val_pos_iff.mpr b.quantity_pos).le
  have hlacks : ∀ a ∈ t.queued.allocations, ∃ l, Ops.sub (Unrounded D) a.quantity
      ((t.allocated.get a.strategyOrderId).getD .zero) = .ok l := by
    intro a ha
    obtain ⟨hgw, hg0, hgle⟩ := hok.each a ha
    obtain ⟨l, hl, -⟩ := Ops.sub_ok (D := D) (Money.val_whole a.quantity_whole) hgw
      (by
        have := hcap a ha
        change |a.quantity.val - given t.allocated a.strategyOrderId| < _
        rw [abs_of_nonneg (by linarith)]
        linarith)
    exact ⟨l, hl⟩
  obtain ⟨lacking, hlacking⟩ := mapM_ok_of hlacks
  obtain ⟨whole, hwholeq, hwval⟩ := Ops.sub_ok (D := D) hqw hfw
    (by rw [abs_of_nonneg (by linarith)]; linarith)
  obtain ⟨amount, hamount, haval⟩ := Ops.sub_ok (D := D) hwhole hfw
    (by rw [abs_of_nonneg (by linarith)]; linarith)
  have hval : List.Forall₂ (fun (a : MirrorAllocation) (l : Money) => a ∈ t.queued.allocations ∧
      l.val = a.quantity.val - given t.allocated a.strategyOrderId) t.queued.allocations lacking :=
    ((List.forall₂_and_left _ _).mpr ⟨fun a ha => ha, mapM_ok hlacking⟩).imp
      fun a l hl => ⟨hl.1, Ops.unrounded_sub hl.2⟩
  have hweights : ∀ w ∈ lacking, Whole w.val ∧ 0 ≤ w.val := by
    intro w hw
    obtain ⟨a, -, ha, hwv⟩ := forall₂_right hval w hw
    obtain ⟨hgw, -, hgle⟩ := hok.each a ha
    rw [hwv]
    exact ⟨Whole.sub (Money.val_whole a.quantity_whole) hgw, by linarith⟩
  have htotal : whole.val = total lacking := by
    rw [total_of_differences (hval.imp fun _ _ hl => hl.2), hwval, hok.sum, ← hok.quantity, total,
      List.map_map]
    rfl
  have hproducts : ∀ w ∈ lacking, w.val * amount.val < 10 ^ 28 := by
    intro w hw
    have hle : w.val ≤ whole.val := htotal ▸ val_le_total (fun m hm => (hweights m hm).2) hw
    have hw0 := (hweights w hw).2
    calc w.val * amount.val ≤ whole.val * whole.val := by apply mul_le_mul <;> linarith
      _ < 10 ^ 14 * 10 ^ 14 := by apply mul_lt_mul'' <;> linarith
      _ = 10 ^ 28 := by norm_num
  obtain ⟨pieces, hpieces⟩ := proRata_ok (D := D) hweights (by linarith) htotal
    (haval ▸ hwhole.sub hfw) (by linarith) (by linarith) hproducts
  obtain ⟨hsum, hall⟩ := hok.split hwhole hgt hle hlacking hwholeq hamount hpieces
  have hsnd : (t.queued.allocations.zip pieces).map (·.2) = pieces :=
    List.map_snd_zip hall.length_eq.ge
  have hzip := fun (e : MirrorAllocation × Money) (he : e ∈ t.queued.allocations.zip pieces) =>
    List.forall₂_zip hall (a := e.1) (b := e.2) he
  have hall28 := hs.all
  have hbound : ∀ a c, |bookQty m.book a c| + total ((t.queued.allocations.zip pieces).map (·.2)) *
      t.queued.span < 10 ^ 28 := by
    intro a c
    rw [hsnd, hsum]
    exact (h.book_le ht (hunits ▸ hle) a c).trans_lt hall28
  have hspan : t.queued.span < 10 ^ 28 := by
    -- at least one unit is filled now
    have hone : 1 ≤ filled.val - t.filled.val := by
      obtain ⟨n, hn⟩ := hwhole.sub hfw
      have : (0 : ℚ) < n := by rw [← hn]; linarith
      rw [hn]
      exact_mod_cast this
    have := hbound "" (.equity "")
    rw [hsnd, hsum] at this
    have := abs_nonneg (bookQty m.book "" (.equity ""))
    nlinarith [t.queued.span_nonneg]
  have hroom : ∀ e ∈ t.queued.allocations.zip pieces, Whole (given t.allocated e.1.strategyOrderId) ∧
      0 ≤ given t.allocated e.1.strategyOrderId ∧ given t.allocated e.1.strategyOrderId +
        total ((t.queued.allocations.zip pieces).map (·.2)) < 10 ^ 28 := by
    intro e he
    obtain ⟨hgw, hg0, hgle⟩ := hok.each e.1 (List.of_mem_zip he).1
    have := hcap e.1 (List.of_mem_zip he).1
    refine ⟨hgw, hg0, ?_⟩
    rw [hsnd, hsum]
    linarith
  obtain ⟨r, hr⟩ := allocateFills_ok (D := D) hspan h.wholeBook
    (fun e he => ⟨(hzip e he).1, (hzip e he).2.1⟩) hroom hbound
  exact ⟨lacking, whole, amount, pieces, r, hlacking, hwholeq, hamount, hpieces, hr⟩

/-- A cumulative fill above what the ticket has, within its quantity, is booked. -/
theorem onMirrorFill_sized (h : m.Ok) (hs : m.Sized) {f : MirrorFill} {t : MirrorTicketState}
    (hvenue : checkVenue m f.venue = .ok ()) (ht : m.tickets.get f.ticketKey = some t)
    (hid : t.venueOrderId = some f.venueOrderId) (hwhole : Whole f.filled.val)
    (hgt : t.filled.val < f.filled.val) (hle : f.filled.val ≤ t.queued.quantity.val) :
    ∃ r : OMap String Money × OMap (String × Contract) Money,
      onMirrorFill (Unrounded D) m f = .ok { m with
        tickets := m.tickets.put f.ticketKey
          { t with filled := f.filled, avgPrice := some f.avgPrice, allocated := r.1 }
        book := r.2 } := by
  obtain ⟨lacking, whole, amount, pieces, r, h1, h2, h3, h4, h5⟩ := h.split_ok hs ht hwhole hgt hle
  have hfound : mirrorTicket m f.ticketKey "MirrorFill" = .ok t := by rw [mirrorTicket, ht]
  refine ⟨r, ?_⟩
  simp only [onMirrorFill, bind_eq_ok, refuseIf_eq_ok]
  refine ⟨(), hvenue, t, hfound, (), by simp [hid], (), ?_, (), ?_, ?_⟩
  · simpa using hle
  · simpa using hgt.le
  · rw [if_neg (by simpa using hgt.ne')]
    simp only [bind_eq_ok, pure_eq_ok]
    exact ⟨lacking, h1, whole, h2, amount, h3, pieces, h4, r, h5, rfl⟩

/-! ## Every run -/

/-- Below the size the code rounds nothing. -/
theorem onMirrorFill_exact (h : m.Ok) (hs : m.Sized) {f : MirrorFill} (hwhole : Whole f.filled.val)
    (hm : onMirrorFill (.code D) m f = .ok m') : onMirrorFill (Unrounded D) m f = .ok m' := by
  have hm' := hm
  simp only [onMirrorFill, bind_eq_ok] at hm
  obtain ⟨_, hvenue, t, ht, _, hid, _, hover, _, hdown, hm⟩ := hm
  have hget := mirrorTicket_ok ht
  by_cases heq : f.filled.eqNum t.filled = true
  · rw [if_pos heq] at hm
    simp only [onMirrorFill, bind_eq_ok]
    exact ⟨_, hvenue, t, ht, _, hid, _, hover, _, hdown, by rw [if_pos heq]; exact hm⟩
  · rw [refuseIf_eq_ok] at hid hover hdown
    simp only [Money.gt_iff, Money.lt_iff, not_lt, Money.eqNum_iff] at hover hdown heq
    have hgt : t.filled.val < f.filled.val := lt_of_le_of_ne hdown (Ne.symm heq)
    obtain ⟨r, hr⟩ := onMirrorFill_sized (D := D) h hs hvenue hget (not_not.mp hid) hwhole hgt hover
    have hsame := onMirrorFill_refuses (Arith.exactButDiv_le _) _ _ _ hr
    rw [hm'] at hsame
    rw [hr, hsame]

/-- What a step of the mirror does to the tickets: nothing, one ticket written back with the contents
it was queued with, or one ticket queued. -/
inductive TicketsMove (m m' : MirrorState) : Prop
  | same (h : m'.tickets = m.tickets)
  | back {key : String} {t t' : MirrorTicketState} (ht : m.tickets.get key = some t)
    (hq : t'.queued = t.queued) (h : m'.tickets = m.tickets.put key t')
  | queued (q : MirrorQueued) (hnew : m.tickets.get q.ticketKey = none)
    (h : m'.tickets = m.tickets.put q.ticketKey (.new q))

theorem onQueued_move {q : MirrorQueued} (h : onQueued m q = .ok m') : TicketsMove m m' := by
  simp only [onQueued, bind_eq_ok] at h
  obtain ⟨_, -, h⟩ := h
  split at h
  · simp only [bind_eq_ok, pure_eq_ok] at h
    obtain ⟨_, -, rfl⟩ := h
    exact .same rfl
  · rename_i hnone
    simp only [bind_eq_ok, pure_eq_ok] at h
    obtain ⟨_, -, rfl⟩ := h
    exact .queued q hnone rfl

theorem onRefused_move {r : MirrorRefused} (h : onRefused m r = .ok m') : TicketsMove m m' := by
  simp only [onRefused, bind_eq_ok] at h
  obtain ⟨_, -, h⟩ := h
  split at h
  · cases h
  · split at h <;> cases h <;> exact .same rfl

theorem onAck_move {a : MirrorAck} (h : onAck m a = .ok m') : TicketsMove m m' := by
  simp only [onAck, bind_eq_ok, pure_eq_ok] at h
  obtain ⟨_, -, t, ht, _, -, rfl⟩ := h
  exact .back (mirrorTicket_ok ht) (by exact rfl) rfl

theorem onMirrorFill_move {A : Arith} {f : MirrorFill} (h : onMirrorFill A m f = .ok m') :
    TicketsMove m m' := by
  simp only [onMirrorFill, bind_eq_ok] at h
  obtain ⟨_, -, t, ht, _, -, _, -, _, -, h⟩ := h
  split at h
  · simp only [bind_eq_ok, pure_eq_ok] at h
    obtain ⟨_, -, rfl⟩ := h
    exact .same rfl
  · simp only [bind_eq_ok, pure_eq_ok] at h
    obtain ⟨_, -, _, -, _, -, _, -, ab, -, rfl⟩ := h
    exact .back (mirrorTicket_ok ht) (by exact rfl) rfl

theorem MirrorQueued.units_nonneg (q : MirrorQueued) : 0 ≤ q.units := List.sum_nonneg fun x hx => by
  obtain ⟨m, hm, rfl⟩ := List.mem_map.mp hx
  obtain ⟨a, -, rfl⟩ := List.mem_map.mp hm
  exact (Money.val_pos_iff.mpr a.quantity_pos).le

/-- A ticket written back with the contents it was queued with leaves the size alone. -/
theorem sized_put {key : String} {t t' : MirrorTicketState} (ht : m.tickets.get key = some t)
    (hq : t'.queued = t.queued) (h : m'.tickets = m.tickets.put key t') : m'.Sized ↔ m.Sized := by
  have hsum : (m'.tickets.sumBy fun t => t.queued.units * t.queued.span) =
      m.tickets.sumBy fun t => t.queued.units * t.queued.span := by
    rw [h, OMap.put, OMap.sumBy_insert_of_get _ _ _ ht, hq, sub_add_cancel]
  have hget : ∀ k, (m'.tickets.get k).map (·.queued) = (m.tickets.get k).map (·.queued) := by
    intro k
    rw [h, OMap.get_put]
    by_cases hk : k = key
    · rw [if_pos hk, hk, ht, Option.map_some, Option.map_some, hq]
    · rw [if_neg hk]
  have heach : ∀ {l l' : MirrorState}, (∀ k, (l'.tickets.get k).map (·.queued) =
      (l.tickets.get k).map (·.queued)) → (∀ k t, l.tickets.get k = some t → t.queued.units < 10 ^ 14) →
      ∀ k t, l'.tickets.get k = some t → t.queued.units < 10 ^ 14 := by
    intro l l' hsame hl k u hu
    have hk := hsame k
    rw [hu, Option.map_some, eq_comm, Option.map_eq_some_iff] at hk
    obtain ⟨v, hv, hvq⟩ := hk
    rw [← hvq]
    exact hl k v hv
  constructor
  · exact fun hs => ⟨heach (fun k => (hget k).symm) hs.each, hsum ▸ hs.all⟩
  · exact fun hs => ⟨heach hget hs.each, hsum.symm ▸ hs.all⟩

/-- Tickets are never taken away: a state within the size came from one. -/
theorem TicketsMove.sized (h : TicketsMove m m') (hs : m'.Sized) : m.Sized := by
  obtain ⟨heach, hall⟩ := hs
  cases h with
  | same h =>
      rw [h] at heach hall
      exact ⟨heach, hall⟩
  | back ht hq h => exact (sized_put ht hq h).mp ⟨heach, hall⟩
  | queued q hnew h =>
      rw [h] at heach hall
      refine ⟨fun k u hu => ?_, ?_⟩
      · have hk : k ≠ q.ticketKey := by
          rintro rfl
          rw [hnew] at hu
          cases hu
        exact heach k u (by rw [OMap.get_put_ne _ _ hk]; exact hu)
      · rw [OMap.put, OMap.sumBy_insert_of_none _ _ _ hnew] at hall
        have hpos : 0 ≤ (MirrorTicketState.new q).queued.units * (MirrorTicketState.new q).queued.span :=
          mul_nonneg (MirrorQueued.units_nonneg _) (MirrorQueued.span_nonneg _)
        linarith

/-- The allocations of a ticket within the size are added up exactly, and fit a vector. -/
theorem MirrorQueued.exact_of_units {q : MirrorQueued} (hq : checkMirrorQueued q = .ok ())
    (hlt : q.units < 10 ^ 14) :
    q.allocations.length < vecLimit ∧ total (q.allocations.map (·.quantity)) = q.quantity.val := by
  have hlen : ∀ as : List MirrorAllocation, (as.length : ℚ) ≤ total (as.map (·.quantity)) := by
    intro as
    induction as with
    | nil => simp
    | cons a as ih =>
        obtain ⟨n, hn⟩ := Money.val_whole a.quantity_whole
        have hpos := Money.val_pos_iff.mpr a.quantity_pos
        rw [hn] at hpos
        have hone : (1 : ℚ) ≤ n := by exact_mod_cast (by exact_mod_cast hpos : 0 < n)
        rw [List.map_cons, total_cons, List.length_cons, hn]
        push_cast
        linarith
  have hsum : ∀ (as : List MirrorAllocation) (s r : Money), Whole s.val → 0 ≤ s.val →
      s.val + total (as.map (·.quantity)) < 10 ^ 28 →
      as.foldlM (fun t a => Money.add t a.quantity) s = .ok r →
      r.val = s.val + total (as.map (·.quantity)) := by
    intro as
    induction as with
    | nil =>
        intro s r _ _ _ h
        cases h
        simp
    | cons a as ih =>
        intro s r hs hs0 hle h
        have haw : Whole a.quantity.val := Money.val_whole a.quantity_whole
        have ha0 := (Money.val_pos_iff.mpr a.quantity_pos).le
        have hrest := (Nat.cast_nonneg as.length).trans (hlen as)
        rw [List.map_cons, total_cons] at hle ⊢
        simp only [List.foldlM_cons, bind_eq_ok] at h
        obtain ⟨t, ht, h⟩ := h
        obtain ⟨t', ht', htval⟩ := Money.add_ok hs haw
          (by rw [abs_of_nonneg (by linarith)]; linarith)
        rw [ht] at ht'
        obtain rfl := Except.ok.inj ht'
        rw [ih t r (htval ▸ hs.add haw) (by linarith) (by linarith) h, htval]
        ring
  simp only [checkMirrorQueued, bind_eq_ok, refuseIf_eq_ok, except_mapError_eq_ok] at hq
  obtain ⟨-, -, -, -, -, -, -, -, -, -, -, -, -, -, t, ht, hne⟩ := hq
  have hval := hsum q.allocations .zero t (by simpa using Whole.zero) (by simp)
    (by rw [Money.val_zero]; change 0 + q.units < _; linarith) ht
  rw [Money.val_zero, zero_add, not_not.mp hne] at hval
  refine ⟨?_, hval.symm⟩
  have hless := (hlen q.allocations).trans_lt hlt
  have : q.allocations.length < 10 ^ 14 := by exact_mod_cast hless
  simp only [vecLimit]
  omega

theorem onQueued_units {q : MirrorQueued} (h : onQueued m q = .ok m') (hs : m'.Sized) :
    q.units < 10 ^ 14 := by
  simp only [onQueued, bind_eq_ok] at h
  obtain ⟨_, -, h⟩ := h
  split at h
  · rename_i existing hget
    simp only [bind_eq_ok, pure_eq_ok, refuseIf_eq_ok] at h
    obtain ⟨_, hsame, rfl⟩ := h
    simp only [MirrorQueued.same, Bool.not_eq_true', Bool.not_eq_false, Bool.and_eq_true,
      beq_iff_eq] at hsame
    have heach := hs.each _ _ hget
    rw [MirrorQueued.units, hsame.1.2] at heach
    exact heach
  · simp only [bind_eq_ok, pure_eq_ok] at h
    obtain ⟨_, -, rfl⟩ := h
    have heach := hs.each q.ticketKey (.new q) (OMap.get_put_self _ _ _)
    simpa only [MirrorTicketState.new] using heach

end Mirror

theorem applyEvent_sized {st st' : AccountState} {e : Event} (h : applyEvent (.code D) st e = .ok st')
    (hok : st.mirror.Sized → st.mirror.Ok) (hs : st'.mirror.Sized) : st'.mirror.Ok := by
  have hbuilt := e.built
  simp only [applyEvent, bind_eq_ok, pure_eq_ok] at h
  obtain ⟨st₁, h, rfl⟩ := h
  change st₁.mirror.Sized at hs
  change st₁.mirror.Ok
  rcases dispatch_mirror h with h | ⟨q, hp, h⟩ | ⟨r, hp, h⟩ | ⟨a, hp, h⟩ | ⟨f, hp, h⟩
  · rw [h] at hs ⊢
    exact hok hs
  · rw [hp] at hbuilt
    obtain ⟨hvec, hsum⟩ := MirrorQueued.exact_of_units hbuilt (onQueued_units h hs)
    exact onQueued_ok (hok ((onQueued_move h).sized hs)) hvec hsum hbuilt h
  · exact onRefused_ok (hok ((onRefused_move h).sized hs)) h
  · exact onAck_ok (hok ((onAck_move h).sized hs)) h
  · have hs₀ := (onMirrorFill_move h).sized hs
    rw [hp] at hbuilt
    have hwhole : Whole f.filled.val := by
      simp only [checkPayload, checkMirrorFill, requireWhole, bind_eq_ok, refuseIf_eq_ok] at hbuilt
      obtain ⟨_, -, _, -, _, -, _, hw, -⟩ := hbuilt
      simp only [Bool.or_eq_true, Bool.not_eq_true', not_or] at hw
      exact Money.val_whole (by simpa using hw.1)
    exact onMirrorFill_ok (hok hs₀) hwhole (onMirrorFill_exact (hok hs₀) hs₀ hwhole h)

/-- Every mirror the fold reaches is in order, as far as its size allows. -/
theorem MirrorState.Reached.ok {m : MirrorState} (h : m.Reached (.code D)) (hs : m.Sized) : m.Ok := by
  obtain ⟨account, es, st, hrun, rfl⟩ := h
  have hinv := foldlM_invariant (P := fun st : AccountState => st.mirror.Sized → st.mirror.Ok)
    (fun st e st' _ hone hst hs' => applyEvent_sized hone hst hs') hrun fun _ => .new
  exact hinv hs

end TradeEngine
