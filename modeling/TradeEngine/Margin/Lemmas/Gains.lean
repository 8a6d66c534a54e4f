import TradeEngine.Margin.Lemmas.Exact

/-!
# What a strategy gains

Against every contract standing alone, as a naked short or a long, each unit of a strategy gains the
same, so a grouping costs what the book costs alone and the gains of its strategies.
-/

namespace TradeEngine.Margin

open Lib Unrounded

variable {n : Nat} {D : Type} [LinearOrder D] {ctx : Fin n → Contract D} {defs : List StratDef}
  {book : Book n} {lots left : Int64} {d : StratDef} {cs : List (Fin n)} {units : Int} {m : Matched n}
  {y : Search n ℚ}

/-! ## What is taken -/

theorem Instance.takes (h : Instance ctx d cs units m) (r : Option (Fin n)) :
    m.takes r = (Placement.one ⟨d, cs⟩).takes r * units := by
  cases r with
  | none => exact h.underlyingLots
  | some c =>
      have hall : ∀ legs : List (Fin n × Int64), uses legs c =
          ((legs.map fun l => (l.1, l.2.toInt)).map fun l => if l.1 = c then l.2 else 0).sum := by
        intro legs
        rw [List.map_map]
        rfl
      change uses m.legs c = uses (Placement.one ⟨d, cs⟩).legs c * units
      rw [hall, hall, h.legs, ← List.sum_map_mul_right]
      simp only [Placement.one, List.map_map]
      refine congrArg List.sum (List.map_congr_left fun x _ => ?_)
      simp only [Function.comp_apply]
      split
      · rfl
      · rw [zero_mul]

theorem Placement.one_contracts {p : Placement n} (h : Seated ctx [] p.defn.legs p.contracts) :
    p.one.legs.map (·.1) = p.contracts := by
  simp only [Placement.one, List.map_map]
  exact List.map_fst_zip h.length.le

theorem Placement.one_takes {p : Placement n} (h : Seated ctx [] p.defn.legs p.contracts) {x : Fin n × LegDef}
    (hx : x ∈ p.contracts.zip p.defn.legs) : p.one.takes (some x.1) = x.2.quantity.toInt := by
  have hmem : (x.1, x.2.quantity) ∈ p.one.legs := List.mem_map.mpr ⟨x, hx, rfl⟩
  exact uses_eq (p.one_contracts h ▸ h.nodup.1) hmem

theorem Placement.one_takes_eq_zero {p : Placement n} (h : Seated ctx [] p.defn.legs p.contracts) {c : Fin n}
    (hc : c ∉ p.contracts) : p.one.takes (some c) = 0 := by
  rw [← p.one_contracts h] at hc
  exact uses_eq_zero hc

theorem room_iff_takes {p : Placement n} (h : Seated ctx [] p.defn.legs p.contracts) :
    Room p.defn p.contracts book lots units ↔ ∀ r, Part (p.one.takes r * units) (stock book lots r) := by
  constructor
  · intro hroom r
    cases r with
    | none => exact hroom.2
    | some c =>
        by_cases hc : c ∈ p.contracts
        · rw [← p.one_contracts h] at hc
          simp only [Placement.one, List.map_map] at hc
          obtain ⟨x, hx, rfl⟩ := List.mem_map.mp hc
          have hpart := hroom.1 x hx
          rw [← p.one_takes h hx] at hpart
          exact hpart
        · rw [p.one_takes_eq_zero h hc, zero_mul]
          exact Part.zero _
  · intro hall
    refine ⟨fun x hx => ?_, hall none⟩
    have hpart := hall (some x.1)
    rw [p.one_takes h hx] at hpart
    exact hpart

/-! ## Unit prices -/

def rowCost (y : Search n ℚ) (m : Matched n) : Option (Cost ℚ) :=
  (strategyMargin m y.market).toOption.map (Search.costOf m)

omit [LinearOrder D] in
theorem rowCost_eq_some {v : Cost ℚ} : rowCost y m = some v ↔ RowCost y m v := by
  rw [rowCost, Option.map_eq_some_iff]
  refine exists_congr fun f => and_congr toOption_eq_some eq_comm

/-- A contract alone on the side it is held, per signed contract, and a lot left over. -/
def aloneCost (y : Search n ℚ) (ctx : Fin n → Contract D) (book : Book n) (lots : Int64) : Option (Fin n) → Cost ℚ
  | none =>
      let value : ℚ := y.multiplier.toInt * y.market.price * if 0 ≤ lots.toInt then 1 else -1
      cost 0 (y.market.maintenanceFraction * value) (y.market.initialFraction * value)
  | some c =>
      if 0 < (book.qtyOf c).toInt then (rowCost y (long ctx c 1)).getD 0
      else -(rowCost y (Placement.one ⟨nakedOf (ctx c).right, [c]⟩)).getD 0

/-- What one unit costs more than its legs and lots alone. -/
def gain (y : Search n ℚ) (alone : Option (Fin n) → Cost ℚ) (p : Placement n) : Cost ℚ :=
  (rowCost y p.one).getD 0 - ∑ r, p.one.takes r • alone r

theorem zsmul_cost (k : Int) (a b c : ℚ) : k • cost a b c = cost (k * a) (k * b) (k * c) := by
  have h : ∀ a : ℚ, k • a = k * a := fun a => zsmul_eq_mul a k
  rw [← h a, ← h b, ← h c]
  rfl

/-- A multiple of a row costs as many times as much. -/
theorem RowCost.scaled {k : Int} (hk : 0 < k) {s s' : Matched n} (hs : Scaled k s s') {v : Cost ℚ}
    (h : RowCost y s v) : RowCost y s' ((rowCost y s').getD 0) ∧ v = k • (rowCost y s').getD 0 := by
  obtain ⟨f, hf, rfl⟩ := h
  have halike : Alike (scaling hk) y.market y.market := by
    have hsame (a : ℚ) : (scaling hk).rel 0 a a := by
      change a = (k : ℚ) ^ 0 * a
      rw [pow_zero, one_mul]
    have hopt (o : Option ℚ) : Option.Rel ((scaling hk).rel 0) o o := by
      cases o with
      | none => exact .none
      | some a => exact .some (hsame a)
    refine ⟨fun c => ⟨rfl, rfl, rfl, hsame _⟩, rfl, hsame _, fun c => hopt _, ?_, hsame _, hsame _⟩
    cases y.market.entries with
    | none => exact .none
    | some e => exact .some fun c => hopt _
  obtain ⟨f', hf', hfigures⟩ := strategyMargin_scaled halike hs f hf
  have hrow : rowCost y s' = some (Search.costOf s' f') := rowCost_eq_some.mpr ⟨f', hf', rfl⟩
  rw [hrow, Option.getD_some]
  refine ⟨⟨f', hf', rfl⟩, ?_⟩
  have hmaintenance : f.maintenance = (k : ℚ) ^ 1 * f'.maintenance := hfigures.maintenance
  have hinitial : f.initial = (k : ℚ) ^ 1 * f'.initial := hfigures.initial
  have hnaked : (Search.isNaked s) = Search.isNaked s' := by
    rw [Search.isNaked, Search.isNaked, hs.name]
  rw [Search.costOf, Search.costOf, zsmul_cost, hmaintenance, hinitial, pow_one, hnaked]
  congr 1
  split
  · rw [rational_decI, rational_decI, hs.quantity]
    push_cast
    rfl
  · rw [mul_zero]

theorem Instance.scaled (h : Instance ctx d cs units m) : Scaled units m (Placement.one ⟨d, cs⟩) := by
  refine ⟨h.name, h.quantity.trans (mul_one units).symm, ?_, h.underlyingLots.trans (mul_comm _ _)⟩
  have hlegs := h.legs
  rw [← List.forall₂_eq_eq_eq, List.forall₂_map_left_iff, List.forall₂_map_right_iff] at hlegs
  unfold Placement.one
  rw [List.forall₂_map_right_iff]
  refine hlegs.imp fun l x hl => ?_
  obtain ⟨hc, hq⟩ := Prod.mk.inj hl
  exact ⟨hc, hq.trans (mul_comm _ _)⟩

/-- A strategy costs its legs and lots alone and its gain for each unit. -/
theorem Instance.cost (h : Instance ctx d cs units m) (alone : Option (Fin n) → Cost ℚ) {v : Cost ℚ}
    (hv : RowCost y m v) : v = units • gain y alone ⟨d, cs⟩ + ∑ r, m.takes r • alone r := by
  have htakes : ∑ r, m.takes r • alone r = units • ∑ r, (Placement.one ⟨d, cs⟩).takes r • alone r := by
    rw [← Finset.sum_zsmul]
    refine Finset.sum_congr rfl fun r _ => ?_
    rw [h.takes r, mul_zsmul']
  rw [htakes, gain, ← zsmul_add, sub_add_cancel]
  exact (hv.scaled h.pos h.scaled).2

/-- Only one contract is taken of. -/
theorem sum_takes_single {c : Fin n} {q : Int} (hlots : m.takes none = 0)
    (htakes : ∀ c', m.takes (some c') = if c = c' then q else 0) (alone : Option (Fin n) → Cost ℚ) :
    ∑ r, m.takes r • alone r = q • alone (some c) := by
  rw [Fintype.sum_option, hlots, zero_smul, zero_add, Finset.sum_eq_single c]
  · rw [htakes, if_pos rfl]
  · intro c' _ hne
    rw [htakes, if_neg hne.symm, zero_smul]
  · exact fun hc => absurd (Finset.mem_univ c) hc

theorem nakedOf_legs (right : Right) : (nakedOf right).legs = [short right []] ∧ (nakedOf right).underlyingLots = 0 := by
  cases right with
  | call => exact ⟨rfl, rfl⟩
  | put => exact ⟨rfl, rfl⟩

theorem naked_takes_one (right : Right) (c c' : Fin n) :
    (Placement.one ⟨nakedOf right, [c]⟩).takes (some c') = if c = c' then -1 else 0 := by
  simp only [Matched.takes, Placement.one, (nakedOf_legs right).1, List.zip_cons_cons, List.zip_nil_right,
    List.map_cons, List.map_nil, uses, List.sum_cons, List.sum_nil, add_zero]
  rfl

theorem naked_takes_lots (right : Right) (c : Fin n) : (Placement.one ⟨nakedOf right, [c]⟩).takes none = 0 := by
  simp only [Matched.takes, Placement.one, (nakedOf_legs right).2]
  rfl

omit [LinearOrder D] in
/-- A naked short of a contract held short gains nothing. -/
theorem gain_naked {c : Fin n} (hc : ¬ 0 < (book.qtyOf c).toInt) :
    gain y (aloneCost y ctx book lots) ⟨nakedOf (ctx c).right, [c]⟩ = 0 := by
  rw [gain, sum_takes_single (naked_takes_lots _ c) (naked_takes_one _ c), aloneCost, if_neg hc, neg_one_smul, neg_neg,
    sub_self]

omit [LinearOrder D] in
theorem long_takes {q : Int64} (c c' : Fin n) : (long ctx c q).takes (some c') = if c = c' then q.toInt else 0 := by
  simp [Matched.takes, long, uses]

omit [LinearOrder D] in
theorem long_cost {c : Fin n} {q : Int64} (hq : 0 < q.toInt) (hc : 0 < (book.qtyOf c).toInt) {v : Cost ℚ}
    (hv : RowCost y (long ctx c q) v) : v = ∑ r, (long ctx c q).takes r • aloneCost y ctx book lots r := by
  have hs : Scaled q.toInt (long ctx c q) (long ctx c 1) := by
    refine ⟨rfl, (mul_one _).symm, .cons ⟨rfl, (mul_one _).symm⟩ .nil, (mul_zero _).symm⟩
  rw [sum_takes_single rfl (long_takes c), aloneCost, if_pos hc]
  exact (hv.scaled hq hs).2

omit [LinearOrder D] in
theorem lotsCost_eq {v : Cost ℚ} (h : y.lotsCost left = .ok v) (hpart : Part left.toInt lots.toInt) :
    v = left.toInt • aloneCost y ctx book lots none := by
  simp only [Search.lotsCost, mul3, bind_eq_ok, rational_mul, ok_bind, pure_eq_ok, rational_decI, checked_ok] at h
  obtain ⟨count, hcount, rfl⟩ := h
  have hsize : (count.toInt : ℚ) = left.toInt * if 0 ≤ lots.toInt then 1 else -1 := by
    have hint : count.toInt = left.toInt * if 0 ≤ lots.toInt then 1 else -1 := by
      unfold Part at hpart
      split <;> omega
    rw [hint]
    push_cast
    rfl
  rw [aloneCost, zsmul_cost, mul_zero, hsize]
  congr 1 <;> ring

/-! ## Rows -/

/-- `p` is some of `q`, both on the side of `w`. -/
def Below (w p q : Int) : Prop := (0 ≤ w → 0 ≤ p ∧ p ≤ q) ∧ (w ≤ 0 → q ≤ p ∧ p ≤ 0)

namespace Below

variable {w p q p' q' : Int}

theorem add (h : Below w p q) (h' : Below w p' q') : Below w (p + p') (q + q') := by
  unfold Below at *
  omega

theorem refl (h : Part p w) : Below w p p := by
  unfold Part at h
  unfold Below
  omega

theorem zero (h : Part p w) : Below w 0 p := by
  unfold Part at h
  unfold Below
  omega

/-- One of several on the same side. -/
theorem sum {l : List Int} (h : ∀ x ∈ l, Part x w) : Below w 0 l.sum ∧ ∀ x ∈ l, Below w x l.sum := by
  induction l with
  | nil =>
      unfold Below
      simp
  | cons x l ih =>
      obtain ⟨hzero, hmem⟩ := ih fun y hy => h y (List.mem_cons_of_mem _ hy)
      have hx := h x List.mem_cons_self
      rw [List.sum_cons]
      refine ⟨by simpa using (Below.zero hx).add hzero, fun y hy => ?_⟩
      rcases List.mem_cons.mp hy with rfl | hy
      · simpa using (Below.refl hx).add hzero
      · simpa using (Below.zero hx).add (hmem y hy)

theorem part (h : Below w p q) (h' : Part q w) : Part p w := by
  unfold Part at *
  unfold Below at h
  omega

end Below

/-- A permitted strategy of two legs or more with room for one unit. -/
structure Candidate (ctx : Fin n → Contract D) (defs : List StratDef) (book : Book n) (lots : Int64)
    (p : Placement n) : Prop where
  mem : p.defn ∈ defs
  legCount : 2 ≤ p.defn.legCount
  seated : Seated ctx [] p.defn.legs p.contracts
  room : ∀ r, Part (p.one.takes r) (stock book lots r)

/-- One contract alone, sold, gains nothing. -/
theorem Instance.gain_alone (hplain : Plain defs) (hd : d ∈ defs) (hcount : ¬ 2 ≤ d.legCount)
    (h : Instance ctx d cs units m) (hside : ∀ r, Part (m.takes r) (stock book lots r)) :
    gain y (aloneCost y ctx book lots) ⟨d, cs⟩ = 0 := by
  have hone : d.legCount = 1 := by
    have := List.length_pos_iff.mpr (hplain.legs d hd)
    unfold StratDef.legCount at hcount ⊢
    omega
  obtain ⟨right, rfl⟩ := hplain.alone d hd hone
  have hseated := h.seated
  rw [(nakedOf_legs right).1] at hseated
  obtain ⟨c, rfl⟩ := List.length_eq_one_iff.mp hseated.length
  have hright : (ctx c).right = right := hseated.2.1
  have hpart := hside (some c)
  rw [h.takes, naked_takes_one, if_pos rfl] at hpart
  have hsold : ¬ 0 < (book.qtyOf c).toInt := by
    have hpos := h.pos
    change Part (-1 * units) (book.qtyOf c).toInt at hpart
    unfold Part at hpart
    omega
  have hgain : gain y (aloneCost y ctx book lots) ⟨nakedOf (ctx c).right, [c]⟩ = 0 := gain_naked hsold
  rwa [hright] at hgain

/-- A row of a partition costs its contracts and lots alone, and its gain if it is no contract alone. -/
theorem row_cost (hplain : Plain defs) (hrow : Row ctx defs m)
    (hside : ∀ r, Part (m.takes r) (stock book lots r)) {v : Cost ℚ} (hv : RowCost y m v) :
    ∃ ps : List (Placement n), (∀ p ∈ ps, Candidate ctx defs book lots p) ∧
      (∀ r, Below (stock book lots r) (ps.map fun p => p.one.takes r).sum (m.takes r)) ∧
      v = (ps.map (gain y (aloneCost y ctx book lots))).sum + ∑ r, m.takes r • aloneCost y ctx book lots r := by
  cases hrow with
  | @strategy d cs units _ hd h =>
      have hcost := h.cost (aloneCost y ctx book lots) hv
      by_cases hcount : 2 ≤ d.legCount
      · -- as many single units
        have hunits : (units.toNat : Int) = units := Int.toNat_of_nonneg h.pos.le
        refine ⟨List.replicate units.toNat ⟨d, cs⟩, ?_, fun r => ?_, ?_⟩
        · intro p hp
          rw [List.eq_of_mem_replicate hp]
          exact ⟨hd, hcount, h.seated, fun r => .of_mul h.pos (h.takes r ▸ hside r)⟩
        · rw [List.map_replicate, List.sum_replicate, nsmul_eq_mul, hunits, mul_comm, ← h.takes r]
          exact .refl (hside r)
        · rw [List.map_replicate, List.sum_replicate, ← natCast_zsmul, hunits]
          exact hcost
      · refine ⟨[], by simp, fun r => .zero (hside r), ?_⟩
        rw [h.gain_alone hplain hd hcount hside, zsmul_zero] at hcost
        exact hcost
  | @long c q hq =>
      refine ⟨[], by simp, fun r => .zero (hside r), ?_⟩
      have hpart := hside (some c)
      rw [long_takes, if_pos rfl] at hpart
      have hheld : 0 < (book.qtyOf c).toInt := by
        change Part q.toInt (book.qtyOf c).toInt at hpart
        unfold Part at hpart
        omega
      rw [List.map_nil, List.sum_nil, zero_add]
      exact long_cost hq hheld hv

theorem rows_cost (hplain : Plain defs) {rows : List (Matched n)} {vs : List (Cost ℚ)}
    (hrows : ∀ m ∈ rows, Row ctx defs m) (hside : ∀ m ∈ rows, ∀ r, Part (m.takes r) (stock book lots r))
    (hv : List.Forall₂ (RowCost y) rows vs) :
    ∃ ps : List (Placement n), (∀ p ∈ ps, Candidate ctx defs book lots p) ∧
      (∀ r, Below (stock book lots r) (ps.map fun p => p.one.takes r).sum (rows.map fun m => m.takes r).sum) ∧
      vs.sum = (ps.map (gain y (aloneCost y ctx book lots))).sum +
        ∑ r, (rows.map fun m => m.takes r).sum • aloneCost y ctx book lots r := by
  induction hv with
  | nil =>
      refine ⟨[], by simp, fun r => ?_, by simp⟩
      unfold Below
      simp
  | @cons m v rows vs hm _ ih =>
      obtain ⟨ps, hps, hbelow, hsum⟩ := ih (fun m hm => hrows m (List.mem_cons_of_mem _ hm))
        fun m hm => hside m (List.mem_cons_of_mem _ hm)
      obtain ⟨ps', hps', hbelow', hcost⟩ :=
        row_cost hplain (hrows m List.mem_cons_self) (hside m List.mem_cons_self) hm
      refine ⟨ps' ++ ps, ?_, fun r => ?_, ?_⟩
      · intro p hp
        exact (List.mem_append.mp hp).elim (hps' p) (hps p)
      · rw [List.map_append, List.sum_append, List.map_cons, List.sum_cons]
        exact (hbelow' r).add (hbelow r)
      · simp only [List.map_append, List.sum_append, List.map_cons, List.sum_cons, add_zsmul, Finset.sum_add_distrib,
          hcost, hsum]
        abel

theorem Row.distinct (h : Row ctx defs m) : (m.legs.map (·.1)).Nodup := by
  cases h with
  | strategy _ h => exact h.contracts ▸ h.seated.nodup.1
  | long _ => exact List.nodup_singleton _

/-- A partition costs the book alone, and the gains of its strategies, unit by unit. -/
theorem Partition.cost (hplain : Plain defs) {rows : List (Matched n)} (h : Partition ctx defs book lots rows left)
    {v : Cost ℚ} (hv : Costs y rows left v) :
    ∃ ps : List (Placement n), (∀ p ∈ ps, Candidate ctx defs book lots p) ∧
      (∀ r, Part (ps.map fun p => p.one.takes r).sum (stock book lots r)) ∧
      v = (ps.map (gain y (aloneCost y ctx book lots))).sum +
        ∑ r, stock book lots r • aloneCost y ctx book lots r := by
  obtain ⟨nothing, hzero, hleaves⟩ := h
  obtain ⟨vs, plain, hvs, hplain', rfl⟩ := hv
  have hside : ∀ m ∈ rows, ∀ r, Part (m.takes r) (stock book lots r) := by
    intro m hm r
    cases r with
    | none => exact hleaves.lotSide m hm
    | some c =>
        by_cases hc : c ∈ m.legs.map (·.1)
        · obtain ⟨l, hl, rfl⟩ := List.mem_map.mp hc
          change Part (uses m.legs l.1) _
          rw [uses_eq (hleaves.valid m hm).distinct hl]
          exact hleaves.side m hm l hl
        · change Part (uses m.legs c) _
          rw [uses_eq_zero hc]
          exact Part.zero _
  obtain ⟨ps, hps, hbelow, hsum⟩ := rows_cost hplain hleaves.valid hside hvs
  have hcontracts (c : Fin n) : (rows.map fun m => m.takes (some c)).sum = (book.qtyOf c).toInt := by
    have hc := hleaves.contracts c
    rwa [hzero, add_zero] at hc
  have hlots : (rows.map fun m => m.takes none).sum = lots.toInt - left.toInt := by
    have := hleaves.shares
    exact eq_sub_of_add_eq this
  refine ⟨ps, hps, fun r => (hbelow r).part ?_, ?_⟩
  · cases r with
    | none =>
        rw [hlots]
        exact hleaves.lotRest.rest
    | some c =>
        rw [hcontracts]
        exact Part.refl _
  · have hleft : plain = left.toInt • aloneCost y ctx book lots none := lotsCost_eq hplain' hleaves.lotRest
    rw [hsum, hleft, add_assoc]
    congr 1
    simp only [Fintype.sum_option, hcontracts, hlots, stock, sub_zsmul]
    abel

end TradeEngine.Margin
