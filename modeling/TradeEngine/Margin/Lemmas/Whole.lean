import TradeEngine.Lib.Packing
import TradeEngine.Margin.Lemmas.Gains

/-!
# Strategies at their most units

In an uncontested book the strategies of a partition can be exchanged for strategies that are taken as
often as they fit or not at all, and those are the strategies of a saturated grouping.
-/

namespace TradeEngine.Margin

open Lib Unrounded

variable {n : Nat} {D : Type} [LinearOrder D] {ctx : Fin n → Contract D} {defs : List StratDef}
  {book : Book n} {lots left : Int64} {d : StratDef} {cs : List (Fin n)} {units : Int} {m : Matched n}
  {y : Search n ℚ}

/-! ## Whole or not at all -/

theorem part_of_sum {K : Type} {s : Finset K} {f : K → Int} {w : Int} (hside : ∀ a ∈ s, Below w 0 (f a))
    (hsum : Part (∑ a ∈ s, f a) w) {a : K} (ha : a ∈ s) : Part (f a) w := by
  have hle : 0 ≤ w → f a ≤ ∑ a ∈ s, f a := fun hw =>
    Finset.single_le_sum (fun b hb => ((hside b hb).1 hw).2) ha
  have hge : w ≤ 0 → ∑ a ∈ s, f a ≤ f a := fun hw =>
    Finset.single_le_sum (N := Intᵒᵈ) (fun b hb => ((hside b hb).2 hw).1) ha
  have hone := hside a ha
  unfold Part at hsum ⊢
  unfold Below at hone
  omega

/-- Less of each resource is held where there is less room. -/
theorem Room.grow {b : Book n} {l : Int64} (hseat : Seated ctx [] d.legs cs)
    (hstock : ∀ r, Part (stock b l r) (stock book lots r)) (h : Room d cs b l units) : Room d cs book lots units := by
  have htakes := (room_iff_takes (p := ⟨d, cs⟩) hseat).mp h
  exact (room_iff_takes (p := ⟨d, cs⟩) hseat).mpr fun r => (htakes r).trans (hstock r)

theorem Plain.leg (hplain : Plain defs) {p : Placement n} (hmem : p.defn ∈ defs)
    (hseat : Seated ctx [] p.defn.legs p.contracts) : ∃ x, x ∈ p.contracts.zip p.defn.legs := by
  apply List.exists_mem_of_ne_nil
  intro hnil
  have hlen := congrArg List.length hnil
  have hpos := List.length_pos_iff.mpr (hplain.legs _ hmem)
  rw [List.length_zip, hseat.length, min_self, List.length_nil] at hlen
  omega

/-- A strategy with room fits at some number of units that is no less. -/
theorem Candidate.fits (hplain : Plain defs) {p : Placement n} (h : Candidate ctx defs book lots p) {u : Nat}
    (hu : 0 < u) (hroom : ∀ r, Part (p.one.takes r * u) (stock book lots r)) :
    ∃ most : Nat, u ≤ most ∧ Fits ctx defs book lots p most := by
  classical
  -- the first leg bounds the units
  obtain ⟨x, hx⟩ := hplain.leg h.mem h.seated
  have hbound : ∀ v : Nat, (book.qtyOf x.1).toInt.natAbs < v → ¬ Room p.defn p.contracts book lots v := by
    intro v hv hr
    have hpart := (hr.1 x hx).natAbs_le
    rw [Int.natAbs_mul, Int.natAbs_natCast] at hpart
    have hleg : 0 < x.2.quantity.toInt.natAbs := Int.natAbs_pos.mpr x.2.quantity_ne
    have := Nat.le_mul_of_pos_left v hleg
    omega
  have hexists : ∃ v, u ≤ v ∧ ¬ Room p.defn p.contracts book lots ((v + 1 : Nat) : Int) :=
    ⟨u + (book.qtyOf x.1).toInt.natAbs, by omega, hbound _ (by omega)⟩
  refine ⟨Nat.find hexists, (Nat.find_spec hexists).1, h.mem, h.legCount, h.seated, ?_, ?_, ?_⟩
  · have := (Nat.find_spec hexists).1
    omega
  · rcases Nat.eq_or_lt_of_le (Nat.find_spec hexists).1 with heq | hlt
    · rw [← heq]
      exact (room_iff_takes h.seated).mpr hroom
    · by_contra hno
      refine Nat.find_min hexists (m := Nat.find hexists - 1) (by omega) ⟨by omega, ?_⟩
      rwa [show Nat.find hexists - 1 + 1 = Nat.find hexists by omega]
  · have := (Nat.find_spec hexists).2
    push_cast at this
    exact this

theorem sum_takes [DecidableEq (Placement n)] (ps : List (Placement n)) (r : Option (Fin n)) :
    ∑ p ∈ ps.toFinset, (ps.count p : Int) * p.one.takes r = (ps.map fun p => p.one.takes r).sum := by
  rw [Finset.sum_list_map_count]
  simp only [nsmul_eq_mul]

/-- Of strategies that all fit together, one fits as often as it occurs. -/
theorem count_fits [DecidableEq (Placement n)] {ps : List (Placement n)}
    (hps : ∀ p ∈ ps, Candidate ctx defs book lots p)
    (hsum : ∀ r, Part (ps.map fun p => p.one.takes r).sum (stock book lots r)) {p : Placement n} (hp : p ∈ ps)
    (r : Option (Fin n)) : Part (p.one.takes r * ps.count p) (stock book lots r) := by
  rw [mul_comm]
  have hpart : Part (∑ p ∈ ps.toFinset, (ps.count p : Int) * p.one.takes r) (stock book lots r) :=
    (sum_takes ps r).symm ▸ hsum r
  refine part_of_sum (fun q hq => ?_) hpart (List.mem_toFinset.mpr hp)
  have hq := (hps q (List.mem_toFinset.mp hq)).room r
  unfold Part at hq
  unfold Below
  constructor
  · intro hw
    have : 0 ≤ q.one.takes r := by omega
    exact ⟨le_rfl, by positivity⟩
  · intro hw
    have : q.one.takes r ≤ 0 := by omega
    exact ⟨mul_nonpos_of_nonneg_of_nonpos (by positivity) this, le_rfl⟩

/-- Strategies that all fit together can be exchanged for strategies at their most units, at no loss. -/
theorem exists_full (hplain : Plain defs) (hbook : Uncontested ctx defs book lots) {ps : List (Placement n)}
    (hps : ∀ p ∈ ps, Candidate ctx defs book lots p)
    (hsum : ∀ r, Part (ps.map fun p => p.one.takes r).sum (stock book lots r)) (g : Placement n → Cost ℚ) :
    ∃ all : List (Placement n × Int), (∀ e ∈ all, Fits ctx defs book lots e.1 e.2) ∧
      (∀ r, Part (all.map fun e => e.1.one.takes r * e.2).sum (stock book lots r)) ∧
      (all.map fun e => e.2 • g e.1).sum ≤ (ps.map g).sum := by
  classical
  have hpos : ∀ p ∈ ps.toFinset, 0 < ps.count p := fun p hp => List.count_pos_iff.mpr (List.mem_toFinset.mp hp)
  choose! most hmost hfits using fun p (hp : p ∈ ps.toFinset) =>
    (hps p (List.mem_toFinset.mp hp)).fits hplain (hpos p hp) (count_fits hps hsum (List.mem_toFinset.mp hp))
  have hall : ∀ t ⊆ ps.toFinset, ∀ r, (((t.toList.map fun p => (p, (most p : Int))).map fun e =>
      e.1.one.takes r * e.2).sum = ∑ p ∈ t, (most p : Int) * p.one.takes r) := by
    intro t _ r
    rw [List.map_map, ← Finset.sum_map_toList]
    simp only [Function.comp_def, mul_comm]
  have hmem : ∀ t ⊆ ps.toFinset, ∀ e ∈ t.toList.map fun p => (p, (most p : Int)),
      Fits ctx defs book lots e.1 e.2 := by
    intro t ht e he
    obtain ⟨p, hp, rfl⟩ := List.mem_map.mp he
    exact hfits p (ht (Finset.mem_toList.mp hp))
  have hfree : ∀ p ∈ ps.toFinset, 2 ≤ most p → ∀ t ⊆ ps.toFinset, ∀ r, p.one.takes r ≠ 0 →
      Part (∑ q ∈ t, (most q : Int) * q.one.takes r) (stock book lots r) := by
    intro p hp htwo t ht r hne
    rw [← hall t ht r]
    refine hbook p (most p) (hfits p hp) (by exact_mod_cast htwo) _ ?_ (hmem t ht) r hne
    exact (Finset.nodup_toList t).map fun _ _ h => (Prod.mk.inj h).1
  obtain ⟨t, ht, htakes, hgain⟩ := @exists_whole (Placement n) (Option (Fin n)) (Cost ℚ) _ _ _ most
    (fun p => ps.count p) (fun p r => p.one.takes r) g ps.toFinset (fun r q => Part q (stock book lots r)) hpos hmost
    hfree fun r => (sum_takes ps r).symm ▸ hsum r
  refine ⟨t.toList.map fun p => (p, (most p : Int)), hmem t ht, fun r => ?_, ?_⟩
  · rw [hall t ht r]
    exact htakes r
  · rw [List.map_map, Finset.sum_list_map_count ps g]
    refine le_trans (le_of_eq ?_) hgain
    rw [← Finset.sum_map_toList]
    simp only [Function.comp_def, natCast_zsmul]

/-! ## A grouping of strategies at their most units -/

theorem stock_items (b : Book n) (lots : Int64) : stock (b.retain.sorted ctx) lots = stock b lots := by
  funext r
  cases r with
  | none => rfl
  | some c => simp [stock]

/-- Taking a row leaves the rest of each contract and of the lots. -/
theorem take_row {b : Book n} (hs : b.Sized) (hl : -2 ^ 63 < lots.toInt) (hrow : Row ctx defs m)
    (hm : Within b lots m) (hne : m.legs ≠ []) :
    ∃ b' lots', (b.retain.sorted ctx).take m.legs = .ok b' ∧ lots'.toInt = lots.toInt - m.underlyingLots.toInt ∧
      (∀ r, stock b' lots' r = stock b lots r - m.takes r) ∧ (∀ r, Part (stock b' lots' r) (stock b lots r)) ∧
      b'.Sized ∧ -2 ^ 63 < lots'.toInt ∧ b'.size < b.size := by
  have hitems : Within (b.retain.sorted ctx) lots m := ⟨hm.distinct, by simpa using hm.legs, hm.lots⟩
  obtain ⟨b', htake⟩ := Book.take_ok hitems.distinct hitems.legs
  obtain ⟨lots', hlots'⟩ := hm.lots.checked_rest
  have hlots' := checked_ok.mp hlots'
  have hleaves := (Leaves.of_take hrow hitems htake hlots').congr (a := b) (fun c => by simp) fun _ => rfl
  refine ⟨b', lots', htake, hlots', fun r => ?_, fun r => ?_, hleaves.sized hs, hleaves.lots_sized hl,
    hleaves.size_lt hm hne⟩
  · cases r with
    | none => exact hlots'
    | some c =>
        have hc := hleaves.contracts c
        simp only [List.map_cons, List.map_nil, List.sum_cons, List.sum_nil, add_zero] at hc
        exact eq_sub_of_add_eq' hc
  · cases r with
    | none => exact hleaves.lotRest
    | some c => exact hleaves.rest c

theorem nakedOf_eq (right : Right) : ∃ name, nakedOf right = naked name right := by
  cases right with
  | call => exact ⟨_, rfl⟩
  | put => exact ⟨_, rfl⟩

omit [LinearOrder D] in
theorem nakedOf_full {b : Book n} {c : Fin n} (right : Right) (hc : (b.qtyOf c).toInt < 0) :
    Full (nakedOf right) [c] b lots (-(b.qtyOf c).toInt) := by
  obtain ⟨name, h⟩ := nakedOf_eq right
  exact h ▸ naked_full hc

theorem nakedOf_seated (c : Fin n) : Seated ctx [] (nakedOf (ctx c).right).legs [c] := by
  obtain ⟨name, h⟩ := nakedOf_eq (ctx c).right
  exact h ▸ naked_seated rfl

/-- As many units as there are make a row. -/
theorem Full.instance {b : Book n} (hs : b.Sized) (hl : -2 ^ 63 < lots.toInt) (hseat : Seated ctx [] d.legs cs)
    (hu : 0 < units) (h : Full d cs b lots units) : ∃ m, Instance ctx d cs units m := by
  obtain ⟨ms, hms⟩ := matchesOf_ok ctx d hs hl none
  obtain ⟨m, -, hm⟩ := matchesOf_complete hs hl hms (.inl rfl) hu hseat h
  exact ⟨m, hm⟩

/-- Strategies still to be placed: there is room for all of them, and for no further unit of any. -/
structure Pending (ctx : Fin n → Contract D) (defs : List StratDef) (b : Book n) (l : Int64)
    (all : List (Placement n × Int)) : Prop where
  mem : ∀ e ∈ all, e.1.defn ∈ defs
  seated : ∀ e ∈ all, Seated ctx [] e.1.defn.legs e.1.contracts
  pos : ∀ e ∈ all, 0 < e.2
  room : ∀ e ∈ all, ∀ r, Part (e.1.one.takes r * e.2) (stock b l r)
  most : ∀ e ∈ all, ¬ Room e.1.defn e.1.contracts b l (e.2 + 1)
  sum : ∀ r, Part (all.map fun e => e.1.one.takes r * e.2).sum (stock b l r)

namespace Pending

variable {b b' : Book n} {l l' : Int64} {all : List (Placement n × Int)}

/-- One of them is placed. -/
theorem tail (h : Pending ctx defs b l all) {e : Placement n × Int} {rest : List (Placement n × Int)}
    (hperm : all.Perm (e :: rest)) (hstock : ∀ r, stock b' l' r = stock b l r - e.1.one.takes r * e.2)
    (hrest : ∀ r, Part (stock b' l' r) (stock b l r)) : Pending ctx defs b' l' rest := by
  have hmem {f : Placement n × Int} (hf : f ∈ rest) : f ∈ all := hperm.mem_iff.mpr (List.mem_cons_of_mem _ hf)
  have he : e ∈ all := hperm.mem_iff.mpr List.mem_cons_self
  have hsplit (r : Option (Fin n)) : (all.map fun e => e.1.one.takes r * e.2).sum =
      e.1.one.takes r * e.2 + (rest.map fun e => e.1.one.takes r * e.2).sum := by
    rw [(hperm.map _).sum_eq, List.map_cons, List.sum_cons]
  have hside : ∀ r, ∀ x ∈ rest.map fun e => e.1.one.takes r * e.2, Part x (stock b l r) := by
    intro r x hx
    obtain ⟨f, hf, rfl⟩ := List.mem_map.mp hx
    exact h.room f (hmem hf) r
  have hrests (r : Option (Fin n)) :
      Part (rest.map fun e => e.1.one.takes r * e.2).sum (stock b' l' r) := by
    have hall := h.sum r
    have hone := h.room e he r
    have hsum := (Below.sum (hside r)).1
    rw [hsplit r] at hall
    rw [hstock r]
    unfold Part at *
    unfold Below at hsum
    omega
  refine ⟨fun f hf => h.mem f (hmem hf), fun f hf => h.seated f (hmem hf), fun f hf => h.pos f (hmem hf),
    ?_, ?_, hrests⟩
  · intro f hf r
    have hpart := hrests r
    have hone := h.room e he r
    have hbelow := (Below.sum (hside r)).2 _ (List.mem_map.mpr ⟨f, hf, rfl⟩)
    rw [hstock r] at hpart ⊢
    unfold Part at *
    unfold Below at hbelow
    omega
  · intro f hf hroom
    exact h.most f (hmem hf) (hroom.grow (h.seated f (hmem hf)) hrest)

/-- A contract that none of them is on is taken. -/
theorem skip (h : Pending ctx defs b l all) {c : Fin n} (hc : ∀ e ∈ all, c ∉ e.1.contracts)
    (hstock : ∀ r, r ≠ some c → stock b' l' r = stock b l r) (hrest : ∀ r, Part (stock b' l' r) (stock b l r)) :
    Pending ctx defs b' l' all := by
  have hzero : ∀ e ∈ all, e.1.one.takes (some c) * e.2 = 0 := by
    intro e he
    rw [e.1.one_takes_eq_zero (h.seated e he) (hc e he), zero_mul]
  refine ⟨h.mem, h.seated, h.pos, ?_, ?_, ?_⟩
  · intro e he r
    by_cases hr : r = some c
    · rw [hr, hzero e he]
      exact Part.zero _
    · rw [hstock r hr]
      exact h.room e he r
  · intro e he hroom
    exact h.most e he (hroom.grow (h.seated e he) hrest)
  · intro r
    by_cases hr : r = some c
    · rw [hr, List.map_congr_left hzero]
      simpa using Part.zero _
    · rw [hstock r hr]
      exact h.sum r

end Pending

/-! ## The grouping they make -/

/-- Some saturated grouping of what is left costs what the strategies gain and what each contract costs alone. -/
def Regrouped (y : Search n ℚ) (ctx : Fin n → Contract D) (defs : List StratDef) (book : Book n) (lots : Int64)
    (b : Book n) (l : Int64) (all : List (Placement n × Int)) : Prop :=
  ∃ rows left, Saturated ctx defs (b.retain.sorted ctx) l rows left ∧ ∀ v, Costs y rows left v →
    v = (all.map fun e => e.2 • gain y (aloneCost y ctx book lots) e.1).sum +
      ∑ r, stock b l r • aloneCost y ctx book lots r

/-- Whatever is smaller than `b` can be regrouped. -/
def SmallerRegrouped (y : Search n ℚ) (ctx : Fin n → Contract D) (defs : List StratDef) (book : Book n)
    (lots : Int64) (b : Book n) : Prop :=
  ∀ b' l' all, b'.size < b.size → b'.Sized → -2 ^ 63 < l'.toInt →
    (∀ r, Part (stock b' l' r) (stock book lots r)) → Pending ctx defs b' l' all →
      Regrouped y ctx defs book lots b' l' all

/-- What is held costs alone what is taken costs alone and what stays costs alone. -/
theorem stock_cost {b b' : Book n} {l l' : Int64} (alone : Option (Fin n) → Cost ℚ)
    (hstock : ∀ r, stock b' l' r = stock b l r - m.takes r) :
    ∑ r, stock b l r • alone r = ∑ r, m.takes r • alone r + ∑ r, stock b' l' r • alone r := by
  rw [← Finset.sum_add_distrib]
  refine Finset.sum_congr rfl fun r _ => ?_
  rw [← add_zsmul, hstock r, add_sub_cancel]

theorem entry_held {b : Book n} {e : Fin n × Int64} (he : e ∈ (b.retain.sorted ctx).entries) :
    e.2.toInt ≠ 0 ∧ b.qtyOf e.1 = e.2 := by
  have hqty := Book.qtyOf_of_mem he
  have hretain := (List.mem_insertionSort _).mp he
  exact ⟨by simpa using (List.mem_filter.mp hretain).2, by simpa using hqty⟩

section grouping

variable {b : Book n} {l : Int64} {all : List (Placement n × Int)} {first : Fin n × Int64}

variable (y) in
/-- With no contract left no strategy is pending, and the lots are left over. -/
theorem Pending.regrouped_nil (hplain : Plain defs) (hside : ∀ r, Part (stock b l r) (stock book lots r))
    (h : Pending ctx defs b l all) (hitems : (b.retain.sorted ctx).entries = []) :
    Regrouped y ctx defs book lots b l all := by
  have hzero : ∀ c, (b.qtyOf c).toInt = 0 := by
    intro c
    have hc := Book.qtyOf_of_notMem (b := b.retain.sorted ctx) (c := c) (by simp [hitems])
    rw [Book.qtyOf_sorted, Book.qtyOf_retain] at hc
    rw [hc]
    rfl
  have hall : all = [] := by
    rw [List.eq_nil_iff_forall_not_mem]
    intro e he
    obtain ⟨x, hx⟩ := hplain.leg (h.mem e he) (h.seated e he)
    have hpart := h.room e he (some x.1)
    rw [e.1.one_takes (h.seated e he) hx, stock, hzero] at hpart
    exact mul_ne_zero x.2.quantity_ne (h.pos e he).ne' hpart.eq_zero
  subst hall
  refine ⟨[], l, .nil hitems, ?_⟩
  rintro v ⟨vs, plain, hvs, hstock, rfl⟩
  cases hvs
  have hleft : plain = l.toInt • aloneCost y ctx book lots none := lotsCost_eq hstock (hside none)
  simp [hleft, Fintype.sum_option, stock, hzero]

/-- A pending strategy on the first contract is placed. -/
theorem Pending.regrouped_strategy (hs : b.Sized) (hl : -2 ^ 63 < l.toInt)
    (hside : ∀ r, Part (stock b l r) (stock book lots r)) (h : Pending ctx defs b l all)
    (ih : SmallerRegrouped y ctx defs book lots b) (hfirst : (b.retain.sorted ctx).entries.head? = some first)
    {e : Placement n × Int} (he : e ∈ all) (hc : first.1 ∈ e.1.contracts) :
    Regrouped y ctx defs book lots b l all := by
  classical
  have hseat := h.seated e he
  have hroom : Room e.1.defn e.1.contracts b l e.2 := (room_iff_takes hseat).mpr (h.room e he)
  obtain ⟨m, hm⟩ := Full.instance hs hl hseat (h.pos e he) ⟨hroom, h.most e he⟩
  have hlegs : m.legs ≠ [] := by
    intro hnil
    rw [← hm.contracts, hnil] at hc
    cases hc
  obtain ⟨b', l', htake, hl', hstock, hpart, hs', hlb, hlt⟩ :=
    take_row hs hl (.strategy (h.mem e he) hm) (hm.within hroom) hlegs
  have hperm := List.perm_cons_erase he
  have hpending := h.tail hperm (fun r => by rw [hstock r, hm.takes r]) hpart
  obtain ⟨rows, left, hsat, hcosts⟩ := ih b' l' _ hlt hs' hlb (fun r => (hpart r).trans (hside r)) hpending
  -- the sorted book has the same room
  have hfull : Full e.1.defn e.1.contracts (b.retain.sorted ctx) l e.2 := by
    refine ⟨(room_iff_takes hseat).mpr fun r => ?_, fun hno => h.most e he (hno.grow hseat fun r => ?_)⟩
    · rw [stock_items]
      exact h.room e he r
    · rw [stock_items]
      exact Part.refl _
  refine ⟨m :: rows, left, .strategy hfirst hc (h.mem e he) hm hfull htake hl' hsat, ?_⟩
  intro v hv
  obtain ⟨u, w, hu, hw, rfl⟩ := hv.tail
  have hcost : u = e.2 • gain y (aloneCost y ctx book lots) e.1 + ∑ r, m.takes r • aloneCost y ctx book lots r :=
    hm.cost _ hu
  rw [hcost, hcosts w hw, stock_cost _ hstock, (hperm.map _).sum_eq, List.map_cons, List.sum_cons]
  abel

/-- A row on a contract that no pending strategy is on, at what the contract costs alone, comes first. -/
theorem Pending.regrouped_row (hs : b.Sized) (hl : -2 ^ 63 < l.toInt)
    (hside : ∀ r, Part (stock b l r) (stock book lots r)) (h : Pending ctx defs b l all)
    (ih : SmallerRegrouped y ctx defs book lots b) {c : Fin n} (hfree : ∀ e ∈ all, c ∉ e.1.contracts)
    (hrow : Row ctx defs m) (hwithin : Within b l m) (hlegs : m.legs ≠ [])
    (hothers : ∀ r, r ≠ some c → m.takes r = 0)
    (hcost : ∀ u, RowCost y m u → u = ∑ r, m.takes r • aloneCost y ctx book lots r) :
    ∃ b', (b.retain.sorted ctx).take m.legs = .ok b' ∧ m.underlyingLots.toInt = 0 ∧ ∃ rows left,
      Saturated ctx defs (b'.retain.sorted ctx) l rows left ∧ ∀ v, Costs y (m :: rows) left v →
        v = (all.map fun e => e.2 • gain y (aloneCost y ctx book lots) e.1).sum +
          ∑ r, stock b l r • aloneCost y ctx book lots r := by
  obtain ⟨b', l', htake, hl', hstock, hpart, hs', hlb, hlt⟩ := take_row hs hl hrow hwithin hlegs
  have hlots : m.underlyingLots.toInt = 0 := hothers none (by simp)
  have hsame : l' = l := Int64.toInt_inj.mp (by rw [hl', hlots, sub_zero])
  subst hsame
  have hpending : Pending ctx defs b' l' all := by
    refine h.skip hfree (fun r hr => ?_) hpart
    rw [hstock r, hothers r hr, sub_zero]
  obtain ⟨rows, left, hsat, hcosts⟩ := ih b' l' _ hlt hs' hlb (fun r => (hpart r).trans (hside r)) hpending
  refine ⟨b', htake, hlots, rows, left, hsat, fun v hv => ?_⟩
  obtain ⟨u, w, hu, hw, rfl⟩ := hv.tail
  rw [hcost u hu, hcosts w hw, stock_cost _ hstock]
  abel

/-- A short contract that no pending strategy is on is left naked. -/
theorem Pending.regrouped_naked (hplain : Plain defs) (hs : b.Sized) (hl : -2 ^ 63 < l.toInt)
    (hside : ∀ r, Part (stock b l r) (stock book lots r)) (h : Pending ctx defs b l all)
    (ih : SmallerRegrouped y ctx defs book lots b) (hfirst : (b.retain.sorted ctx).entries.head? = some first)
    (hqty : b.qtyOf first.1 = first.2) (hfree : ∀ e ∈ all, first.1 ∉ e.1.contracts) (hneg : first.2.toInt < 0) :
    Regrouped y ctx defs book lots b l all := by
  have hfull : Full (nakedOf (ctx first.1).right) [first.1] b l (-(b.qtyOf first.1).toInt) :=
    nakedOf_full _ (hqty ▸ hneg)
  obtain ⟨m, hm⟩ := Full.instance hs hl (nakedOf_seated first.1) (by rw [hqty]; omega) hfull
  have hlegs : m.legs ≠ [] := by
    intro hnil
    have hcontracts := hm.contracts
    rw [hnil] at hcontracts
    cases hcontracts
  have hsold : ¬ 0 < (book.qtyOf first.1).toInt := by
    have hpart := hside (some first.1)
    simp only [stock, hqty] at hpart
    unfold Part at hpart
    omega
  have hothers : ∀ r, r ≠ some first.1 → m.takes r = 0 := by
    intro r hr
    rw [hm.takes r]
    cases r with
    | none => rw [naked_takes_lots, zero_mul]
    | some c => rw [naked_takes_one, if_neg (fun he => hr (congrArg some he.symm)), zero_mul]
  have hcost : ∀ u, RowCost y m u → u = ∑ r, m.takes r • aloneCost y ctx book lots r := by
    intro u hu
    rw [hm.cost (aloneCost y ctx book lots) hu, gain_naked hsold, zsmul_zero, zero_add]
  obtain ⟨b', htake, hlots, rows, left, hsat, hcosts⟩ :=
    h.regrouped_row hs hl hside ih hfree (.strategy (hplain.naked _) hm) (hm.within hfull.1) hlegs hothers hcost
  have hitem : (b.retain.sorted ctx).qtyOf first.1 = b.qtyOf first.1 := by simp
  have hsorted : Full (nakedOf (ctx first.1).right) [first.1] (b.retain.sorted ctx) l
      (-(b.qtyOf first.1).toInt) := by
    rw [← hitem]
    exact nakedOf_full _ (by rw [hitem, hqty]; exact hneg)
  exact ⟨m :: rows, left, .strategy hfirst List.mem_cons_self (hplain.naked _) hm hsorted htake
    (by rw [hlots, sub_zero]) hsat, hcosts⟩

/-- A held contract that no pending strategy is on is a long row. -/
theorem Pending.regrouped_long (hs : b.Sized) (hl : -2 ^ 63 < l.toInt)
    (hside : ∀ r, Part (stock b l r) (stock book lots r)) (h : Pending ctx defs b l all)
    (ih : SmallerRegrouped y ctx defs book lots b) (hfirst : (b.retain.sorted ctx).entries.head? = some first)
    (hqty : b.qtyOf first.1 = first.2) (hfree : ∀ e ∈ all, first.1 ∉ e.1.contracts) (hpos : 0 < first.2.toInt) :
    Regrouped y ctx defs book lots b l all := by
  have hheld : 0 < (book.qtyOf first.1).toInt := by
    have hpart := hside (some first.1)
    simp only [stock, hqty] at hpart
    unfold Part at hpart
    omega
  have hothers : ∀ r, r ≠ some first.1 → (long ctx first.1 first.2).takes r = 0 := by
    intro r hr
    cases r with
    | none => rfl
    | some c => rw [long_takes, if_neg (fun he => hr (congrArg some he.symm))]
  obtain ⟨b', htake, -, rows, left, hsat, hcosts⟩ := h.regrouped_row hs hl hside ih hfree (.long hpos)
    (hqty ▸ .long (hqty ▸ hpos)) (by simp [long]) hothers fun u hu => long_cost hpos hheld hu
  exact ⟨_, left, .long hfirst hpos htake hsat, hcosts⟩

variable (y) in
/-- Strategies that are pending together are the gaining ones of some saturated grouping. -/
theorem Pending.saturated (hplain : Plain defs) (hs : b.Sized) (hl : -2 ^ 63 < l.toInt)
    (hside : ∀ r, Part (stock b l r) (stock book lots r)) (h : Pending ctx defs b l all) :
    Regrouped y ctx defs book lots b l all := by
  induction hsize : b.size using Nat.strong_induction_on generalizing b l all with
  | _ size ih =>
  subst hsize
  have ih : SmallerRegrouped y ctx defs book lots b := fun b' l' all' hlt hs' hl' hside' h' =>
    ih b'.size hlt hs' hl' hside' h' rfl
  cases hitems : (b.retain.sorted ctx).entries with
  | nil => exact h.regrouped_nil y hplain hside hitems
  | cons first tail =>
      have hfirst : (b.retain.sorted ctx).entries.head? = some first := by rw [hitems]; rfl
      obtain ⟨hne, hqty⟩ := entry_held (hitems ▸ List.mem_cons_self)
      by_cases hex : ∃ e ∈ all, first.1 ∈ e.1.contracts
      · obtain ⟨e, he, hc⟩ := hex
        exact h.regrouped_strategy hs hl hside ih hfirst he hc
      · have hfree : ∀ e ∈ all, first.1 ∉ e.1.contracts := fun e he hc => hex ⟨e, he, hc⟩
        rcases lt_or_gt_of_ne hne with hneg | hpos
        · exact h.regrouped_naked hplain hs hl hside ih hfirst hqty hfree hneg
        · exact h.regrouped_long hs hl hside ih hfirst hqty hfree hpos

end grouping

/-! ## Contention, computed -/

/-- The strategies that fit, each at its most units. -/
def fitting (ctx : Fin n → Contract D) (defs : List StratDef) (book : Book n) (lots : Int64) :
    List (Placement n × Int) :=
  (defs.filter fun d => 2 ≤ d.legCount).flatMap fun d =>
    ((matchesOf d ctx book lots none).toOption.getD []).map fun m => (⟨d, m.legs.map (·.1)⟩, m.quantity.toInt)

theorem mem_fitting (hs : book.Sized) (hl : -2 ^ 63 < lots.toInt) {e : Placement n × Int} :
    e ∈ fitting ctx defs book lots ↔ Fits ctx defs book lots e.1 e.2 := by
  simp only [fitting, List.mem_flatMap, List.mem_filter, List.mem_map, decide_eq_true_eq]
  constructor
  · rintro ⟨d, ⟨hd, hcount⟩, m, hm, rfl⟩
    obtain ⟨ms, hms⟩ := matchesOf_ok ctx d hs hl none
    rw [hms] at hm
    obtain ⟨cs, units, hinst, hfull⟩ := matchesOf_sound hs hl hms m hm
    rw [hinst.contracts, hinst.quantity]
    exact ⟨hd, hcount, hinst.seated, hinst.pos, hfull⟩
  · obtain ⟨p, units⟩ := e
    intro h
    obtain ⟨ms, hms⟩ := matchesOf_ok ctx p.defn hs hl none
    obtain ⟨m, hm, hinst⟩ := matchesOf_complete hs hl hms (.inl rfl) h.pos h.seated h.full
    refine ⟨p.defn, ⟨h.mem, h.legCount⟩, m, by rw [hms]; exact hm, ?_⟩
    rw [hinst.contracts, hinst.quantity]

theorem Below.sublist {w : Int} {l l' : List Int} (h : l.Sublist l') (hside : ∀ x ∈ l', Part x w) :
    Below w l.sum l'.sum := by
  induction h with
  | slnil =>
      unfold Below
      simp
  | cons x _ ih =>
      have hrest := ih fun y hy => hside y (List.mem_cons_of_mem _ hy)
      rw [List.sum_cons]
      simpa using (Below.zero (hside x List.mem_cons_self)).add hrest
  | cons_cons x _ ih =>
      have hrest := ih fun y hy => hside y (List.mem_cons_of_mem _ hy)
      rw [List.sum_cons, List.sum_cons]
      exact (Below.refl (hside x List.mem_cons_self)).add hrest

/-- A book is uncontested when all that fits is enough together for what fits twice. -/
theorem uncontested_of_fitting (hs : book.Sized) (hl : -2 ^ 63 < lots.toInt)
    (h : ∀ e ∈ fitting ctx defs book lots, 2 ≤ e.2 → ∀ r, e.1.one.takes r ≠ 0 →
      Part ((fitting ctx defs book lots).map fun e => e.1.one.takes r * e.2).sum (stock book lots r)) :
    Uncontested ctx defs book lots := by
  intro p units hp htwo all hall hfits r hne
  have hside : ∀ x ∈ (fitting ctx defs book lots).map fun e => e.1.one.takes r * e.2,
      Part x (stock book lots r) := by
    intro x hx
    obtain ⟨e, he, rfl⟩ := List.mem_map.mp hx
    have hfit := (mem_fitting hs hl).mp he
    exact (room_iff_takes hfit.seated).mp hfit.full.1 r
  obtain ⟨l, hperm, hsub⟩ := hall.subperm fun e he => (mem_fitting hs hl).mpr (hfits e he)
  rw [← (hperm.map fun e => e.1.one.takes r * e.2).sum_eq]
  exact (Below.sublist (hsub.map _) hside).part (h (p, units) ((mem_fitting hs hl).mpr hp) htwo r hne)

end TradeEngine.Margin
