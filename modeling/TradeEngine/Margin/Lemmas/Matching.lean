import TradeEngine.Margin.Lemmas.Books

/-!
# What matching finds

The walk over the legs visits every way a definition stands on the held contracts, and emits each
with the most units that fit.
-/

namespace TradeEngine.Margin

open Lib

variable {n : Nat} {D : Type} [LinearOrder D]

/-- No quantity is `-2 ^ 63`, whose size `i64` cannot hold. -/
def Book.Sized (b : Book n) : Prop := ∀ c, -2 ^ 63 < (b.qtyOf c).toInt

/-! ## Units -/

theorem fits_toInt {q leg : Int64} (hq : -2 ^ 63 < q.toInt) :
    (fits q leg).toInt = (q.toInt.natAbs / leg.toInt.natAbs : Nat) := by
  have := q.toInt_lt
  have hdiv := Nat.div_le_self q.toInt.natAbs leg.toInt.natAbs
  exact Int64.toInt_ofNat_of_lt (by omega)

/-- `v` units of a leg are part of a quantity when they lie on one side and go into it. -/
theorem part_mul_iff {q leg : Int64} {v : Int} (hq : -2 ^ 63 < q.toInt) (hleg : leg.toInt ≠ 0) (hv : 0 < v) :
    Part (leg.toInt * v) q.toInt ↔ (0 < q.toInt ↔ 0 < leg.toInt) ∧ v ≤ (fits q leg).toInt := by
  rw [fits_toInt hq]
  lift v to Nat using hv.le
  have hpos : 0 < leg.toInt.natAbs := Int.natAbs_pos.mpr hleg
  rw [Nat.cast_le, Nat.le_div_iff_mul_le hpos]
  have habs : (leg.toInt * v).natAbs = v * leg.toInt.natAbs := by
    rw [Int.natAbs_mul, Int.natAbs_natCast, Nat.mul_comm]
  rw [← habs]
  rcases lt_or_gt_of_ne hleg with hneg | hpos
  · have : leg.toInt * v < 0 := mul_neg_of_neg_of_pos hneg hv
    unfold Part
    omega
  · have : 0 < leg.toInt * v := mul_pos hpos hv
    unfold Part
    omega

theorem le_narrow {units : Option Int64} {fit : Int64} {v : Int} :
    v ≤ (Walk.narrow units fit).toInt ↔ (∀ u ∈ units, v ≤ u.toInt) ∧ v ≤ fit.toInt := by
  cases units with
  | none => simp [Walk.narrow]
  | some u =>
      simp only [Walk.narrow, Option.elim_some, Option.mem_some_iff, forall_eq']
      split <;> omega

/-! ## Seats -/

namespace Seated

variable {ctx : Fin n → Contract D} {chosen cs : List (Fin n)} {legs : List LegDef}

theorem length (h : Seated ctx chosen legs cs) : cs.length = legs.length := by
  induction legs generalizing chosen cs with
  | nil =>
      cases cs with
      | nil => rfl
      | cons c cs => exact h.elim
  | cons leg legs ih =>
      cases cs with
      | nil => exact h.elim
      | cons c cs => simp [ih h.2.2.2]

theorem nodup (h : Seated ctx chosen legs cs) : cs.Nodup ∧ ∀ c ∈ cs, c ∉ chosen := by
  induction legs generalizing chosen cs with
  | nil =>
      cases cs with
      | nil => simp
      | cons c cs => exact h.elim
  | cons leg legs ih =>
      cases cs with
      | nil => exact h.elim
      | cons c cs =>
          obtain ⟨hnodup, hnew⟩ := ih h.2.2.2
          constructor
          · refine List.nodup_cons.mpr ⟨fun hc => hnew c hc (by simp), hnodup⟩
          · intro x hx
            rcases List.mem_cons.mp hx with rfl | hx
            · exact h.1
            · exact fun hc => hnew x hx (List.mem_append_left _ hc)

end Seated

namespace Walk

variable {w : Walk n D}

/-- The ways on from `chosen`, each step one the walk takes. -/
def Seats (w : Walk n D) (chosen : List (Fin n)) : List LegDef → List (Fin n) → Prop
  | [], [] => True
  | leg :: legs, c :: cs => c ∈ w.held ∧ w.suits chosen leg c = true ∧ w.Seats (chosen ++ [c]) legs cs
  | _, _ => False

def unitsOf (w : Walk n D) : Option Int64 → List LegDef → List (Fin n) → Option Int64
  | units, leg :: legs, c :: cs =>
      w.unitsOf (some (narrow units (fits (w.book.qtyOf c) leg.quantity))) legs cs
  | units, _, _ => units

/-- Where the walk arrives, with the units each way allows. -/
def ends (w : Walk n D) : List LegDef → List (Fin n) → Option Int64 → List (List (Fin n) × Option Int64)
  | [], chosen, units => [(chosen, units)]
  | leg :: legs, chosen, units =>
      w.held.flatMap fun c =>
        if w.suits chosen leg c then
          w.ends legs (chosen ++ [c]) (some (narrow units (fits (w.book.qtyOf c) leg.quantity)))
        else []

/-- One arrival. -/
def emit (w : Walk n D) (acc : Bool × List (Matched n)) (e : List (Fin n) × Option Int64) :
    Result (Bool × List (Matched n)) :=
  if acc.1 then pure acc else w.extend [] e.1 e.2 acc.2

theorem emit_stopped (l : List (List (Fin n) × Option Int64)) {acc : Bool × List (Matched n)}
    (h : acc.1 = true) : l.foldlM w.emit acc = .ok acc := by
  induction l with
  | nil => rfl
  | cons e l ih =>
      rw [List.foldlM_cons, emit, if_pos h]
      exact ih

theorem extend_eq (legs : List LegDef) (chosen : List (Fin n)) (units : Option Int64)
    (out : List (Matched n)) :
    w.extend legs chosen units out = (w.ends legs chosen units).foldlM w.emit (false, out) := by
  induction legs generalizing chosen units out with
  | nil =>
      rw [ends, List.foldlM_cons, emit, if_neg (by simp)]
      simp only [List.foldlM_nil, bind_pure]
  | cons leg legs ih =>
      rw [extend, ends]
      generalize (false, out) = acc
      induction w.held generalizing acc with
      | nil => rfl
      | cons c held ihh =>
          rw [List.foldlM_cons, List.flatMap_cons, List.foldlM_append]
          simp only [ihh]
          congr 1
          obtain ⟨stop, out⟩ := acc
          cases stop with
          | true =>
              rw [emit_stopped _ rfl]
              rfl
          | false =>
              simp only [Bool.false_eq_true, if_false]
              split
              · exact ih _ _ _
              · rfl

theorem mem_ends {legs : List LegDef} {chosen cs' : List (Fin n)} {units u' : Option Int64} :
    (cs', u') ∈ w.ends legs chosen units ↔
      ∃ cs, cs' = chosen ++ cs ∧ w.Seats chosen legs cs ∧ u' = w.unitsOf units legs cs := by
  induction legs generalizing chosen units with
  | nil =>
      simp only [ends, List.mem_singleton, Prod.mk.injEq]
      constructor
      · rintro ⟨rfl, rfl⟩
        exact ⟨[], by simp, trivial, rfl⟩
      · rintro ⟨cs, rfl, hs, rfl⟩
        cases cs with
        | nil => exact ⟨by simp, rfl⟩
        | cons c cs => exact hs.elim
  | cons leg legs ih =>
      simp only [ends, List.mem_flatMap, List.mem_ite_nil_right, ih]
      constructor
      · rintro ⟨c, hc, hsuits, cs, rfl, hs, rfl⟩
        exact ⟨c :: cs, by simp, ⟨hc, hsuits, hs⟩, rfl⟩
      · rintro ⟨cs, rfl, hs, rfl⟩
        cases cs with
        | nil => exact hs.elim
        | cons c cs => exact ⟨c, hs.1, hs.2.1, cs, by simp, hs.2.2, rfl⟩

omit [LinearOrder D] in
theorem unitsOf_spec {units : Option Int64} {legs : List LegDef} {cs : List (Fin n)} {u : Int64}
    (h : w.unitsOf units legs cs = some u) (v : Int) :
    v ≤ u.toInt ↔ (∀ u₀ ∈ units, v ≤ u₀.toInt) ∧
      ∀ x ∈ cs.zip legs, v ≤ (fits (w.book.qtyOf x.1) x.2.quantity).toInt := by
  induction legs generalizing units cs with
  | nil =>
      simp only [unitsOf] at h
      simp [h]
  | cons leg legs ih =>
      cases cs with
      | nil =>
          simp only [unitsOf] at h
          simp [h]
      | cons c cs =>
          rw [unitsOf] at h
          rw [ih h]
          simp only [Option.mem_some_iff, forall_eq', le_narrow, List.zip_cons_cons, List.forall_mem_cons]
          exact and_assoc

omit [LinearOrder D] in
theorem unitsOf_eq_none {units : Option Int64} {legs : List LegDef} {cs : List (Fin n)}
    (h : w.unitsOf units legs cs = none) : units = none ∧ cs.zip legs = [] := by
  induction legs generalizing units cs with
  | nil => exact ⟨by simpa [unitsOf] using h, by simp⟩
  | cons leg legs ih =>
      cases cs with
      | nil => exact ⟨by simpa [unitsOf] using h, by simp⟩
      | cons c cs => cases (ih h).1

/-- A walk takes the steps a definition allows onto contracts that hold at least one unit. -/
theorem seats_iff (hheld : ∀ c, c ∈ w.held ↔ (w.book.qtyOf c).toInt ≠ 0) (hs : w.book.Sized)
    {chosen cs : List (Fin n)} {legs : List LegDef} :
    w.Seats chosen legs cs ↔ Seated w.ctx chosen legs cs ∧
      ∀ x ∈ cs.zip legs, Part (x.2.quantity.toInt * 1) (w.book.qtyOf x.1).toInt := by
  induction legs generalizing chosen cs with
  | nil =>
      cases cs with
      | nil => simp [Seats, Seated]
      | cons c cs => simp [Seats, Seated]
  | cons leg legs ih =>
      cases cs with
      | nil => simp [Seats, Seated]
      | cons c cs =>
          have hstep : (c ∈ w.held ∧ w.suits chosen leg c = true) ↔
              (c ∉ chosen ∧ (w.ctx c).right = leg.right ∧
                (∀ p ∈ leg.predicates, ∀ f ∈ chosen.head?, p.holds (w.ctx f) (w.ctx c) = true)) ∧
                Part (leg.quantity.toInt * 1) (w.book.qtyOf c).toInt := by
            have hfit : (fits (w.book.qtyOf c) leg.quantity).toInt ≠ 0 ↔
                1 ≤ (fits (w.book.qtyOf c) leg.quantity).toInt := by
              rw [fits_toInt (hs c)]
              generalize (w.book.qtyOf c).toInt.natAbs / leg.quantity.toInt.natAbs = k
              omega
            have hpart := part_mul_iff (hs c) leg.quantity_ne one_pos
            have hzero : 1 ≤ (fits (w.book.qtyOf c) leg.quantity).toInt → (w.book.qtyOf c).toInt ≠ 0 := by
              intro h hzero
              rw [fits_toInt (hs c), hzero] at h
              simp at h
            simp only [suits, hheld, hpart, Bool.and_eq_true, Bool.not_eq_true', List.contains_eq_mem,
              decide_eq_false_iff_not, decide_eq_true_eq, beq_iff_eq, decide_eq_decide, List.all_eq_true,
              Option.all_eq_true, hfit, ne_eq]
            tauto
          simp only [Seats, Seated, List.zip_cons_cons, List.forall_mem_cons, ← and_assoc, hstep, ih]
          tauto

/-! ## Emissions -/

theorem emit_ok {acc r : Bool × List (Matched n)} {e : List (Fin n) × Option Int64}
    (h : w.emit acc e = .ok r) :
    acc.1 = true ∧ r = acc ∨
      acc.1 = false ∧ (∀ u, e.2 = some u → u.toInt = 0) ∧ r = (false, acc.2) ∨
      acc.1 = false ∧ ∃ u m, e.2 = some u ∧ u.toInt ≠ 0 ∧ w.found e.1 u = .ok m ∧
        r = (w.limit.any (· ≤ (acc.2 ++ [m]).length), acc.2 ++ [m]) := by
  rw [emit] at h
  split at h
  · next hstop =>
      cases h
      exact Or.inl ⟨hstop, rfl⟩
  · next hstop =>
      have hstop : acc.1 = false := by simpa using hstop
      rw [extend] at h
      split at h
      · next u hu =>
          obtain ⟨hu, hne⟩ := Option.filter_eq_some_iff.mp hu
          obtain ⟨m, hm, h⟩ := bind_eq_ok.mp h
          cases h
          exact Or.inr (Or.inr ⟨hstop, u, m, hu, by simpa using hne, hm, rfl⟩)
      · next hu =>
          cases h
          refine Or.inr (Or.inl ⟨hstop, ?_, rfl⟩)
          intro u he
          simpa [he] using hu

theorem mem_emitted {l : List (List (Fin n) × Option Int64)} {acc r : Bool × List (Matched n)}
    (h : l.foldlM w.emit acc = .ok r) :
    (∀ m ∈ acc.2, m ∈ r.2) ∧ (∀ m ∈ r.2, m ∈ acc.2 ∨
      ∃ cs u, (cs, some u) ∈ l ∧ u.toInt ≠ 0 ∧ w.found cs u = .ok m) := by
  induction l generalizing acc with
  | nil =>
      cases h
      exact ⟨fun m hm => hm, fun m hm => Or.inl hm⟩
  | cons e l ih =>
      obtain ⟨mid, hmid, h⟩ := bind_eq_ok.mp h
      obtain ⟨hkeep, hnew⟩ := ih h
      have hlater : ∀ m, (∃ cs u, (cs, some u) ∈ l ∧ u.toInt ≠ 0 ∧ w.found cs u = .ok m) →
          ∃ cs u, (cs, some u) ∈ e :: l ∧ u.toInt ≠ 0 ∧ w.found cs u = .ok m := by
        rintro m ⟨cs, u, hl, hu, hm⟩
        exact ⟨cs, u, List.mem_cons_of_mem _ hl, hu, hm⟩
      rcases emit_ok hmid with ⟨_, rfl⟩ | ⟨_, _, rfl⟩ | ⟨_, u, m, hu, hne, hm, rfl⟩
      · exact ⟨hkeep, fun m hm => (hnew m hm).imp_right (hlater m)⟩
      · exact ⟨hkeep, fun m hm => (hnew m hm).imp_right (hlater m)⟩
      · constructor
        · exact fun x hx => hkeep x (List.mem_append_left _ hx)
        · intro x hx
          rcases hnew x hx with hx | hx
          · rcases List.mem_append.mp hx with hx | hx
            · exact Or.inl hx
            · rw [List.mem_singleton.mp hx]
              exact Or.inr ⟨e.1, u, by simp [← hu], hne, hm⟩
          · exact Or.inr (hlater x hx)

/-- A walk that was not stopped has emitted every arrival; one that was has emitted something. -/
theorem emitted_all {l : List (List (Fin n) × Option Int64)} {acc r : Bool × List (Matched n)}
    (h : l.foldlM w.emit acc = .ok r) (hacc : acc.1 = false) (hr : w.limit = none ∨ r.2 = []) :
    ∀ cs u, (cs, some u) ∈ l → u.toInt ≠ 0 → ∃ m ∈ r.2, w.found cs u = .ok m := by
  induction l generalizing acc with
  | nil => simp
  | cons e l ih =>
      obtain ⟨mid, hmid, h⟩ := bind_eq_ok.mp h
      intro cs u hmem hne
      rcases emit_ok hmid with ⟨hstop, _⟩ | ⟨_, hzero, rfl⟩ | ⟨_, u', m, hu, hne', hm, rfl⟩
      · rw [hacc] at hstop
        cases hstop
      · rcases List.mem_cons.mp hmem with rfl | hmem
        · exact absurd (hzero u rfl) hne
        · exact ih h rfl cs u hmem hne
      · have hkept := (mem_emitted h).1 m (by simp)
        rcases hr with hlim | hr
        · rcases List.mem_cons.mp hmem with rfl | hmem
          · cases hu
            exact ⟨m, hkept, hm⟩
          · exact ih h (by simp [hlim]) cs u hmem hne
        · rw [hr] at hkept
          cases hkept

theorem emits {l : List (List (Fin n) × Option Int64)} {acc : Bool × List (Matched n)}
    (h : ∀ cs u, (cs, some u) ∈ l → u.toInt ≠ 0 → ∃ m, w.found cs u = .ok m) :
    ∃ r, l.foldlM w.emit acc = .ok r := by
  induction l generalizing acc with
  | nil => exact ⟨acc, rfl⟩
  | cons e l ih =>
      have hstep : ∃ mid, w.emit acc e = .ok mid := by
        rw [emit]
        split
        · exact ⟨acc, rfl⟩
        · rw [extend]
          split
          · next u hu =>
              obtain ⟨hu, hne⟩ := Option.filter_eq_some_iff.mp hu
              obtain ⟨m, hm⟩ := h e.1 u (by simp [← hu]) (by simpa using hne)
              exact ⟨_, by rw [hm]; rfl⟩
          · exact ⟨_, rfl⟩
      obtain ⟨mid, hmid⟩ := hstep
      obtain ⟨r, hr⟩ := @ih mid fun cs u hl => h cs u (List.mem_cons_of_mem _ hl)
      exact ⟨r, bind_eq_ok.mpr ⟨mid, hmid, hr⟩⟩

/-! ## The match itself -/

theorem found_instance {cs : List (Fin n)} {u : Int64} {m : Matched n} (hpos : 0 < u.toInt)
    (hseat : Seated w.ctx [] w.defn.legs cs) (h : w.found cs u = .ok m) :
    Instance w.ctx w.defn cs u.toInt m := by
  simp only [found, bind_eq_ok, pure_eq_ok, checked_ok] at h
  obtain ⟨legs, hlegs, lots, hlots, rfl⟩ := h
  refine ⟨hpos, hseat, rfl, rfl, ?_, hlots⟩
  have hall := mapM_ok hlegs
  revert hall
  generalize cs.zip w.defn.legs = seats
  intro hall
  clear hlegs
  induction hall with
  | nil => rfl
  | cons hx _ ih =>
      simp only [bind_eq_ok, pure_eq_ok, checked_ok] at hx
      obtain ⟨q, hq, rfl⟩ := hx
      simp [hq, ih]

omit [LinearOrder D] in
theorem found_exists {cs : List (Fin n)} {lots u : Int64} (hs : w.book.Sized)
    (hroom : Room w.defn cs w.book lots u.toInt) : ∃ m, w.found cs u = .ok m := by
  have hlegs : ∀ x ∈ cs.zip w.defn.legs, ∃ leg : Fin n × Int64,
      (do pure (x.1, ← checked (x.2.quantity.toInt * u.toInt)) : Result _) = .ok leg := by
    intro x hx
    have := (w.book.qtyOf x.1).toInt_lt
    have := hs x.1
    have hpart := hroom.1 x hx
    unfold Part at hpart
    obtain ⟨q, hq⟩ := checked_of_bounds (k := x.2.quantity.toInt * u.toInt) (by omega) (by omega)
    exact ⟨(x.1, q), bind_eq_ok.mpr ⟨q, hq, rfl⟩⟩
  obtain ⟨legs, hlegs⟩ := mapM_ok_of hlegs
  have := lots.le_toInt
  have := lots.toInt_lt
  have hpart := hroom.2
  unfold Part at hpart
  obtain ⟨l, hl⟩ := checked_of_bounds (k := w.defn.underlyingLots.toInt * u.toInt) (by omega) (by omega)
  refine ⟨⟨w.defn.name, u, legs, l⟩, ?_⟩
  simp only [found, bind_eq_ok, pure_eq_ok]
  exact ⟨legs, hlegs, l, hl, rfl⟩

end Walk

theorem Instance.unique {ctx : Fin n → Contract D} {d : StratDef} {cs : List (Fin n)} {units : Int}
    {m m' : Matched n} (h : Instance ctx d cs units m) (h' : Instance ctx d cs units m') : m = m' := by
  have hinj : Function.Injective fun l : Fin n × Int64 => (l.1, l.2.toInt) := by
    intro a b hab
    simp only [Prod.mk.injEq, Int64.toInt_inj] at hab
    exact Prod.ext hab.1 hab.2
  have hlegs : m.legs = m'.legs := hinj.list_map (h.legs.trans h'.legs.symm)
  have hquantity : m.quantity = m'.quantity := Int64.toInt_inj.mp (h.quantity.trans h'.quantity.symm)
  have hlots : m.underlyingLots = m'.underlyingLots :=
    Int64.toInt_inj.mp (h.underlyingLots.trans h'.underlyingLots.symm)
  obtain ⟨name, quantity, legs, lots⟩ := m
  obtain ⟨name', quantity', legs', lots'⟩ := m'
  cases hlegs
  cases hquantity
  cases hlots
  cases h.name.trans h'.name.symm
  rfl

/-! ## Room -/

section
variable {ctx : Fin n → Contract D} {d : StratDef} {b : Book n} {lots : Int64} {cs : List (Fin n)}

theorem room_iff (hs : b.Sized) (hl : -2 ^ 63 < lots.toInt) {v : Int} (hv : 0 < v)
    (hone : ∀ x ∈ cs.zip d.legs, Part (x.2.quantity.toInt * 1) (b.qtyOf x.1).toInt) :
    Room d cs b lots v ↔ (∀ x ∈ cs.zip d.legs, v ≤ (fits (b.qtyOf x.1) x.2.quantity).toInt) ∧
      (d.underlyingLots.toInt ≠ 0 →
        (0 < lots.toInt ↔ 0 < d.underlyingLots.toInt) ∧ v ≤ (fits lots d.underlyingLots).toInt) := by
  have hlegs : (∀ x ∈ cs.zip d.legs, Part (x.2.quantity.toInt * v) (b.qtyOf x.1).toInt) ↔
      ∀ x ∈ cs.zip d.legs, v ≤ (fits (b.qtyOf x.1) x.2.quantity).toInt := by
    refine forall₂_congr fun x hx => ?_
    rw [part_mul_iff (hs x.1) x.2.quantity_ne hv]
    have hside := ((part_mul_iff (hs x.1) x.2.quantity_ne one_pos).mp (hone x hx)).1
    exact and_iff_right hside
  have hlots : Part (d.underlyingLots.toInt * v) lots.toInt ↔ (d.underlyingLots.toInt ≠ 0 →
      (0 < lots.toInt ↔ 0 < d.underlyingLots.toInt) ∧ v ≤ (fits lots d.underlyingLots).toInt) := by
    by_cases hd : d.underlyingLots.toInt = 0
    · simp [hd, Part.zero]
    · rw [part_mul_iff hl hd hv]
      simp [hd]
  rw [Room, hlegs, hlots]

theorem Room.one {units : Int} (hu : 0 < units) (h : Room d cs b lots units) : Room d cs b lots 1 := by
  have hpart : ∀ {k w : Int}, Part (k * units) w → Part (k * 1) w := by
    intro k w h
    rw [mul_one]
    exact h.of_mul hu
  exact ⟨fun x hx => hpart (h.1 x hx), hpart h.2⟩

/-- What stands on the legs is held, so a book too small for the definition has no room for it. -/
theorem Room.legCount {units : Int} (hu : 0 < units) (hseat : Seated ctx [] d.legs cs)
    (h : Room d cs b lots units) :
    d.legCount ≤ (b.held ctx).length + if lots.toInt ≠ 0 then 1 else 0 := by
  have hone := h.one hu
  have hsub : cs ⊆ b.held ctx := by
    intro c hc
    rw [Book.mem_held]
    obtain ⟨i, hi, rfl⟩ := List.getElem_of_mem hc
    have hleg : i < d.legs.length := hseat.length ▸ hi
    have hpart := hone.1 (cs[i], d.legs[i]) (List.mem_iff_getElem.mpr ⟨i, by simp [hi, hleg], by simp⟩)
    intro hzero
    rw [hzero] at hpart
    exact d.legs[i].quantity_ne (by simpa using hpart.eq_zero)
  have hlen : d.legs.length ≤ (b.held ctx).length := by
    rw [← hseat.length]
    exact (hseat.nodup.1.subperm hsub).length_le
  have hlots : d.underlyingLots.toInt ≠ 0 → lots.toInt ≠ 0 := by
    intro hd hzero
    have hpart := hone.2
    rw [hzero] at hpart
    exact hd (by simpa using hpart.eq_zero)
  unfold StratDef.legCount
  split
  · next hd =>
      rw [if_pos (hlots hd)]
      omega
  · omega

/-- The units a walk starts with. -/
def startUnits (d : StratDef) (lots : Int64) : Option Int64 :=
  if d.underlyingLots.toInt ≠ 0 then some (fits lots d.underlyingLots) else none

theorem lotsFit_iff (hl : -2 ^ 63 < lots.toInt) :
    d.lotsFit lots = true ↔ (d.underlyingLots.toInt ≠ 0 →
      (0 < lots.toInt ↔ 0 < d.underlyingLots.toInt) ∧ 1 ≤ (fits lots d.underlyingLots).toInt) := by
  by_cases hd : d.underlyingLots.toInt = 0
  · simp [StratDef.lotsFit, hd]
  · have hpos : 0 < d.underlyingLots.toInt.natAbs := Int.natAbs_pos.mpr hd
    have hone : 1 ≤ (fits lots d.underlyingLots).toInt ↔
        d.underlyingLots.toInt.natAbs ≤ lots.toInt.natAbs := by
      rw [fits_toInt hl, ← Nat.cast_one, Nat.cast_le, Nat.le_div_iff_mul_le hpos, one_mul]
    simp [StratDef.lotsFit, hd, hone]

/-- The arrivals of a walk over the whole definition are the ways it stands on the book with the most
units there is room for. -/
theorem mem_ends_iff (hs : b.Sized) (hl : -2 ^ 63 < lots.toInt) (hfit : d.lotsFit lots = true)
    {limit : Option Nat} {units : Int} (hu : 0 < units) :
    (∃ u : Int64, u.toInt = units ∧
        (cs, some u) ∈ Walk.ends ⟨d, ctx, b, b.held ctx, limit⟩ d.legs [] (startUnits d lots)) ↔
      Seated ctx [] d.legs cs ∧ Full d cs b lots units := by
  set w : Walk n D := ⟨d, ctx, b, b.held ctx, limit⟩
  have hseats : w.Seats [] d.legs cs ↔ Seated ctx [] d.legs cs ∧
      ∀ x ∈ cs.zip d.legs, Part (x.2.quantity.toInt * 1) (b.qtyOf x.1).toInt :=
    Walk.seats_iff (w := w) (fun c => Book.mem_held) hs
  have hfit := (lotsFit_iff hl).mp hfit
  -- below the walk's units there is room, above them there is none
  have hroom : ∀ u : Int64, w.unitsOf (startUnits d lots) d.legs cs = some u →
      (∀ x ∈ cs.zip d.legs, Part (x.2.quantity.toInt * 1) (b.qtyOf x.1).toInt) →
      ∀ v : Int, 0 < v → (v ≤ u.toInt ↔ Room d cs b lots v) := by
    intro u hunits hone v hv
    rw [Walk.unitsOf_spec hunits, room_iff hs hl hv hone, and_comm]
    refine and_congr Iff.rfl ?_
    unfold startUnits
    split
    · next hd => simpa [hd] using fun _ => (hfit hd).1
    · next hd => simp [hd]
  constructor
  · rintro ⟨u, rfl, hmem⟩
    obtain ⟨cs', hcs, hseat, hunits⟩ := Walk.mem_ends.mp hmem
    rw [List.nil_append] at hcs
    subst hcs
    obtain ⟨hseated, hone⟩ := hseats.mp hseat
    have hroom := hroom u hunits.symm hone
    refine ⟨hseated, (hroom _ hu).mp le_rfl, fun hmore => ?_⟩
    have := (hroom (u.toInt + 1) (by omega)).mpr hmore
    omega
  · rintro ⟨hseated, hfull⟩
    have hone := (hfull.1.one hu).1
    have hseat : w.Seats [] d.legs cs := hseats.mpr ⟨hseated, hone⟩
    cases hunits : w.unitsOf (startUnits d lots) d.legs cs with
    | none =>
        -- nothing bounds the units, so there is always room for one more
        obtain ⟨hstart, hzip⟩ := Walk.unitsOf_eq_none hunits
        refine absurd ⟨by simp [hzip], ?_⟩ hfull.2
        have hd : d.underlyingLots.toInt = 0 := by
          by_contra hd
          simp [startUnits, hd] at hstart
        simp [hd, Part.zero]
    | some u =>
        have hroom := hroom u hunits hone
        have hle := (hroom units hu).mpr hfull.1
        have hlt : ¬ units + 1 ≤ u.toInt := fun h => hfull.2 ((hroom _ (by omega)).mp h)
        exact ⟨u, by omega, Walk.mem_ends.mpr ⟨cs, by simp, hseat, hunits.symm⟩⟩

/-- Arrivals carry units, and at least one. -/
theorem ends_pos (hs : b.Sized) (hl : -2 ^ 63 < lots.toInt) (hfit : d.lotsFit lots = true)
    {limit : Option Nat} {u : Int64}
    (h : (cs, some u) ∈ Walk.ends ⟨d, ctx, b, b.held ctx, limit⟩ d.legs [] (startUnits d lots)) :
    0 < u.toInt := by
  obtain ⟨cs', hcs, hseat, hunits⟩ := Walk.mem_ends.mp h
  rw [List.nil_append] at hcs
  subst hcs
  have hone := ((Walk.seats_iff (w := ⟨d, ctx, b, b.held ctx, limit⟩) (fun c => Book.mem_held) hs).mp hseat).2
  refine (Walk.unitsOf_spec hunits.symm 1).mpr ⟨?_, ?_⟩
  · intro u₀ hu₀
    unfold startUnits at hu₀
    split at hu₀
    · next hd =>
        cases hu₀
        exact ((lotsFit_iff hl).mp hfit hd).2
    · cases hu₀
  · intro x hx
    exact ((part_mul_iff (hs x.1) x.2.quantity_ne one_pos).mp (hone x hx)).2

/-- Either a size check ends the matching at once, or the walk is run. -/
theorem matchesOf_cases (d : StratDef) (ctx : Fin n → Contract D) (b : Book n) (lots : Int64)
    (limit : Option Nat) :
    matchesOf d ctx b lots limit = .ok [] ∧
        ((b.held ctx).length + (if lots.toInt ≠ 0 then 1 else 0) < d.legCount ∨ d.lotsFit lots ≠ true) ∨
      d.lotsFit lots = true ∧ matchesOf d ctx b lots limit = (do
        let r ← (Walk.ends ⟨d, ctx, b, b.held ctx, limit⟩ d.legs [] (startUnits d lots)).foldlM
          (Walk.emit ⟨d, ctx, b, b.held ctx, limit⟩) (false, [])
        pure r.2) := by
  rw [← Walk.extend_eq]
  by_cases hsmall : (b.held ctx).length + (if lots.toInt ≠ 0 then 1 else 0) < d.legCount
  · exact Or.inl ⟨if_pos hsmall, Or.inl hsmall⟩
  · by_cases hfit : d.lotsFit lots = true
    · refine Or.inr ⟨hfit, (if_neg hsmall).trans ?_⟩
      rw [if_neg (by simp [hfit])]
      rfl
    · exact Or.inl ⟨(if_neg hsmall).trans (if_pos (by simpa using hfit)), Or.inr hfit⟩

theorem matchesOf_sound (hs : b.Sized) (hl : -2 ^ 63 < lots.toInt) {limit : Option Nat}
    {ms : List (Matched n)} (h : matchesOf d ctx b lots limit = .ok ms) :
    ∀ m ∈ ms, ∃ cs units, Instance ctx d cs units m ∧ Full d cs b lots units := by
  rcases matchesOf_cases d ctx b lots limit with ⟨he, _⟩ | ⟨hfit, he⟩
  · rw [he] at h
    cases h
    simp
  · rw [he] at h
    obtain ⟨r, hr, h⟩ := bind_eq_ok.mp h
    cases h
    intro m hm
    rcases (Walk.mem_emitted hr).2 m hm with hnil | ⟨cs, u, hend, hne, hfound⟩
    · cases hnil
    · have hpos := ends_pos hs hl hfit hend
      obtain ⟨hseat, hfull⟩ := (mem_ends_iff hs hl hfit hpos).mp ⟨u, rfl, hend⟩
      exact ⟨cs, u.toInt, Walk.found_instance hpos hseat hfound, hfull⟩

theorem matchesOf_complete (hs : b.Sized) (hl : -2 ^ 63 < lots.toInt) {limit : Option Nat}
    {ms : List (Matched n)} (h : matchesOf d ctx b lots limit = .ok ms) (hall : limit = none ∨ ms = [])
    {units : Int} (hu : 0 < units) (hseat : Seated ctx [] d.legs cs) (hfull : Full d cs b lots units) :
    ∃ m ∈ ms, Instance ctx d cs units m := by
  have hone := hfull.1.one hu
  rcases matchesOf_cases d ctx b lots limit with ⟨_, hsmall | hfit⟩ | ⟨hfit, he⟩
  · have := hfull.1.legCount hu hseat
    omega
  · exact absurd ((lotsFit_iff hl).mpr ((room_iff hs hl one_pos hone.1).mp hone).2) hfit
  · rw [he] at h
    obtain ⟨r, hr, h⟩ := bind_eq_ok.mp h
    cases h
    obtain ⟨u, rfl, hend⟩ := (mem_ends_iff hs hl hfit hu).mpr ⟨hseat, hfull⟩
    obtain ⟨m, hm, hfound⟩ := Walk.emitted_all hr rfl hall cs u hend hu.ne'
    exact ⟨m, hm, Walk.found_instance hu hseat hfound⟩

variable (d ctx) in
theorem matchesOf_ok (hs : b.Sized) (hl : -2 ^ 63 < lots.toInt) (limit : Option Nat) :
    ∃ ms, matchesOf d ctx b lots limit = .ok ms := by
  rcases matchesOf_cases d ctx b lots limit with ⟨he, _⟩ | ⟨hfit, he⟩
  · exact ⟨[], he⟩
  · have hfound : ∀ (cs : List (Fin n)) (u : Int64),
        (cs, some u) ∈ Walk.ends ⟨d, ctx, b, b.held ctx, limit⟩ d.legs [] (startUnits d lots) →
        u.toInt ≠ 0 → ∃ m, Walk.found ⟨d, ctx, b, b.held ctx, limit⟩ cs u = .ok m := by
      intro cs u hend _
      obtain ⟨_, hfull⟩ := (mem_ends_iff hs hl hfit (ends_pos hs hl hfit hend)).mp ⟨u, rfl, hend⟩
      exact Walk.found_exists hs hfull.1
    obtain ⟨r, hr⟩ := Walk.emits hfound
    rw [he]
    exact ⟨r.2, bind_eq_ok.mpr ⟨r, hr, rfl⟩⟩

end

end TradeEngine.Margin
