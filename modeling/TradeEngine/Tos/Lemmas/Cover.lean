import TradeEngine.Tos.Cover
import TradeEngine.Ledger.Lemmas.Keys
import TradeEngine.Ledger.Lemmas.Sized
import TradeEngine.Money.Rounds

/-!
# What is left uncovered

The call units of a book by underlying, the lots the shares reach, and how both move with what is held.
-/

namespace TradeEngine.Tos

open Lib

/-! ## Units -/

theorem covers_multiplier {long short : OptionContract} (h : covers long short = true) :
    long.multiplier = short.multiplier := by
  simp only [covers, Bool.and_eq_true, beq_iff_eq] at h
  exact h.1.1.2

theorem unitsOf_extend (side : Calls) (c : OptionContract) (units : ℤ) (u : String) :
    unitsOf (extend side c units) u = unitsOf side u ++ if c.underlying = u then List.replicate units.toNat c else [] := by
  unfold extend unitsOf
  split_ifs with hany heq heq
  · subst heq
    rw [List.find?_map]
    have hpred : ((fun x : String × List OptionContract => x.1 == c.underlying) ∘ fun e =>
        if e.1 = c.underlying then (e.1, e.2 ++ List.replicate units.toNat c) else e) = fun x => x.1 == c.underlying := by
      funext e
      simp only [Function.comp_apply]
      split_ifs <;> rfl
    rw [hpred]
    obtain ⟨e, he, hkey⟩ := List.any_eq_true.1 hany
    have hsome : (side.find? fun x => x.1 == c.underlying).isSome := List.find?_isSome.2 ⟨e, he, hkey⟩
    obtain ⟨x, hx⟩ := Option.isSome_iff_exists.1 hsome
    have hxkey : x.1 = c.underlying := by simpa using List.find?_some hx
    simp [hx, hxkey]
  · rw [List.find?_map]
    have hpred : ((fun x : String × List OptionContract => x.1 == u) ∘ fun e =>
        if e.1 = c.underlying then (e.1, e.2 ++ List.replicate units.toNat c) else e) = fun x => x.1 == u := by
      funext e
      simp only [Function.comp_apply]
      split_ifs <;> rfl
    rw [hpred]
    cases hx : side.find? (fun x => x.1 == u) with
    | none => simp
    | some x =>
      have hxkey : x.1 = u := by simpa using List.find?_some hx
      have hne : x.1 ≠ c.underlying := fun h => heq (h.symm.trans hxkey)
      simp [hne]
  · subst heq
    have hnone : side.find? (fun x => x.1 == c.underlying) = none := by
      rw [List.find?_eq_none]
      intro x hx hkey
      exact hany (List.any_eq_true.2 ⟨x, hx, hkey⟩)
    simp [List.find?_append, hnone]
  · rw [List.find?_append]
    cases hx : side.find? (fun x => x.1 == u) with
    | none => simp [heq]
    | some x => simp

theorem keys_extend (side : Calls) (c : OptionContract) (units : ℤ) :
    (extend side c units).map (·.1) =
      if c.underlying ∈ side.map (·.1) then side.map (·.1) else side.map (·.1) ++ [c.underlying] := by
  have hmem : c.underlying ∈ side.map (·.1) ↔ side.any (·.1 == c.underlying) = true := by
    simp [List.any_eq_true]
  unfold extend
  by_cases hany : side.any (·.1 == c.underlying) = true
  · rw [if_pos hany, if_pos (hmem.2 hany), List.map_map]
    apply List.map_congr_left
    intro e _
    simp only [Function.comp_apply]
    split_ifs <;> rfl
  · rw [if_neg hany, if_neg (mt hmem.1 hany)]
    simp

theorem nodup_extend {side : Calls} (h : (side.map (·.1)).Nodup) (c : OptionContract) (units : ℤ) :
    ((extend side c units).map (·.1)).Nodup := by
  rw [keys_extend]
  split_ifs with hmem
  · exact h
  · exact List.nodup_append.2 ⟨h, by simp, fun a ha b hb => by
      rw [List.mem_singleton.1 hb]
      exact fun heq => hmem (heq ▸ ha)⟩

/-- Whether a quantity is short, or whether it is long. -/
def onSide (short : Bool) (q : ℚ) : Bool := if short then decide (q < 0) else decide (0 < q)

/-- The call units of one holding on an underlying, when it is short or when it is long. -/
def callUnits (short : Bool) (u : String) (e : Contract × Money) : List OptionContract :=
  match e.1 with
  | .option c =>
    if c.right = .call ∧ c.underlying = u ∧ onSide short e.2.val = true then
      List.replicate (⌊|e.2.val|⌋.toNat) c
    else []
  | _ => []

/-- All the short call units, or all the long ones, a book holds on an underlying. -/
def bookUnits (short : Bool) (held : Book) (u : String) : List OptionContract :=
  held.entries.flatMap (callUnits short u)

variable {D : RustDecimal}

/-- What a whole result `x` comes out as: itself up to 28 digits, and beyond them a whole number as long. -/
structure Keeps (x r : ℚ) : Prop where
  whole : Whole r
  exact : |x| < 10 ^ 28 → r = x
  large : 10 ^ 28 ≤ |x| → 10 ^ 28 ≤ |r|
  nonneg : 0 ≤ r ↔ 0 ≤ x

theorem Whole.abs_lt {x : ℚ} {k : ℤ} (h : x = k) : |x| < 10 ^ 28 ↔ k.natAbs < 10 ^ prec := by
  rw [h, ← Int.cast_abs, Int.abs_eq_natAbs, Int.cast_natCast]
  exact_mod_cast Iff.rfl

theorem Keeps.of_rounds {x : ℚ} {res : DecResult Money} {r : Money} (hx : Whole x) (h : Money.Rounds x res)
    (hr : res = .ok r) : Keeps x r.val := by
  obtain ⟨k, rfl⟩ := hx
  obtain ⟨m, hm, hsmall, hlarge, hsign⟩ := Money.rounded_whole k
  have hval : r.val = m := ((h.ok r).1 hr).1.trans hm
  constructor
  · exact ⟨m, hval⟩
  · intro hlt
    rw [hval, hsmall ((Whole.abs_lt rfl).1 hlt)]
  · intro hle
    rw [← not_lt] at hle ⊢
    rw [hval, Whole.abs_lt rfl]
    rw [Whole.abs_lt rfl] at hle
    exact not_lt.2 (hlarge (not_lt.1 hle))
  · rw [hval]
    exact_mod_cast hsign

theorem Keeps.sub {a b r : Money} (ha : Whole a.val) (hb : Whole b.val) (h : Ops.sub (.code D) a b = .ok r) :
    Keeps (a.val - b.val) r.val :=
  .of_rounds (ha.sub hb) (Money.sub_spec a b) (by simpa [Ops.sub, Arith.code] using h)

theorem Keeps.add {a b r : Money} (ha : Whole a.val) (hb : Whole b.val) (h : Ops.add (.code D) a b = .ok r) :
    Keeps (a.val + b.val) r.val :=
  .of_rounds (ha.add hb) (Money.add_spec a b) (by simpa [Ops.add, Arith.code] using h)

theorem abs_rounds {q : Money} (hq : Whole q.val) : Money.Rounds |q.val| (Money.abs q) := by
  obtain ⟨k, hk⟩ := hq
  obtain ⟨hexp, hcoef, -⟩ := Money.whole_parts hk
  have hspec := Money.finishBig_spec false k.natAbs 0
  simp only [Bool.false_eq_true, if_false, one_mul, zpow_zero, mul_one] at hspec
  rw [Money.abs, hexp, hcoef, Money.finishU128_eq ((Money.natAbs_lt_limit hk).trans (by decide)), hk, ← Int.cast_abs,
    Int.abs_eq_natAbs, Int.cast_natCast]
  exact hspec

theorem whole_abs {x : ℚ} (h : Whole x) : Whole |x| := by
  obtain ⟨k, rfl⟩ := h
  exact ⟨|k|, (Int.cast_abs).symm⟩

theorem abs_ok {q : Money} (hq : Whole q.val) (hlt : |q.val| < 10 ^ 28) :
    ∃ r, Ops.abs (.code D) q = .ok r ∧ r.val = |q.val| := by
  obtain ⟨k, hk⟩ := whole_abs hq
  have hnat := (Whole.abs_lt hk).1 (by rwa [abs_abs])
  obtain ⟨r, -, hr⟩ := Money.fromI128_ok (k := k) (hnat.trans (by decide))
  obtain ⟨m, hm, hsmall, -⟩ := Money.rounded_whole k
  have hrounded : Money.rounded |q.val| = |q.val| := by rw [hk, hm, hsmall hnat]
  have hok := ((abs_rounds hq).ok r).2 ⟨by rw [hrounded, hr, hk], by rw [hrounded]; exact id⟩
  exact ⟨r, by simp [Ops.abs, Arith.code, hok, Except.mapError], by rw [hr, hk]⟩

/-- The magnitude of a whole amount, as long as it is a number of units a position may have. -/
theorem abs_units {q r : Money} {n : ℤ} (hq : Whole q.val) (hr : Ops.abs (.code D) q = .ok r) (hn : r.truncI128 = .ok n)
    (hle : n ≤ maxUnits) : (n : ℚ) = |q.val| := by
  have hkeeps := Keeps.of_rounds (whole_abs hq) (abs_rounds hq) (by simpa [Ops.abs, Arith.code] using hr)
  obtain ⟨m, hm⟩ := hkeeps.whole
  have hnm : n = m := by
    have htrunc := Money.truncI128_ok hm
    rw [hn] at htrunc
    exact Except.ok.inj htrunc
  rw [hnm, ← hm]
  by_cases hlt : |(|q.val|)| < 10 ^ 28
  · exact hkeeps.exact hlt
  · -- a magnitude beyond 28 digits is beyond the bound
    have hlarge := hkeeps.large (not_lt.1 hlt)
    have hpos : 0 ≤ r.val := hkeeps.nonneg.2 (abs_nonneg _)
    rw [abs_of_nonneg hpos, hm, ← hnm] at hlarge
    have hle' : (n : ℚ) ≤ 1000000 := by exact_mod_cast hle
    norm_num at hlarge
    linarith

theorem callUnits_other {short : Bool} {u : String} {e : Contract × Money} (h : ∀ c, e.1 ≠ .option c) :
    callUnits short u e = [] := by
  unfold callUnits
  split
  · rename_i c hc
    exact (h c hc).elim
  · rfl

theorem callUnits_of {short : Bool} {u : String} {c : OptionContract} {q : Money} {n : ℤ} (hright : c.right = .call)
    (hn : (n : ℚ) = |q.val|) (hside : onSide short q.val = true) :
    callUnits short u (.option c, q) = if c.underlying = u then List.replicate n.toNat c else [] := by
  simp [callUnits, hright, hside, ← hn]

theorem callUnits_far {short : Bool} {u : String} {c : OptionContract} {q : Money}
    (hside : onSide short q.val ≠ true) : callUnits short u (.option c, q) = [] := by
  simp only [callUnits]
  rw [if_neg fun h => hside h.2.2]

theorem callUnits_put {short : Bool} {u : String} {c : OptionContract} {q : Money} (hright : c.right ≠ .call) :
    callUnits short u (.option c, q) = [] := by
  simp only [callUnits]
  rw [if_neg fun h => hright h.1]

/-- What sorting the calls of a book by side has come to. -/
structure Sides (es : List (Contract × Money)) (sides : Calls × Calls) : Prop where
  shorts : ∀ u, unitsOf sides.1 u = es.flatMap (callUnits true u)
  longs : ∀ u, unitsOf sides.2 u = es.flatMap (callUnits false u)
  nodup : (sides.1.map (·.1)).Nodup
  bounded : ∀ c q, (.option c, q) ∈ es → c.right = .call → |q.val| ≤ 1000000

theorem sortCall_sides {es : List (Contract × Money)} {e : Contract × Money} {sides sides' : Calls × Calls}
    (h : Sides es sides) (hw : Whole e.2.val) (hs : sortCall (.code D) sides e = .ok sides') : Sides (es ++ [e]) sides' := by
  obtain ⟨c, q⟩ := e
  have hgrow : ∀ {short u}, (es ++ [(c, q)]).flatMap (callUnits short u) =
      es.flatMap (callUnits short u) ++ callUnits short u (c, q) := by
    intro short u
    simp
  have hbound : (∀ d, c = .option d → d.right = .call → |q.val| ≤ 1000000) → ∀ d p, (.option d, p) ∈ es ++ [(c, q)] →
      d.right = .call → |p.val| ≤ 1000000 := by
    intro hnew d p hmem hd
    rcases List.mem_append.1 hmem with hmem | hmem
    · exact h.bounded d p hmem hd
    · obtain ⟨rfl, rfl⟩ := Prod.mk.inj (List.mem_singleton.1 hmem)
      exact hnew d rfl hd
  have hsame : (∀ short u, callUnits short u (c, q) = []) → (∀ d, c = .option d → d.right = .call → |q.val| ≤ 1000000) →
      sides = sides' → Sides (es ++ [(c, q)]) sides' := by
    rintro hnil hnew rfl
    constructor
    · intro u
      rw [hgrow, hnil, List.append_nil, h.shorts]
    · intro u
      rw [hgrow, hnil, List.append_nil, h.longs]
    · exact h.nodup
    · exact hbound hnew
  cases c with
  | equity s =>
    exact hsame (fun short u => callUnits_other (by simp)) (by simp) (Except.ok.inj hs)
  | future f =>
    exact hsame (fun short u => callUnits_other (by simp)) (by simp) (Except.ok.inj hs)
  | option c =>
    simp only [sortCall] at hs
    split at hs
    · rename_i hcond
      rcases Bool.or_eq_true_iff.1 hcond with hright | hzero
      · have hput : c.right ≠ .call := by simpa using hright
        apply hsame (fun short u => callUnits_put hput) _ (Except.ok.inj hs)
        intro d hd hcall
        rw [Contract.option.inj hd] at hput
        exact absurd hcall hput
      · have hq : q.val = 0 := by simpa using hzero
        apply hsame _ (by simp [hq]) (Except.ok.inj hs)
        intro short u
        apply callUnits_far
        cases short <;> simp [onSide, hq]
    · rename_i hcond
      have hcall : c.right = .call ∧ q.val ≠ 0 := by
        simpa [not_or] using hcond
      simp only [bind_eq_ok, except_mapError_eq_ok] at hs
      obtain ⟨r, hr, n, hn, hs⟩ := hs
      split at hs
      · simp [wireErr] at hs
      · rename_i hle
        have hunits := abs_units hw hr hn (not_lt.1 hle)
        have hmost : |q.val| ≤ 1000000 := by
          rw [← hunits]
          exact_mod_cast not_lt.1 hle
        split at hs
        · rename_i hneg
          have hneg : q.val < 0 := by simpa using hneg
          obtain rfl := Except.ok.inj hs
          constructor
          · intro u
            rw [hgrow, unitsOf_extend, h.shorts, callUnits_of hcall.1 hunits (by simpa [onSide] using hneg)]
          · intro u
            rw [hgrow, h.longs, callUnits_far (by simpa [onSide] using hneg.le), List.append_nil]
          · exact nodup_extend h.nodup c n
          · exact hbound fun _ _ _ => hmost
        · rename_i hpos
          have hpos : 0 ≤ q.val := by simpa using hpos
          obtain rfl := Except.ok.inj hs
          constructor
          · intro u
            rw [hgrow, h.shorts, callUnits_far (by simpa [onSide] using hpos), List.append_nil]
          · intro u
            have hside : 0 < q.val := lt_of_le_of_ne hpos (Ne.symm hcall.2)
            rw [hgrow, unitsOf_extend, h.longs, callUnits_of hcall.1 hunits (by simpa [onSide] using hside)]
          · exact h.nodup
          · exact hbound fun _ _ _ => hmost

theorem sortCalls_sides {es done : List (Contract × Money)} {sides sides' : Calls × Calls} (h : Sides done sides)
    (hw : ∀ e ∈ es, Whole e.2.val) (hs : es.foldlM (sortCall (.code D)) sides = .ok sides') :
    Sides (done ++ es) sides' := by
  induction es generalizing done sides with
  | nil =>
    obtain rfl := Except.ok.inj hs
    simpa using h
  | cons e es ih =>
    simp only [List.foldlM_cons, bind_eq_ok] at hs
    obtain ⟨mid, hone, hs⟩ := hs
    have hstep := sortCall_sides h (hw e (by simp)) hone
    have hrest := ih hstep (fun e' he' => hw e' (by simp [he'])) hs
    rwa [List.append_assoc] at hrest

theorem Sides.nil : Sides [] ([], []) := by
  constructor
  · intro u
    rfl
  · intro u
    rfl
  · simp
  · simp

/-! ## The counts -/

theorem lookup_append (found : List (String × Money)) (k u : String) (v : Money) (hk : k ∉ found.map (·.1)) :
    lookup (found ++ [(k, v)]) u = if u = k then v else lookup found u := by
  unfold lookup
  rw [List.find?_append]
  by_cases hu : u = k
  · subst hu
    have hnone : found.find? (fun x => x.1 == u) = none := by
      rw [List.find?_eq_none]
      intro x hx hkey
      exact hk (List.mem_map.2 ⟨x, hx, by simpa using hkey⟩)
    simp [hnone]
  · rw [if_neg hu]
    have hku : (k == u) = false := by simpa using Ne.symm hu
    cases hx : found.find? (fun x => x.1 == u) with
    | none => simp [hku]
    | some x => simp

theorem lookup_absent {found : List (String × Money)} {u : String} (h : u ∉ found.map (·.1)) : lookup found u = .zero := by
  unfold lookup
  have hnone : found.find? (fun x => x.1 == u) = none := by
    rw [List.find?_eq_none]
    intro x hx hkey
    exact h (List.mem_map.2 ⟨x, hx, by simpa using hkey⟩)
  rw [hnone]
  rfl

theorem unitsOf_of_mem {side : Calls} (h : (side.map (·.1)).Nodup) {e : String × List OptionContract} (he : e ∈ side) :
    unitsOf side e.1 = e.2 := by
  have hsome : (side.find? fun x => x.1 == e.1).isSome := List.find?_isSome.2 ⟨e, he, by simp⟩
  obtain ⟨x, hx⟩ := Option.isSome_iff_exists.1 hsome
  have hkey : x.1 = e.1 := by simpa using List.find?_some hx
  rw [unitsOf, hx, List.inj_on_of_nodup_map h (List.mem_of_find?_eq_some hx) he hkey]
  rfl

theorem unitsOf_absent {side : Calls} {u : String} (h : u ∉ side.map (·.1)) : unitsOf side u = [] := by
  have hnone : side.find? (fun x => x.1 == u) = none := by
    rw [List.find?_eq_none]
    intro x hx hkey
    exact h (List.mem_map.2 ⟨x, hx, by simpa using hkey⟩)
  rw [unitsOf, hnone]
  rfl

/-- What counting the underlyings so far has found. -/
structure Counted (count : String × List OptionContract → R Int) (done : Calls) (found : List (String × Money)) : Prop where
  counts : ∀ e ∈ done, ∃ n, count e = .ok n ∧ (lookup found e.1).val = n
  keys : ∀ u ∈ found.map (·.1), u ∈ done.map (·.1)

theorem counted_step {count : String × List OptionContract → R Int} {done : Calls} {found found' : List (String × Money)}
    {e : String × List OptionContract} (h : Counted count done found) (hnew : e.1 ∉ done.map (·.1))
    (hs : (do
      let n ← count e
      if n = 0 then pure found else do pure (found ++ [(e.1, ← (Money.fromI128 n).mapError derr)])) = .ok found') :
    Counted count (done ++ [e]) found' := by
  have hfresh : e.1 ∉ found.map (·.1) := fun hmem => hnew (h.keys _ hmem)
  simp only [bind_eq_ok] at hs
  obtain ⟨n, hn, hs⟩ := hs
  split at hs
  · rename_i hzero
    obtain rfl := Except.ok.inj hs
    constructor
    · intro e' he'
      rcases List.mem_append.1 he' with he' | he'
      · exact h.counts e' he'
      · rw [List.mem_singleton.1 he', lookup_absent hfresh]
        exact ⟨n, hn, by simp [hzero]⟩
    · intro u hu
      simp [h.keys u hu]
  · simp only [bind_eq_ok, except_mapError_eq_ok, pure_eq_ok] at hs
    obtain ⟨v, hv, rfl⟩ := hs
    constructor
    · intro e' he'
      rcases List.mem_append.1 he' with he' | he'
      · have hne : e'.1 ≠ e.1 := fun heq => hnew (heq ▸ List.mem_map_of_mem he')
        rw [lookup_append _ _ _ _ hfresh, if_neg hne]
        exact h.counts e' he'
      · rw [List.mem_singleton.1 he', lookup_append _ _ _ _ hfresh, if_pos rfl]
        exact ⟨n, hn, Money.fromI128_val hv⟩
    · intro u hu
      simp only [List.map_append, List.mem_append, List.map_cons, List.map_nil, List.mem_singleton] at hu ⊢
      exact hu.imp (h.keys u) id

theorem counted_run {count : String × List OptionContract → R Int} {es done : Calls} {found found' : List (String × Money)}
    (h : Counted count done found) (hnodup : ((done ++ es).map (·.1)).Nodup)
    (hs : es.foldlM (fun found e => do
      let n ← count e
      if n = 0 then pure found else do pure (found ++ [(e.1, ← (Money.fromI128 n).mapError derr)])) found = .ok found') :
    Counted count (done ++ es) found' := by
  induction es generalizing done found with
  | nil =>
    obtain rfl := Except.ok.inj hs
    simpa using h
  | cons e es ih =>
    rw [List.foldlM_cons, bind_eq_ok] at hs
    obtain ⟨mid, hone, hs⟩ := hs
    have hnew : e.1 ∉ done.map (·.1) := by
      intro hmem
      rw [List.map_append, List.nodup_append] at hnodup
      exact hnodup.2.2 e.1 hmem e.1 (by simp) rfl
    have happend : done ++ e :: es = done ++ [e] ++ es := by simp
    rw [happend] at hnodup ⊢
    exact ih (counted_step h hnew hone) hnodup hs

theorem leftOver_nil (longs : List OptionContract) : leftOver longs [] = [] := by
  simp [leftOver]

/-- The count given for an underlying is what its shares leave of the calls no long call covers. -/
theorem uncovered_spec {held : Book} {found : List (String × Money)} (hw : ∀ e ∈ held.entries, Whole e.2.val)
    (h : uncovered (.code D) held = .ok found) (u : String) : ∃ n,
    handOut (.code D) (leftOver (bookUnits false held u) (bookUnits true held u)) (held.have (.equity u)) = .ok n ∧
      (lookup found u).val = n := by
  simp only [uncovered, bind_eq_ok] at h
  obtain ⟨⟨shorts, longs⟩, hsides, h⟩ := h
  have hsides := sortCalls_sides .nil hw hsides
  have hcounted : Counted (fun e => handOut (.code D) (leftOver (unitsOf longs e.1) e.2) (held.have (.equity e.1)))
      ([] ++ shorts) found := counted_run ⟨by simp, by simp⟩ (by simpa using hsides.nodup) h
  by_cases hu : u ∈ shorts.map (·.1)
  · obtain ⟨e, he, rfl⟩ := List.mem_map.1 hu
    obtain ⟨n, hn, hval⟩ := hcounted.counts e (by simpa using he)
    have hshort : e.2 = bookUnits true held e.1 := by
      rw [← unitsOf_of_mem hsides.nodup he]
      exact hsides.shorts e.1
    have hlong : unitsOf longs e.1 = bookUnits false held e.1 := hsides.longs e.1
    exact ⟨n, by rw [← hlong, ← hshort]; exact hn, hval⟩
  · have hshort : bookUnits true held u = [] := (hsides.shorts u).symm.trans (unitsOf_absent hu)
    rw [hshort, leftOver_nil]
    exact ⟨0, rfl, by
      rw [lookup_absent fun hmem => hu (by simpa using hcounted.keys u hmem)]
      simp⟩

/-! ## Fewer longs, more shorts -/

/-- How many units of one side a quantity of a contract is. -/
def unitsHeld (short : Bool) (c : OptionContract) (q : Money) : ℕ :=
  if c.right = .call ∧ onSide short q.val = true then ⌊|q.val|⌋.toNat else 0

theorem count_callUnits (short : Bool) (u : String) (c : OptionContract) (e : Contract × Money) :
    (callUnits short u e).count c =
      if e.1.hk = (Contract.option c).hk then (if c.underlying = u then unitsHeld short c e.2 else 0) else 0 := by
  obtain ⟨d, q⟩ := e
  by_cases hd : d = .option c
  · subst hd
    rw [if_pos rfl]
    simp only [callUnits, unitsHeld]
    split_ifs with hall hu hside hu hside
    · simp
    · exact absurd ⟨hall.1, hall.2.2⟩ hside
    · exact absurd hall.2.1 hu
    · exact absurd ⟨hside.1, hu, hside.2⟩ hall
    · simp
    · simp
  · rw [if_neg fun h => hd (Contract.hk_injective h)]
    unfold callUnits
    split
    · rename_i d' hd'
      have hne : d' ≠ c := fun h => hd (h ▸ hd')
      split_ifs
      · exact List.count_replicate.trans (if_neg (by simpa using hne))
      · rfl
    · rfl

theorem unitsHeld_zero (short : Bool) (c : OptionContract) : unitsHeld short c .zero = 0 := by
  simp [unitsHeld]

theorem count_bookUnits {held : Book} (h : Keyed held) (short : Bool) (u : String) (c : OptionContract) :
    (bookUnits short held u).count c = if c.underlying = u then unitsHeld short c (held.have (.option c)) else 0 := by
  have hcast : ((bookUnits short held u).count c : ℤ) =
      ((if c.underlying = u then unitsHeld short c (held.have (.option c)) else 0 : ℕ) : ℤ) := by
    rw [bookUnits, List.count_flatMap]
    have hitems : (held.entries.map (List.count c ∘ callUnits short u)).map (Nat.cast : ℕ → ℤ) =
        held.items.map fun e => if e.1 = (Contract.option c).hk then
          ((if c.underlying = u then unitsHeld short c e.2.2 else 0 : ℕ) : ℤ) else 0 := by
      rw [OMap.entries, List.map_map, List.map_map]
      apply List.map_congr_left
      intro e he
      simp only [Function.comp_apply, count_callUnits, h e he]
      split_ifs <;> rfl
    have hsum := OMap.sum_under_key
      (fun q => ((if c.underlying = u then unitsHeld short c q else 0 : ℕ) : ℤ)) held (Contract.option c).hk
    rw [← hitems] at hsum
    rw [← Nat.cast_list_sum] at hsum
    rw [hsum, Book.have]
    cases held.get (Contract.option c).hk with
    | none => simp [unitsHeld_zero]
    | some q => rfl
  exact_mod_cast hcast

theorem unitsHeld_mono {c : OptionContract} {p q : Money} (hle : c.right = .call → p.val ≤ q.val) :
    unitsHeld true c q ≤ unitsHeld true c p ∧ unitsHeld false c p ≤ unitsHeld false c q := by
  by_cases hright : c.right = .call
  case neg => simp [unitsHeld, hright]
  have h := hle hright
  simp only [unitsHeld, onSide, if_true, Bool.false_eq_true, if_false, decide_eq_true_eq]
  constructor
  · split_ifs with hq hp
    · apply Int.toNat_le_toNat
      apply Int.floor_le_floor
      rw [abs_of_neg hq.2, abs_of_neg hp.2]
      linarith
    · exact absurd ⟨hq.1, h.trans_lt hq.2⟩ hp
    · exact Nat.zero_le _
    · exact le_rfl
  · split_ifs with hp hq
    · apply Int.toNat_le_toNat
      apply Int.floor_le_floor
      rw [abs_of_pos hp.2, abs_of_pos hq.2]
      exact h
    · exact absurd ⟨hp.1, hp.2.trans_le h⟩ hq
    · exact Nat.zero_le _
    · exact le_rfl

/-- A book that holds no more of any call on an underlying has no fewer short units and no more long ones. -/
theorem bookUnits_subperm {held held' : Book} (h : Keyed held) (h' : Keyed held') {u : String}
    (hle : ∀ c : OptionContract, c.underlying = u → c.right = .call →
      (held'.have (.option c)).val ≤ (held.have (.option c)).val) :
    (bookUnits true held u).Subperm (bookUnits true held' u) ∧
      (bookUnits false held' u).Subperm (bookUnits false held u) := by
  constructor
  · rw [List.subperm_iff_count]
    intro c
    rw [count_bookUnits h, count_bookUnits h']
    split_ifs with hu
    · exact (unitsHeld_mono (hle c hu)).1
    · exact le_rfl
  · rw [List.subperm_iff_count]
    intro c
    rw [count_bookUnits h, count_bookUnits h']
    split_ifs with hu
    · exact (unitsHeld_mono (hle c hu)).2
    · exact le_rfl

/-! ## The lots left over -/

theorem leftOver_perm (longs calls : List OptionContract) : (leftOver longs calls).Perm (leftOf covers longs calls) :=
  List.perm_insertionSort _ _

theorem leftOver_sorted (longs calls : List OptionContract) : ((leftOver longs calls).map (·.multiplier)).SortedGE := by
  have hsorted : (leftOver longs calls).Pairwise fun a b => b.multiplier ≤ a.multiplier :=
    List.pairwise_insertionSort _ _
  exact (List.pairwise_map.2 hsorted).sortedGE

theorem count_multiplier (l : List OptionContract) (m : ℤ) :
    (l.map (·.multiplier)).count m = (l.map fun c => if c.multiplier = m then 1 else 0).sum := by
  induction l with
  | nil => rfl
  | cons c l ih =>
    rw [List.map_cons, List.count_cons, ih, List.map_cons, List.sum_cons, Nat.add_comm]
    simp

theorem leftOver_sublist {longs longs' calls calls' : List OptionContract} (hl : longs'.Subperm longs)
    (hc : calls.Subperm calls') :
    ((leftOver longs calls).map (·.multiplier)).Sublist ((leftOver longs' calls').map (·.multiplier)) := by
  apply List.sublist_of_subperm_of_sortedGE _ (leftOver_sorted _ _) (leftOver_sorted _ _)
  rw [List.subperm_iff_count]
  intro m
  rw [((leftOver_perm longs calls).map _).count_eq, ((leftOver_perm longs' calls').map _).count_eq, count_multiplier,
    count_multiplier]
  apply sum_leftOf_le hl hc
  intro x y y' hy hy'
  rw [← covers_multiplier hy, ← covers_multiplier hy']

/-! ## Handing out the shares -/

/-- How many lots, in order, a number of shares does not reach. -/
def shortLots (shares : ℚ) : List ℤ → ℕ
  | [] => 0
  | lot :: lots => if (lot : ℚ) ≤ shares then shortLots (shares - lot) lots else shortLots shares lots + 1

theorem handOut_eq {left : List OptionContract} {shares : Money} {n : ℤ} (hw : Whole shares.val)
    (hlt : shares.val < 10 ^ 28) (h : handOut (.code D) left shares = .ok n) :
    n = shortLots shares.val (left.map (·.multiplier)) := by
  induction left generalizing shares n with
  | nil =>
    obtain rfl := Except.ok.inj h
    rfl
  | cons call left ih =>
    simp only [handOut, bind_eq_ok, except_mapError_eq_ok] at h
    obtain ⟨lot, hlot, h⟩ := h
    have hval := Money.fromI128_val hlot
    have hpos : (0 : ℚ) < call.multiplier := by exact_mod_cast call.multiplier_pos
    simp only [List.map_cons, shortLots]
    split at h
    · rename_i hge
      have hge : (call.multiplier : ℚ) ≤ shares.val := by rw [← hval]; simpa using hge
      simp only [bind_eq_ok] at h
      obtain ⟨rest, hrest, h⟩ := h
      have hlotw : Whole lot.val := hval ▸ .cast call.multiplier
      have habs : |shares.val - lot.val| < 10 ^ 28 := by
        rw [hval, abs_of_nonneg (by linarith)]
        linarith
      obtain ⟨r, hr, hrval⟩ := Ops.sub_ok (D := D) hw hlotw habs
      have hexact := Ops.sub_refuses (Arith.exactButDiv_le _) _ _ _ hr
      rw [hrest] at hexact
      obtain rfl := Except.ok.inj hexact
      rw [if_pos hge, ← hval, ← hrval]
      exact ih (hrval ▸ hw.sub hlotw) (by rw [hrval, hval]; linarith) h
    · rename_i hge
      have hlt' : ¬ (call.multiplier : ℚ) ≤ shares.val := by rw [← hval]; simpa using hge
      simp only [bind_eq_ok, pure_eq_ok] at h
      obtain ⟨m, hm, rfl⟩ := h
      rw [if_neg hlt', ih hw hlt hm]
      push_cast
      ring

theorem shortLots_le_length (shares : ℚ) (lots : List ℤ) : shortLots shares lots ≤ lots.length := by
  induction lots generalizing shares with
  | nil => exact le_rfl
  | cons lot lots ih =>
    rw [shortLots]
    split_ifs
    · exact (ih _).trans (Nat.le_succ _)
    · exact Nat.succ_le_succ (ih _)

theorem shortLots_eq_length {shares : ℚ} {lots : List ℤ} (h : ∀ lot ∈ lots, shares < (lot : ℚ)) :
    shortLots shares lots = lots.length := by
  induction lots with
  | nil => rfl
  | cons lot lots ih =>
    rw [shortLots, if_neg (not_le.2 (h lot (by simp))), ih fun x hx => h x (by simp [hx])]
    rfl

/-- Every lot the shares reach is at most the next one and any later one together. -/
def Stepped (shares : ℚ) (lots : List ℤ) : Prop :=
  ∀ x y later, x :: y :: later <:+ lots → (x : ℚ) ≤ shares → ∀ z ∈ later, x ≤ y + z

namespace Stepped

variable {s t : ℚ} {x : ℤ} {lots : List ℤ}

theorem mono (h : Stepped t lots) (hst : s ≤ t) : Stepped s lots :=
  fun _ _ _ hsuf hle => h _ _ _ hsuf (hle.trans hst)

theorem tail (h : Stepped t (x :: lots)) : Stepped t lots :=
  fun _ _ _ hsuf => h _ _ _ (hsuf.trans (List.suffix_cons x lots))

theorem length_le (h : Stepped t (x :: lots)) (hsorted : (x :: lots).Pairwise (· ≥ ·)) (hx : (x : ℚ) ≤ t) (hs : s < x) :
    lots.length ≤ shortLots s lots + 1 := by
  induction lots generalizing x with
  | nil => simp
  | cons y lots ih =>
    rw [shortLots]
    split_ifs with hy
    · rw [shortLots_eq_length]
      · rfl
      · intro z hz
        have hxyz : (x : ℚ) ≤ y + z := by exact_mod_cast h x y lots (List.suffix_refl _) hx z hz
        linarith
    · have hyx : (y : ℚ) ≤ x := by exact_mod_cast List.rel_of_pairwise_cons hsorted (by simp : y ∈ y :: lots)
      exact Nat.succ_le_succ (ih h.tail hsorted.of_cons (hyx.trans hx) (not_le.1 hy))

end Stepped

theorem shortLots_zero_mono {s t : ℚ} {lots lots' : List ℤ} (hsub : lots.Sublist lots') (hst : s ≤ t)
    (hpos : ∀ x ∈ lots', 0 < x) (h : shortLots s lots' = 0) : shortLots t lots = 0 := by
  induction hsub generalizing s t with
  | slnil => rfl
  | @cons l l' x _ ih =>
    have hx : (0 : ℚ) < x := by exact_mod_cast hpos x (by simp)
    rw [shortLots] at h
    split_ifs at h
    exact ih (by linarith) (fun y hy => hpos y (by simp [hy])) h
  | @cons_cons l l' x _ ih =>
    rw [shortLots] at h ⊢
    split_ifs at h with hs
    rw [if_pos (hs.trans hst)]
    exact ih (by linarith) (fun y hy => hpos y (by simp [hy])) h

/-- Shares that reach every lot still do when there are more of them, however many digits those have. -/
theorem handOut_zero {left : List OptionContract} {shares : Money} {n : ℤ} {s : ℚ} (hw : Whole shares.val)
    (hs : s ≤ shares.val) (hlt : s < 10 ^ 28) (hzero : shortLots s (left.map (·.multiplier)) = 0)
    (h : handOut (.code D) left shares = .ok n) : n = 0 := by
  induction left generalizing shares s with
  | nil => exact (Except.ok.inj h).symm
  | cons call left ih =>
    simp only [handOut, bind_eq_ok, except_mapError_eq_ok] at h
    obtain ⟨lot, hlot, h⟩ := h
    have hval := Money.fromI128_val hlot
    have hpos : (0 : ℚ) < call.multiplier := by exact_mod_cast call.multiplier_pos
    simp only [List.map_cons, shortLots] at hzero
    split_ifs at hzero with hreach
    have hge : shares.ge lot = true := by
      rw [Money.ge_iff, hval]
      exact hreach.trans hs
    rw [if_pos hge] at h
    simp only [bind_eq_ok] at h
    obtain ⟨rest, hrest, h⟩ := h
    have hkeeps := Keeps.sub hw (hval ▸ .cast call.multiplier) hrest
    rw [hval] at hkeeps
    apply ih hkeeps.whole _ (by linarith) hzero h
    by_cases habs : |shares.val - call.multiplier| < 10 ^ 28
    · rw [hkeeps.exact habs]
      linarith
    · have hlarge := hkeeps.large (not_lt.1 habs)
      rw [abs_of_nonneg (hkeeps.nonneg.2 (by linarith))] at hlarge
      linarith

/-! ## The count of a book -/

/-- The lots on an underlying no long call covers, the larger first. -/
def lotsLeft (held : Book) (u : String) : List ℤ :=
  (leftOver (bookUnits false held u) (bookUnits true held u)).map (·.multiplier)

def WholeHeld (held : Book) : Prop := ∀ e ∈ held.entries, Whole e.2.val

theorem WholeHeld.have {held : Book} (h : WholeHeld held) (c : Contract) : Whole (held.have c).val := by
  unfold Book.have
  cases hget : held.get c.hk with
  | none => simpa using Whole.zero
  | some q =>
    obtain ⟨d, hmem⟩ := OMap.mem_of_get hget
    exact h (d, q) (List.mem_map_of_mem hmem)

theorem WholeHeld.insert {held : Book} (h : WholeHeld held) (c : Contract) {q : Money} (hq : Whole q.val) :
    WholeHeld (held.insert c.hk c q) := by
  intro e he
  obtain ⟨x, hx, rfl⟩ := List.mem_map.1 he
  rcases OMap.mem_insert hx with ⟨-, hval⟩ | ⟨hmem, -⟩
  · rw [hval]
    exact hq
  · exact h x.2 (List.mem_map_of_mem hmem)

theorem have_insert (held : Book) (c d : Contract) (q : Money) :
    Book.have (held.insert c.hk c q) d = if d = c then q else held.have d := by
  unfold Book.have
  rw [OMap.get_insert]
  by_cases hdc : d = c
  · rw [if_pos (by rw [hdc]), if_pos hdc]
    rfl
  · rw [if_neg fun h => hdc (Contract.hk_injective h), if_neg hdc]

theorem lotsLeft_pos (held : Book) (u : String) : ∀ x ∈ lotsLeft held u, 0 < x := by
  intro x hx
  obtain ⟨c, -, rfl⟩ := List.mem_map.1 hx
  exact c.multiplier_pos

theorem mem_bookUnits {short : Bool} {held : Book} {u : String} {c : OptionContract} (h : c ∈ bookUnits short held u) :
    ∃ q, (Contract.option c, q) ∈ held.entries ∧ c.right = .call ∧ c.underlying = u := by
  obtain ⟨⟨d, q⟩, he, hcd⟩ := List.mem_flatMap.1 h
  unfold callUnits at hcd
  split at hcd
  · rename_i c' hd
    split_ifs at hcd with hcond
    · obtain rfl := List.eq_of_mem_replicate hcd
      simp only at hd
      exact ⟨q, hd ▸ he, hcond.1, hcond.2.1⟩
    · cases hcd
  · cases hcd

theorem mem_of_mem_leftOver {longs calls : List OptionContract} {c : OptionContract} (h : c ∈ leftOver longs calls) :
    c ∈ calls := by
  obtain ⟨i, -, hi⟩ := List.mem_filterMap.1 ((leftOver_perm _ _).mem_iff.1 h)
  exact List.mem_of_getElem? hi

theorem length_leftOver_le (longs calls : List OptionContract) : (leftOver longs calls).length ≤ calls.length := by
  rw [(leftOver_perm longs calls).length_eq]
  calc (leftOf covers longs calls).length ≤ (bare longs calls).length := List.length_filterMap_le _ _
    _ ≤ (List.range calls.length).length := List.length_filter_le _ _
    _ = calls.length := List.length_range

theorem lotsLeft_sublist {held held' : Book} (h : Keyed held) (h' : Keyed held') {u : String}
    (hle : ∀ c : OptionContract, c.underlying = u → c.right = .call →
      (held'.have (.option c)).val ≤ (held.have (.option c)).val) :
    (lotsLeft held u).Sublist (lotsLeft held' u) := by
  obtain ⟨hshort, hlong⟩ := bookUnits_subperm h h' hle
  exact leftOver_sublist hlong hshort

theorem uncovered_val {held : Book} {found : List (String × Money)} {u : String} (hw : WholeHeld held)
    (hlt : (held.have (.equity u)).val < 10 ^ 28) (h : uncovered (.code D) held = .ok found) :
    (lookup found u).val = shortLots (held.have (.equity u)).val (lotsLeft held u) := by
  obtain ⟨n, hn, hval⟩ := uncovered_spec hw h u
  rw [hval, handOut_eq (hw.have _) hlt hn, lotsLeft]
  simp

theorem uncovered_units {held : Book} {found : List (String × Money)} (hk : Keyed held) (hw : WholeHeld held)
    (h : uncovered (.code D) held = .ok found) {c : OptionContract} (hc : c.right = .call) :
    |(held.have (.option c)).val| ≤ 1000000 := by
  simp only [uncovered, bind_eq_ok] at h
  obtain ⟨sides, hsides, -⟩ := h
  have hsides := sortCalls_sides .nil hw hsides
  unfold Book.have
  cases hget : held.get (Contract.option c).hk with
  | none => simp
  | some q =>
    obtain ⟨d, hmem⟩ := OMap.mem_of_get hget
    obtain rfl : Contract.option c = d := Contract.hk_injective (hk _ hmem)
    exact hsides.bounded c q (List.mem_map_of_mem hmem) hc

theorem mem_insert_entries {held : Book} (hk : Keyed held) {c d : Contract} {q p : Money}
    (h : (d, p) ∈ OMap.entries (held.insert c.hk c q)) : (d = c ∧ p = q) ∨ (d, p) ∈ held.entries := by
  obtain ⟨x, hx, heq⟩ := List.mem_map.1 h
  obtain ⟨rfl, rfl⟩ := Prod.mk.inj heq
  have hkey := hk.insert c q x hx
  rcases OMap.mem_insert hx with ⟨hc, hval⟩ | ⟨hmem, -⟩
  · exact .inl ⟨Contract.hk_injective (hkey.symm.trans hc), hval⟩
  · exact .inr (List.mem_map_of_mem hmem)

/-! ## Books that can be counted -/

theorem sortCall_ok (sides : Calls × Calls) {e : Contract × Money} (hw : Whole e.2.val)
    (hb : ∀ c, e.1 = .option c → |e.2.val| ≤ 1000000) : ∃ sides', sortCall (.code D) sides e = .ok sides' := by
  obtain ⟨c, q⟩ := e
  cases c with
  | equity s => exact ⟨sides, rfl⟩
  | future f => exact ⟨sides, rfl⟩
  | option c =>
    simp only [sortCall]
    split
    · exact ⟨sides, rfl⟩
    · have hle := hb c rfl
      obtain ⟨r, hr, hval⟩ := abs_ok (D := D) hw (hle.trans_lt (by norm_num))
      obtain ⟨k, hk⟩ : Whole r.val := by
        rw [hval]
        exact whole_abs hw
      have hk' : ¬ k > maxUnits := by
        rw [← hval, hk] at hle
        exact not_lt.2 (by exact_mod_cast hle)
      simp only [hr, Money.truncI128_ok hk, Except.mapError, bind, Except.bind]
      rw [if_neg hk']
      split
      · exact ⟨_, rfl⟩
      · exact ⟨_, rfl⟩

theorem sortCalls_ok {es : List (Contract × Money)} (hw : ∀ e ∈ es, Whole e.2.val)
    (hb : ∀ c q, (.option c, q) ∈ es → |q.val| ≤ 1000000) (sides : Calls × Calls) :
    ∃ sides', es.foldlM (sortCall (.code D)) sides = .ok sides' := by
  apply foldlM_ok
  intro sides e he
  exact sortCall_ok sides (hw e he) fun c hc => hb c e.2 (by rw [← hc]; exact he)

theorem handOut_ok {left : List OptionContract} {shares : Money} (hw : Whole shares.val) (hlt : shares.val < 10 ^ 28)
    (hm : ∀ c ∈ left, c.multiplier < 10 ^ 28) : ∃ n, handOut (.code D) left shares = .ok n := by
  induction left generalizing shares with
  | nil => exact ⟨0, rfl⟩
  | cons call left ih =>
    have hpos := call.multiplier_pos
    have hcall := hm call (by simp)
    have hrest : ∀ c ∈ left, c.multiplier < 10 ^ 28 := fun c hc => hm c (by simp [hc])
    obtain ⟨lot, hlot, hval⟩ := Money.fromI128_ok (k := call.multiplier) (by norm_num at hcall ⊢; omega)
    simp only [handOut, hlot, Except.mapError, bind, Except.bind]
    split_ifs with hge
    · have hge : (call.multiplier : ℚ) ≤ shares.val := by rw [← hval]; simpa using hge
      have hpos' : (0 : ℚ) < call.multiplier := by exact_mod_cast hpos
      have hlotw : Whole lot.val := hval ▸ .cast call.multiplier
      obtain ⟨r, hr, hrval⟩ := Ops.sub_ok (D := D) hw hlotw (by
        rw [hval, abs_of_nonneg (by linarith)]
        linarith)
      have hr := Ops.sub_refuses (Arith.exactButDiv_le _) _ _ _ hr
      obtain ⟨n, hn⟩ := ih (hrval ▸ hw.sub hlotw) (by rw [hrval, hval]; linarith) hrest
      exact ⟨n, by rw [hr]; exact hn⟩
    · obtain ⟨n, hn⟩ := ih hw hlt hrest
      exact ⟨n + 1, by rw [hn]; rfl⟩

/-- A whole book is counted when its calls are few enough and its shares and lots within 28 digits. -/
theorem uncovered_ok {held : Book} (hw : WholeHeld held) (hb : ∀ c q, (.option c, q) ∈ held.entries → |q.val| ≤ 1000000)
    (hm : ∀ c q, (.option c, q) ∈ held.entries → c.multiplier < 10 ^ 28)
    (hs : ∀ u, (held.have (.equity u)).val < 10 ^ 28) (hn : ∀ u, (bookUnits true held u).length < 10 ^ 28) :
    ∃ found, uncovered (.code D) held = .ok found := by
  obtain ⟨⟨shorts, longs⟩, hsides⟩ := sortCalls_ok (D := D) hw hb ([], [])
  have hspec := sortCalls_sides .nil hw hsides
  simp only [uncovered, hsides, bind, Except.bind]
  have hone : ∀ e ∈ shorts, ∃ n v, handOut (.code D) (leftOver (unitsOf longs e.1) e.2) (held.have (.equity e.1)) = .ok n ∧
      Money.fromI128 n = .ok v := by
    intro e he
    have hunits : e.2 = bookUnits true held e.1 := by
      rw [← unitsOf_of_mem hspec.nodup he]
      exact hspec.shorts e.1
    have hlots : ∀ c ∈ leftOver (unitsOf longs e.1) e.2, c.multiplier < 10 ^ 28 := by
      intro c hc
      obtain ⟨q, hmem, -⟩ := mem_bookUnits (hunits ▸ mem_of_mem_leftOver hc)
      exact hm c q hmem
    obtain ⟨n, hn'⟩ := handOut_ok (D := D) (hw.have (.equity e.1)) (hs e.1) hlots
    have hcount := handOut_eq (hw.have (.equity e.1)) (hs e.1) hn'
    have hle := shortLots_le_length (held.have (.equity e.1)).val ((leftOver (unitsOf longs e.1) e.2).map (·.multiplier))
    rw [List.length_map] at hle
    have hlength := length_leftOver_le (unitsOf longs e.1) e.2
    have hbound := hn e.1
    rw [← hunits] at hbound
    obtain ⟨v, hv, -⟩ := Money.fromI128_ok (k := n) (by norm_num at hbound ⊢; omega)
    exact ⟨n, v, hn', hv⟩
  exact foldlM_ok (fun found e he => by
    obtain ⟨n, v, hn', hv⟩ := hone e he
    simp only [hn', hv, Except.mapError]
    split
    · exact ⟨_, rfl⟩
    · exact ⟨_, rfl⟩) []

end TradeEngine.Tos
