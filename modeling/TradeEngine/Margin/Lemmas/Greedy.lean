import TradeEngine.Margin.Lemmas.Matching

/-!
# LEAN's grouping

What one match takes is there, so nothing is used twice and every round makes the book or the lots
smaller; what the rounds leave is long where a naked definition exists for the right.
-/

namespace TradeEngine.Margin

open Lib

variable {n : Nat} {D : Type} [LinearOrder D] {ctx : Fin n → Contract D} {defs : List StratDef}
  {b b' b'' : Book n} {lots lots' lots'' : Int64} {rows rows' : List (Matched n)} {m : Matched n}

/-! ## Rows -/

theorem uses_eq_zero {legs : List (Fin n × Int64)} {c : Fin n} (h : c ∉ legs.map (·.1)) : uses legs c = 0 := by
  unfold uses
  apply List.sum_eq_zero
  intro k hk
  obtain ⟨l, hl, rfl⟩ := List.mem_map.mp hk
  exact if_neg fun he => h (List.mem_map.mpr ⟨l, hl, he⟩)

theorem uses_eq {legs : List (Fin n × Int64)} (hn : (legs.map (·.1)).Nodup) {l : Fin n × Int64}
    (hl : l ∈ legs) : uses legs l.1 = l.2.toInt := by
  induction legs with
  | nil => cases hl
  | cons x legs ih =>
      simp only [List.map_cons, List.nodup_cons] at hn
      have hstep : ∀ c, uses (x :: legs) c = (if x.1 = c then x.2.toInt else 0) + uses legs c := by
        intro c
        simp [uses]
      rw [hstep]
      rcases List.mem_cons.mp hl with rfl | hl
      · rw [if_pos rfl, uses_eq_zero hn.1, add_zero]
      · have hne : x.1 ≠ l.1 := fun he => hn.1 (he ▸ List.mem_map_of_mem hl)
        rw [if_neg hne, zero_add]
        exact ih hn.2 hl

theorem uses_entries (b : Book n) (c : Fin n) : uses b.entries c = (b.qtyOf c).toInt := by
  by_cases hc : c ∈ b.entries.map (·.1)
  · obtain ⟨e, he, rfl⟩ := List.mem_map.mp hc
    rw [uses_eq b.once he, Book.qtyOf_of_mem he]
  · rw [uses_eq_zero hc, Book.qtyOf_of_notMem hc]
    rfl

/-- The legs are distinct contracts and some of what the book holds of each. -/
structure Within (b : Book n) (lots : Int64) (m : Matched n) : Prop where
  distinct : (m.legs.map (·.1)).Nodup
  legs : ∀ l ∈ m.legs, l.2.toInt ≠ 0 ∧ Part l.2.toInt (b.qtyOf l.1).toInt
  lots : Part m.underlyingLots.toInt lots.toInt

theorem Instance.contracts {d : StratDef} {cs : List (Fin n)} {units : Int} (h : Instance ctx d cs units m) :
    m.legs.map (·.1) = cs := by
  have hfst := congrArg (List.map Prod.fst) h.legs
  simp only [List.map_map] at hfst
  calc m.legs.map (·.1) = (cs.zip d.legs).map Prod.fst := hfst
    _ = cs := List.map_fst_zip h.seated.length.le

theorem Instance.within {d : StratDef} {cs : List (Fin n)} {units : Int} (h : Instance ctx d cs units m)
    (hroom : Room d cs b lots units) : Within b lots m := by
  refine ⟨h.contracts ▸ h.seated.nodup.1, ?_, h.underlyingLots ▸ hroom.2⟩
  intro l hl
  have hmem : (l.1, l.2.toInt) ∈ m.legs.map fun l => (l.1, l.2.toInt) := List.mem_map_of_mem hl
  rw [h.legs] at hmem
  obtain ⟨x, hx, he⟩ := List.mem_map.mp hmem
  obtain ⟨hc, hq⟩ := Prod.mk.inj he
  rw [← hc, ← hq]
  exact ⟨mul_ne_zero x.2.quantity_ne h.pos.ne', hroom.1 x hx⟩

omit [LinearOrder D] in
theorem Within.long {c : Fin n} (h : 0 < (b.qtyOf c).toInt) : Within b lots (long ctx c (b.qtyOf c)) := by
  refine ⟨by simp [Margin.long], ?_, Part.zero _⟩
  intro l hl
  rw [List.mem_singleton.mp hl]
  exact ⟨h.ne', Part.refl _⟩

theorem Within.uses_part (h : Within b lots m) (c : Fin n) : Part (uses m.legs c) (b.qtyOf c).toInt := by
  by_cases hc : c ∈ m.legs.map (·.1)
  · obtain ⟨l, hl, rfl⟩ := List.mem_map.mp hc
    rw [uses_eq h.distinct hl]
    exact (h.legs l hl).2
  · rw [uses_eq_zero hc]
    exact Part.zero _

/-! ## What rows leave -/

namespace Leaves

theorem refl : Leaves ctx defs b lots [] b lots :=
  ⟨by simp, by simp, by simp, fun c => Part.refl _, by simp, by simp, Part.refl _⟩

theorem of_take (hrow : Row ctx defs m) (hm : Within b lots m) (ht : b.take m.legs = .ok b')
    (hl : lots'.toInt = lots.toInt - m.underlyingLots.toInt) : Leaves ctx defs b lots [m] b' lots' where
  valid := by simpa using hrow
  contracts c := by simpa using Book.take_qtyOf ht c
  side := by simpa using fun c q hl => (hm.legs (c, q) hl).2
  rest c := by
    have htake := Book.take_qtyOf ht c
    have hrest := (hm.uses_part c).rest
    rwa [show (b.qtyOf c).toInt - uses m.legs c = (b'.qtyOf c).toInt by omega] at hrest
  shares := by
    simp [hl]
  lotSide := by simpa using hm.lots
  lotRest := hl ▸ hm.lots.rest

theorem append (h : Leaves ctx defs b lots rows b' lots') (h' : Leaves ctx defs b' lots' rows' b'' lots'') :
    Leaves ctx defs b lots (rows ++ rows') b'' lots'' where
  valid m hm := (List.mem_append.mp hm).elim (h.valid m) (h'.valid m)
  contracts c := by
    have h1 := h.contracts c
    have h2 := h'.contracts c
    simp only [List.map_append, List.sum_append]
    omega
  side m hm l hl := by
    rcases List.mem_append.mp hm with hm | hm
    · exact h.side m hm l hl
    · exact (h'.side m hm l hl).trans (h.rest l.1)
  rest c := (h'.rest c).trans (h.rest c)
  shares := by
    have h1 := h.shares
    have h2 := h'.shares
    simp only [List.map_append, List.sum_append]
    omega
  lotSide m hm := by
    rcases List.mem_append.mp hm with hm | hm
    · exact h.lotSide m hm
    · exact (h'.lotSide m hm).trans h.lotRest
  lotRest := h'.lotRest.trans h.lotRest

/-- Only the quantities of the two books matter. -/
theorem congr {a a' : Book n} (h : Leaves ctx defs b lots rows b' lots')
    (hb : ∀ c, a.qtyOf c = b.qtyOf c) (hb' : ∀ c, a'.qtyOf c = b'.qtyOf c) :
    Leaves ctx defs a lots rows a' lots' where
  valid := h.valid
  contracts c := by
    rw [hb, hb']
    exact h.contracts c
  side m hm l hl := by
    rw [hb]
    exact h.side m hm l hl
  rest c := by
    rw [hb, hb']
    exact h.rest c
  shares := h.shares
  lotSide := h.lotSide
  lotRest := h.lotRest

theorem sized (h : Leaves ctx defs b lots rows b' lots') (hs : b.Sized) : b'.Sized := by
  intro c
  have hrest := h.rest c
  have hb := hs c
  unfold Part at hrest
  omega

theorem lots_sized (h : Leaves ctx defs b lots rows b' lots') (hl : -2 ^ 63 < lots.toInt) :
    -2 ^ 63 < lots'.toInt := by
  have hrest := h.lotRest
  unfold Part at hrest
  omega

theorem size_le (h : Leaves ctx defs b lots rows b' lots') : b'.size ≤ b.size := by
  rw [Book.size_eq_sum, Book.size_eq_sum]
  exact Finset.sum_le_sum fun c _ => (h.rest c).natAbs_le

theorem size_lt (h : Leaves ctx defs b lots [m] b' lots') (hm : Within b lots m) (hne : m.legs ≠ []) :
    b'.size < b.size := by
  obtain ⟨l, hl⟩ := List.exists_mem_of_ne_nil _ hne
  rw [Book.size_eq_sum, Book.size_eq_sum]
  refine Finset.sum_lt_sum (fun c _ => (h.rest c).natAbs_le) ⟨l.1, Finset.mem_univ _, ?_⟩
  have hcontract := h.contracts l.1
  simp only [List.map_cons, List.map_nil, List.sum_cons, List.sum_nil, uses_eq hm.distinct hl] at hcontract
  obtain ⟨hq, hpart⟩ := hm.legs l hl
  unfold Part at hpart
  omega

end Leaves

/-- A full match takes a contract or a lot. -/
theorem Full.progress {d : StratDef} {cs : List (Fin n)} {units : Int} (h : Instance ctx d cs units m)
    (hfull : Full d cs b lots units) (hleaves : Leaves ctx defs b lots [m] b' lots') :
    b'.size + lots'.toInt.natAbs < b.size + lots.toInt.natAbs := by
  have hm := h.within hfull.1
  have hlots := hleaves.lotRest.natAbs_le
  by_cases hne : m.legs = []
  · have hd : d.underlyingLots.toInt ≠ 0 := by
      intro hd
      have hcs : cs = [] := by
        rw [← h.contracts, hne]
        rfl
      exact hfull.2 ⟨by simp [hcs], by simp [hd, Part.zero]⟩
    have hlot : m.underlyingLots.toInt ≠ 0 := h.underlyingLots ▸ mul_ne_zero hd h.pos.ne'
    have hshares := hleaves.shares
    simp only [List.map_cons, List.map_nil, List.sum_cons, List.sum_nil] at hshares
    have hpart := hm.lots
    have hsize := hleaves.size_le
    unfold Part at hpart
    omega
  · have := hleaves.size_lt hm hne
    omega

/-! ## The loop over one definition -/

/-- One round: nothing matches, or the match is taken. -/
theorem drain_step (ctx : Fin n → Contract D) {d : StratDef} (hd : d ∈ defs) {g : Greedy n} (hs : g.remaining.Sized)
    (hl : -2 ^ 63 < g.lots.toInt) (rounds : Nat) :
    drain d ctx (rounds + 1) g = .ok g ∧ matchesOf d ctx g.remaining g.lots (some 1) = .ok [] ∨
      ∃ m remaining lots, Leaves ctx defs g.remaining g.lots [m] remaining lots ∧
        remaining.size + lots.toInt.natAbs < g.remaining.size + g.lots.toInt.natAbs ∧
        drain d ctx (rounds + 1) g = drain d ctx rounds ⟨g.strategies ++ [m], remaining, lots⟩ := by
  obtain ⟨ms, hms⟩ := matchesOf_ok ctx d hs hl (some 1)
  cases ms with
  | nil =>
      refine Or.inl ⟨?_, hms⟩
      simp only [drain, hms]
      rfl
  | cons m ms =>
      obtain ⟨cs, units, hinst, hfull⟩ := matchesOf_sound hs hl hms m List.mem_cons_self
      have hm := hinst.within hfull.1
      obtain ⟨remaining, htake⟩ := Book.take_ok hm.distinct hm.legs
      obtain ⟨lots, hlots⟩ := hm.lots.checked_rest
      have hleaves := Leaves.of_take (.strategy hd hinst) hm htake (checked_ok.mp hlots)
      refine Or.inr ⟨m, remaining, lots, hleaves, hfull.progress hinst hleaves, ?_⟩
      simp only [drain, hms, lift_of_ok, ok_bind, htake, hlots]

theorem drain_spec (ctx : Fin n → Contract D) {d : StratDef} (hd : d ∈ defs) {g : Greedy n} (hs : g.remaining.Sized)
    (hl : -2 ^ 63 < g.lots.toInt) {rounds : Nat}
    (hr : g.remaining.size + g.lots.toInt.natAbs < rounds) :
    ∃ g' rows, drain d ctx rounds g = .ok g' ∧ g'.strategies = g.strategies ++ rows ∧
      Leaves ctx defs g.remaining g.lots rows g'.remaining g'.lots ∧
      matchesOf d ctx g'.remaining g'.lots (some 1) = .ok [] := by
  induction rounds generalizing g with
  | zero => omega
  | succ rounds ih =>
      rcases drain_step ctx hd hs hl rounds with ⟨he, hnone⟩ | ⟨m, remaining, lots, hleaves, hless, he⟩
      · exact ⟨g, [], he, by simp, .refl, hnone⟩
      · obtain ⟨g', rows, hok, hrows, hrest, hnone⟩ :=
          @ih ⟨g.strategies ++ [m], remaining, lots⟩ (hleaves.sized hs) (hleaves.lots_sized hl)
            (by dsimp only; omega)
        refine ⟨g', m :: rows, he.trans hok, ?_, hleaves.append hrest, hnone⟩
        simp [hrows]

/-! ## All definitions -/

theorem naked_seated {name : String} {right : Right} {c : Fin n} (hc : (ctx c).right = right) :
    Seated ctx [] (naked name right).legs [c] := ⟨by simp, hc, by simp [short], trivial⟩

omit [LinearOrder D] in
theorem naked_full {name : String} {right : Right} {c : Fin n} (hc : (b.qtyOf c).toInt < 0) :
    Full (naked name right) [c] b lots (-(b.qtyOf c).toInt) := by
  have hlots : (naked name right).underlyingLots.toInt = 0 := rfl
  have hleg : (short right []).quantity.toInt = -1 := rfl
  constructor
  · refine ⟨?_, by simp [hlots, Part.zero]⟩
    intro x hx
    rw [List.mem_singleton.mp hx, hleg, neg_mul_neg, one_mul]
    exact Part.refl _
  · intro hroom
    have hpart := hroom.1 (c, short right []) (by simp [naked])
    rw [hleg] at hpart
    unfold Part at hpart
    dsimp only at hpart
    omega

theorem naked_takes {name : String} {right : Right} (hs : b.Sized) (hl : -2 ^ 63 < lots.toInt)
    (h : matchesOf (naked name right) ctx b lots (some 1) = .ok []) {c : Fin n}
    (hc : (ctx c).right = right) : 0 ≤ (b.qtyOf c).toInt := by
  by_contra hneg
  obtain ⟨m, hm, _⟩ := matchesOf_complete hs hl h (Or.inr rfl) (by omega) (naked_seated hc) (naked_full (not_le.mp hneg))
  cases hm

theorem greedyOver_spec (ctx : Fin n → Contract D) {all : List StratDef} {defs : List StratDef} (hdefs : defs ⊆ all)
    {g : Greedy n} (hs : g.remaining.Sized) (hl : -2 ^ 63 < g.lots.toInt) {rounds : Nat}
    (hr : g.remaining.size + g.lots.toInt.natAbs < rounds) :
    ∃ g' rows, greedyOver ctx rounds defs g = .ok g' ∧ g'.strategies = g.strategies ++ rows ∧
      Leaves ctx all g.remaining g.lots rows g'.remaining g'.lots ∧
      ∀ name right, naked name right ∈ defs → ∀ c, (ctx c).right = right →
        0 ≤ (g'.remaining.qtyOf c).toInt := by
  induction defs generalizing g with
  | nil => exact ⟨g, [], rfl, by simp, .refl, by simp⟩
  | cons d defs ih =>
      obtain ⟨hd, hdefs⟩ := List.cons_subset.mp hdefs
      obtain ⟨g₁, rows, hdrain, hrows, hleaves, hnone⟩ := drain_spec ctx hd hs hl hr
      have hs₁ := hleaves.sized hs
      have hl₁ := hleaves.lots_sized hl
      have hlong : ∀ name right, naked name right = d → ∀ c, (ctx c).right = right →
          0 ≤ (g₁.remaining.qtyOf c).toInt := by
        rintro name right rfl c hc
        exact naked_takes hs₁ hl₁ hnone hc
      by_cases hspent : g₁.spent = true
      · refine ⟨g₁, rows, ?_, hrows, hleaves, ?_⟩
        · simp only [greedyOver, hdrain]
          exact if_pos hspent
        · intro _ _ _ c _
          have hzero := (Bool.and_eq_true _ _ ▸ hspent : _ ∧ _).2
          exact (Book.all_zero.mp hzero c).ge
      · have hsize := hleaves.size_le
        have hlots := hleaves.lotRest.natAbs_le
        obtain ⟨g', rows', hok, hrows', hleaves', hlong'⟩ := ih hdefs hs₁ hl₁ (by omega)
        refine ⟨g', rows ++ rows', ?_, by rw [hrows', hrows, List.append_assoc], hleaves.append hleaves', ?_⟩
        · simp only [greedyOver, hdrain]
          exact (if_neg hspent).trans hok
        · intro name right hmem c hc
          rcases List.mem_cons.mp hmem with he | hmem
          · have hpos := hlong name right he c hc
            have hpart := hleaves'.rest c
            unfold Part at hpart
            omega
          · exact hlong' name right hmem c hc

theorem matchGreedy_spec (ctx : Fin n → Contract D) (defs : List StratDef) (hs : b.Sized) (hl : -2 ^ 63 < lots.toInt) :
    ∃ g, matchGreedy defs ctx b lots = .ok g ∧ Leaves ctx defs b lots g.strategies g.remaining g.lots ∧
      (∀ e ∈ g.remaining.entries, e.2.toInt ≠ 0) ∧
      ∀ name right, naked name right ∈ defs → ∀ c, (ctx c).right = right →
        0 ≤ (g.remaining.qtyOf c).toInt := by
  obtain ⟨g, rows, hok, hrows, hleaves, hlong⟩ :=
    greedyOver_spec ctx (List.Subset.refl defs) (g := ⟨[], b, lots⟩) hs hl (Nat.lt_succ_self _)
  refine ⟨{ g with remaining := g.remaining.retain }, ?_, ?_, ?_, ?_⟩
  · unfold matchGreedy
    rw [hok]
    rfl
  · rw [List.nil_append] at hrows
    dsimp only
    rw [hrows]
    exact hleaves.congr (fun c => rfl) (Book.qtyOf_retain g.remaining)
  · intro e he
    simpa using (List.mem_filter.mp he).2
  · intro name right hmem c hc
    rw [Book.qtyOf_retain]
    exact hlong name right hmem c hc

/-! ## Leftovers -/

theorem Leaves.rest_long (ctx : Fin n → Contract D) (defs : List StratDef) (lots : Int64)
    (h : ∀ e ∈ b.entries, 0 < e.2.toInt) :
    Leaves ctx defs b lots (b.entries.map fun e => long ctx e.1 e.2) ⟨[], List.nodup_nil⟩ lots where
  valid m hm := by
    obtain ⟨e, he, rfl⟩ := List.mem_map.mp hm
    exact .long (h e he)
  contracts c := by
    have huses : ((b.entries.map fun e => long ctx e.1 e.2).map fun m => uses m.legs c).sum =
        uses b.entries c := by
      rw [List.map_map]
      simp [uses, long, Function.comp_def]
    rw [huses, uses_entries]
    simp [Book.qtyOf]
  side m hm l hl := by
    obtain ⟨e, he, rfl⟩ := List.mem_map.mp hm
    rw [List.mem_singleton.mp hl, Book.qtyOf_of_mem he]
    exact Part.refl _
  rest c := Part.zero _
  shares := by
    have hzero : ((b.entries.map fun e => long ctx e.1 e.2).map (·.underlyingLots.toInt)).sum = 0 := by
      apply List.sum_eq_zero
      intro k hk
      obtain ⟨m, hm, rfl⟩ := List.mem_map.mp hk
      obtain ⟨e, _, rfl⟩ := List.mem_map.mp hm
      rfl
    rw [hzero, zero_add]
  lotSide m hm := by
    obtain ⟨e, _, rfl⟩ := List.mem_map.mp hm
    exact Part.zero _
  lotRest := Part.refl _

theorem mem_byLegCount {d : StratDef} : d ∈ byLegCount defs ↔ d ∈ defs := List.mem_insertionSort _

theorem Row.mono {all : List StratDef} (h : defs ⊆ all) : Row ctx defs m → Row ctx all m
  | .strategy hd hm => .strategy (h hd) hm
  | .long hq => .long hq

theorem Leaves.mono {all : List StratDef} (h : defs ⊆ all) (hl : Leaves ctx defs b lots rows b' lots') :
    Leaves ctx all b lots rows b' lots' := { hl with valid := fun m hm => (hl.valid m hm).mono h }

theorem matchStrategies_partition (hs : b.Sized) (hl : -2 ^ 63 < lots.toInt) {left : Int64}
    (h : matchStrategies ctx b lots defs = .ok (rows, left)) : Partition ctx defs b lots rows left := by
  obtain ⟨g, hg, hleaves, hnonzero, _⟩ := matchGreedy_spec ctx (byLegCount defs) hs hl
  simp only [matchStrategies, hg, bind_eq_ok, Except.ok.injEq, exists_eq_left', pure_eq_ok, Prod.mk.injEq] at h
  obtain ⟨rest, hrest, rfl, rfl⟩ := h
  -- every leftover is long, and stands alone
  have hall := mapM_ok hrest
  have hlong : rest = (g.remaining.sorted ctx).entries.map (fun e => long ctx e.1 e.2) ∧
      ∀ e ∈ (g.remaining.sorted ctx).entries, 0 ≤ e.2.toInt := by
    clear hrest
    revert hall
    generalize (g.remaining.sorted ctx).entries = entries
    intro hall
    induction hall with
    | nil => simp
    | @cons e r _ _ he _ ih =>
        split at he
        · exact absurd he (by simp [Stop.lift, refuse, Except.mapError])
        · next hq =>
            cases he
            refine ⟨by rw [ih.1]; rfl, ?_⟩
            intro x hx
            rcases List.mem_cons.mp hx with rfl | hx
            · omega
            · exact ih.2 x hx
  have hpos : ∀ e ∈ (g.remaining.sorted ctx).entries, 0 < e.2.toInt := by
    intro e he
    have hne := hnonzero e ((List.perm_insertionSort _ _).mem_iff.mp he)
    have := hlong.2 e he
    omega
  refine ⟨⟨[], List.nodup_nil⟩, fun c => rfl, ?_⟩
  have hrows := (hleaves.mono fun d hd => mem_byLegCount.mp hd).append
    ((Leaves.rest_long ctx defs g.lots hpos).congr (fun c => (Book.qtyOf_sorted ctx g.remaining c).symm)
      fun c => rfl)
  rw [hlong.1]
  exact hrows

theorem matchStrategies_ok (hs : b.Sized) (hl : -2 ^ 63 < lots.toInt)
    (hnaked : ∀ right, ∃ name, naked name right ∈ defs) :
    ∃ rows left, matchStrategies ctx b lots defs = .ok (rows, left) := by
  obtain ⟨g, hg, _, _, hlong⟩ := matchGreedy_spec ctx (byLegCount defs) hs hl
  have hrest : ∀ e ∈ (g.remaining.sorted ctx).entries, ∃ m : Matched n,
      (if e.2.toInt < 0 then Stop.lift (refuse s!"Short {(ctx e.1).occ} matched no definition")
        else pure (long ctx e.1 e.2)) = .ok m := by
    intro e he
    obtain ⟨name, hname⟩ := hnaked (ctx e.1).right
    have hpos := hlong name _ (mem_byLegCount.mpr hname) e.1 rfl
    rw [Book.qtyOf_of_mem ((List.perm_insertionSort _ _).mem_iff.mp he)] at hpos
    exact ⟨_, if_neg (by omega)⟩
  obtain ⟨rest, hrest⟩ := mapM_ok_of hrest
  refine ⟨g.strategies ++ rest, g.lots, ?_⟩
  simp only [matchStrategies, hg, bind_eq_ok]
  exact ⟨g, rfl, rest, hrest, rfl⟩

theorem naked_mem_definitions (right : Right) : ∃ name, naked name right ∈ definitions := by
  cases right with
  | call => exact ⟨"Naked Call", by simp [definitions, naked]⟩
  | put => exact ⟨"Naked Put", by simp [definitions, naked]⟩

end TradeEngine.Margin
