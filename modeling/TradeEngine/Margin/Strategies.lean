import TradeEngine.Options.Basic

/-!
# Option strategies

LEAN's strategy definitions and the matching of a book of option contracts against them. A contract
is named by its index in the table the caller supplies, and a book holds each contract once.
-/

namespace TradeEngine.Margin

inductive MarginError where
  | value (msg : String)
  | option (msg : String)
  | unresolvable (msg : String)
deriving DecidableEq, Repr

abbrev Result (α : Type) := Except MarginError α

def refuse {α : Type} (message : String) : Result α := .error (.option message)

def qtyOverflow : MarginError := .option "contract quantity arithmetic overflow (D6)"

/-- An `i64` result, refused past the width. -/
@[irreducible] def checked (n : Int) : Result Int64 :=
  if -2 ^ 63 ≤ n ∧ n < 2 ^ 63 then .ok (.ofInt n) else .error qtyOverflow

/-! ## Contracts -/

/-- The option-roots table's answer, or its refusal, which is raised only by the rule that reads it. -/
inductive Style where
  | resolved (underlying : String) (index : Bool)
  | unresolved (msg : String)

structure Contract (D : Type) where
  root : String
  expiry : NaiveDate
  strike : D
  right : Right
  multiplier : Int64
  occ : String
  style : Style

/-- Calls sort before puts. -/
def rank : Right → Nat
  | .call => 0
  | .put => 1

section
variable {D : Type} [LinearOrder D]

def order (a b : Contract D) : Ordering :=
  (((compare a.expiry.numDaysFromCe b.expiry.numDaysFromCe).then (compare a.strike b.strike)).then
    (compare (rank a.right) (rank b.right))).then (compare a.root b.root)

/-- The order of a stable sort by `order`. -/
def before (a b : Contract D) : Prop := (order a b != .gt) = true

instance : DecidableRel (before (D := D)) := fun a b => inferInstanceAs (Decidable ((order a b != .gt) = true))

end

inductive Pred where
  | sameExpiry
  | laterExpiry
  | sameStrike
  | otherStrike
  | strikeAbove
  | strikeBelow
deriving DecidableEq, Repr

def Pred.holds {D : Type} [LinearOrder D] (p : Pred) (first c : Contract D) : Bool :=
  match p with
  | .sameExpiry => c.expiry = first.expiry
  | .laterExpiry => c.expiry.numDaysFromCe > first.expiry.numDaysFromCe
  | .sameStrike => c.strike = first.strike
  | .otherStrike => c.strike ≠ first.strike
  | .strikeAbove => c.strike > first.strike
  | .strikeBelow => c.strike < first.strike

/-! ## Definitions -/

/-- `quantity` is signed contracts per unit of the strategy. -/
structure LegDef where
  right : Right
  quantity : Int64
  predicates : List Pred
  quantity_ne : quantity.toInt ≠ 0

structure StratDef where
  name : String
  underlyingLots : Int64
  legs : List LegDef

def StratDef.legCount (d : StratDef) : Nat :=
  d.legs.length + if d.underlyingLots.toInt ≠ 0 then 1 else 0

def short (right : Right) (predicates : List Pred) : LegDef := ⟨right, -1, predicates, by decide⟩

def bought (right : Right) (predicates : List Pred) : LegDef := ⟨right, 1, predicates, by decide⟩

/-- In LEAN's declaration order, which breaks ties between definitions of equal leg count. -/
def definitions : List StratDef :=
  [⟨"Covered Call", 1, [short .call []]⟩,
    ⟨"Protective Call", -1, [bought .call []]⟩,
    ⟨"Covered Put", -1, [short .put []]⟩,
    ⟨"Protective Put", 1, [bought .put []]⟩,
    ⟨"Protective Collar", 1, [short .call [], bought .put [.strikeBelow, .sameExpiry]]⟩,
    ⟨"Naked Call", 0, [short .call []]⟩,
    ⟨"Naked Put", 0, [short .put []]⟩,
    ⟨"Bear Call Spread", 0, [short .call [], bought .call [.strikeAbove, .sameExpiry]]⟩,
    ⟨"Bear Put Spread", 0, [bought .put [], short .put [.strikeBelow, .sameExpiry]]⟩,
    ⟨"Bull Call Spread", 0, [bought .call [], short .call [.strikeAbove, .sameExpiry]]⟩,
    ⟨"Bull Put Spread", 0, [short .put [], bought .put [.strikeBelow, .sameExpiry]]⟩,
    ⟨"Call Calendar Spread", 0, [short .call [], bought .call [.sameStrike, .laterExpiry]]⟩,
    ⟨"Short Call Calendar Spread", 0, [bought .call [], short .call [.sameStrike, .laterExpiry]]⟩,
    ⟨"Put Calendar Spread", 0, [short .put [], bought .put [.sameStrike, .laterExpiry]]⟩,
    ⟨"Short Put Calendar Spread", 0, [bought .put [], short .put [.sameStrike, .laterExpiry]]⟩,
    ⟨"Call Diagonal Spread", 0, [short .call [], bought .call [.otherStrike, .laterExpiry]]⟩,
    ⟨"Put Diagonal Spread", 0, [short .put [], bought .put [.otherStrike, .laterExpiry]]⟩]

/-! ## Books -/

/-- Signed contracts, each contract once. -/
structure Book (n : Nat) where
  entries : List (Fin n × Int64)
  once : (entries.map (·.1)).Nodup
deriving DecidableEq

/-- One strategy found in a book: legs in signed contracts and its underlying in signed lots, both
already scaled by `quantity`. -/
structure Matched (n : Nat) where
  name : String
  quantity : Int64
  legs : List (Fin n × Int64)
  underlyingLots : Int64
deriving DecidableEq

/-- Why a grouping stopped without a result. `panicked` is the failed look-up of a slot; `running` is
a loop cut at the number of rounds it was given. -/
inductive Stop where
  | tooLarge
  | err (e : MarginError)
  | panicked
  | running
deriving DecidableEq

def Stop.lift {α : Type} (x : Result α) : Except Stop α := x.mapError .err

variable {n : Nat}

namespace Book

def qtyOf (b : Book n) (c : Fin n) : Int64 := ((b.entries.find? (·.1 = c)).map (·.2)).getD 0

/-- Contracts either way, over the whole book. -/
def size (b : Book n) : Nat := (b.entries.map fun e => e.2.toInt.natAbs).sum

def setEntry (c : Fin n) (q : Int64) (e : Fin n × Int64) : Fin n × Int64 := if e.1 = c then (c, q) else e

theorem map_setEntry_fst (c : Fin n) (q : Int64) (l : List (Fin n × Int64)) :
    (l.map (setEntry c q)).map (·.1) = l.map (·.1) := by
  induction l with
  | nil => rfl
  | cons e l ih =>
      simp only [List.map_cons, ih, setEntry]
      split
      · next h => rw [h]
      · rfl

def set (b : Book n) (c : Fin n) (q : Int64) : Book n :=
  ⟨b.entries.map (setEntry c q), by rw [map_setEntry_fst]; exact b.once⟩

/-- The book with a strategy's legs taken out. -/
def take (b : Book n) (legs : List (Fin n × Int64)) : Except Stop (Book n) :=
  legs.foldlM (fun b leg =>
    if leg.1 ∈ b.entries.map (·.1) then do
      let q ← Stop.lift (checked ((b.qtyOf leg.1).toInt - leg.2.toInt))
      pure (b.set leg.1 q)
    else .error .panicked) b

/-- The contracts that are held. -/
def retain (b : Book n) : Book n :=
  ⟨b.entries.filter (·.2.toInt ≠ 0), (List.filter_sublist.map _).nodup b.once⟩

section
variable {D : Type} [LinearOrder D] (ctx : Fin n → Contract D)

/-- The book in contract order. -/
def sorted (b : Book n) : Book n :=
  ⟨b.entries.insertionSort fun x y => before (ctx x.1) (ctx y.1),
    (((List.perm_insertionSort _ _).map _).nodup_iff).mpr b.once⟩

def held (b : Book n) : List (Fin n) :=
  ((b.entries.filter (·.2.toInt ≠ 0)).map (·.1)).insertionSort fun x y => before (ctx x) (ctx y)

end

end Book

/-! ## Matching -/

section
variable {D : Type} [LinearOrder D]

/-- How many times `leg` contracts a unit go into `quantity`, cast back to `i64`. -/
def fits (quantity leg : Int64) : Int64 := .ofNat (quantity.toInt.natAbs / leg.toInt.natAbs)

structure Walk (n : Nat) (D : Type) where
  defn : StratDef
  ctx : Fin n → Contract D
  book : Book n
  held : List (Fin n)
  limit : Option Nat

namespace Walk

/-- A leg takes a contract of its right and side that no earlier leg took. A predicate reads the
first chosen leg; the first leg has none. -/
def suits (w : Walk n D) (chosen : List (Fin n)) (leg : LegDef) (c : Fin n) : Bool :=
  !chosen.contains c && (w.ctx c).right = leg.right &&
    decide (0 < (w.book.qtyOf c).toInt) == decide (0 < leg.quantity.toInt) &&
    (leg.predicates.all fun p => chosen.head?.all fun f => p.holds (w.ctx f) (w.ctx c)) &&
    (fits (w.book.qtyOf c) leg.quantity).toInt ≠ 0

/-- Every leg has its contract: the match, taken as often as all its legs allow. -/
def found (w : Walk n D) (chosen : List (Fin n)) (units : Int64) : Result (Matched n) := do
  let legs ← (chosen.zip w.defn.legs).mapM fun x => do
    pure (x.1, ← checked (x.2.quantity.toInt * units.toInt))
  let lots ← checked (w.defn.underlyingLots.toInt * units.toInt)
  pure ⟨w.defn.name, units, legs, lots⟩

/-- The fewer of the units so far and what this leg allows. -/
def narrow (units : Option Int64) (fit : Int64) : Int64 :=
  units.elim fit fun u => if fit.toInt < u.toInt then fit else u

/-- The matches with `chosen` on the first legs and the others on `legs`, after those of `out`; true
once `limit` matches are collected. -/
def extend (w : Walk n D) :
    List LegDef → List (Fin n) → Option Int64 → List (Matched n) → Result (Bool × List (Matched n))
  | [], chosen, units, out =>
      match units.filter (·.toInt ≠ 0) with
      | some units => do
          let out := out ++ [← w.found chosen units]
          pure (w.limit.any (· ≤ out.length), out)
      | none => pure (false, out)
  | leg :: legs, chosen, units, out =>
      w.held.foldlM (fun acc c =>
        if acc.1 then pure acc
        else if w.suits chosen leg c then
          w.extend legs (chosen ++ [c]) (some (narrow units (fits (w.book.qtyOf c) leg.quantity))) acc.2
        else pure acc) (false, out)

end Walk

/-- The lots a definition asks for are there, on its side. -/
def StratDef.lotsFit (d : StratDef) (lots : Int64) : Bool :=
  d.underlyingLots.toInt = 0 ||
    decide (0 < lots.toInt) == decide (0 < d.underlyingLots.toInt) &&
      d.underlyingLots.toInt.natAbs ≤ lots.toInt.natAbs

/-- `matches`: every way `d` fits the book, in enumeration order; `limit` stops after that many. -/
def matchesOf (d : StratDef) (ctx : Fin n → Contract D) (book : Book n) (lots : Int64)
    (limit : Option Nat) : Result (List (Matched n)) :=
  let held := book.held ctx
  if held.length + (if lots.toInt ≠ 0 then 1 else 0) < d.legCount then .ok []
  else if !d.lotsFit lots then .ok []
  else do
    let units := if d.underlyingLots.toInt ≠ 0 then some (fits lots d.underlyingLots) else none
    let r ← Walk.extend ⟨d, ctx, book, held, limit⟩ d.legs [] units []
    pure r.2

/-! ## LEAN's grouping -/

/-- The strategies taken so far, what they leave of the book, and of the lots. -/
structure Greedy (n : Nat) where
  strategies : List (Matched n)
  remaining : Book n
  lots : Int64

/-- The loop over one definition, for at most that many rounds. -/
def drain (d : StratDef) (ctx : Fin n → Contract D) : Nat → Greedy n → Except Stop (Greedy n)
  | 0, _ => .error .running
  | rounds + 1, g => do
      match ← Stop.lift (matchesOf d ctx g.remaining g.lots (some 1)) with
      | [] => pure g
      | found :: _ =>
          let remaining ← g.remaining.take found.legs
          let lots ← Stop.lift (checked (g.lots.toInt - found.underlyingLots.toInt))
          drain d ctx rounds ⟨g.strategies ++ [found], remaining, lots⟩

/-- Nothing is left to group. -/
def Greedy.spent (g : Greedy n) : Bool :=
  g.lots.toInt = 0 && g.remaining.entries.all (·.2.toInt = 0)

def greedyOver (ctx : Fin n → Contract D) (rounds : Nat) : List StratDef → Greedy n → Except Stop (Greedy n)
  | [], g => pure g
  | d :: defs, g => do
      let g ← drain d ctx rounds g
      if g.spent then pure g else greedyOver ctx rounds defs g

/-- Each round takes a contract or a lot, so their number bounds the rounds. -/
def matchGreedy (defs : List StratDef) (ctx : Fin n → Contract D) (book : Book n) (lots : Int64) :
    Except Stop (Greedy n) := do
  let g ← greedyOver ctx (book.size + lots.toInt.natAbs + 1) defs ⟨[], book, lots⟩
  pure { g with remaining := g.remaining.retain }

/-- Most legs first; ties keep LEAN's order. -/
def byLegCount (defs : List StratDef) : List StratDef :=
  defs.insertionSort fun a b => b.legCount ≤ a.legCount

def long (ctx : Fin n → Contract D) (c : Fin n) (quantity : Int64) : Matched n :=
  ⟨if (ctx c).right = .call then "Long Call" else "Long Put", quantity, [(c, quantity)], 0⟩

/-- Group one underlying's options and lots of its shares: the strategies, with any leftover long
option on its own, and the lots no strategy used. A short option nothing covers refuses. -/
def matchStrategies (ctx : Fin n → Contract D) (book : Book n) (lots : Int64) (defs : List StratDef) :
    Except Stop (List (Matched n) × Int64) := do
  let g ← matchGreedy (byLegCount defs) ctx book lots
  let rest ← (g.remaining.sorted ctx).entries.mapM fun e =>
    if e.2.toInt < 0 then
      Stop.lift (refuse s!"Short {(ctx e.1).occ} matched no definition")
    else pure (long ctx e.1 e.2)
  pure (g.strategies ++ rest, g.lots)

end

end TradeEngine.Margin
