import TradeEngine.Ledger.Fold

/-!
# A run without rounding is a run of the program

An arithmetic that refuses more makes every handler refuse more and change nothing else. So a log
the exact arithmetic accepts is accepted by the program, with the same states.
-/

namespace TradeEngine

open Lib

variable {A B : Arith} (le : A.Le B)

include le

/-! ## Operations -/

namespace Ops

theorem add_refuses (a b : Money) : Refuses (add A a b) (add B a b) := (le.add a b).mapError
theorem sub_refuses (a b : Money) : Refuses (sub A a b) (sub B a b) := (le.sub a b).mapError
theorem mul_refuses (a b : Money) : Refuses (mul A a b) (mul B a b) := (le.mul a b).mapError
theorem div_refuses (a b : Money) : Refuses (div A a b) (div B a b) := (le.div a b).mapError
theorem neg_refuses (a : Money) : Refuses (neg A a) (neg B a) := (le.neg a).mapError
theorem abs_refuses (a : Money) : Refuses (abs A a) (abs B a) := (le.abs a).mapError
theorem mulI_refuses (a : Money) (n : Int) : Refuses (mulI A a n) (mulI B a n) :=
  (le.mulI a n).mapError
theorem divI_refuses (a : Money) (n : Int) : Refuses (divI A a n) (divI B a n) :=
  (le.divI a n).mapError

end Ops

open Ops

/-! ## The mirror -/

theorem bumpShares_refuses (l : List (Money × Money)) (r : Int) :
    Refuses (bumpShares A l r) (bumpShares B l r) := by
  induction l generalizing r with
  | nil => exact .refl
  | cons e l ih =>
      obtain ⟨w, sh⟩ := e
      unfold bumpShares
      refine .ite (fun _ => .refl) fun _ => .ite (fun _ => ?_) fun _ => ?_
      · exact (le.addI sh 1).mapError.bind fun _ _ => (ih (r - 1)).bind fun _ _ => .refl
      · exact (ih r).bind fun _ _ => .refl

theorem proRata_refuses (weights : List Money) (whole amount : Money) :
    Refuses (proRata A weights whole amount) (proRata B weights whole amount) := by
  unfold proRata
  refine .bind (.mapM (fun w => ?_) weights) fun shares _ => ?_
  · exact (mul_refuses le w amount).bind fun x _ => (div_refuses le x whole).bind fun _ _ => .refl
  · refine .bind (.foldlM (add_refuses le) shares Money.zero) fun total _ => ?_
    refine (sub_refuses le amount total).bind fun _ _ => .bind .refl fun r _ => ?_
    exact bumpShares_refuses le _ r

theorem ticketContracts_refuses (q : MirrorQueued) (units : Money) :
    Refuses (ticketContracts A q units) (ticketContracts B q units) := by
  unfold ticketContracts
  split
  · refine .foldlM (fun out leg => ?_) _ _
    exact (mul_refuses le _ units).bind fun x _ => (mulI_refuses le x leg.ratio).bind fun _ _ => .refl
  · exact (mul_refuses le _ units).bind fun _ _ => .refl

theorem bookAdd_refuses (account : String) (book : OMap (String × Contract) Money)
    (e : Contract × Money) : Refuses (bookAdd A account book e) (bookAdd B account book e) :=
  (add_refuses le _ _).bind fun _ _ => .refl

theorem allocateFill_refuses (q : MirrorQueued)
    (acc : OMap String Money × OMap (String × Contract) Money) (piece : MirrorAllocation × Money) :
    Refuses (allocateFill A q acc piece) (allocateFill B q acc piece) := by
  unfold allocateFill
  refine (add_refuses le _ _).bind fun total _ => ?_
  refine (ticketContracts_refuses le q piece.2).bind fun contracts _ => ?_
  exact .bind (.foldlM (bookAdd_refuses le _) _ _) fun _ _ => .refl

theorem onMirrorFill_refuses (st : MirrorState) (f : MirrorFill) :
    Refuses (onMirrorFill A st f) (onMirrorFill B st f) := by
  unfold onMirrorFill
  refine .bind .refl fun _ _ => .bind .refl fun t _ => .bind .refl fun _ _ => ?_
  refine .bind .refl fun _ _ => .bind .refl fun _ _ => .ite (fun _ => .refl) fun _ => ?_
  refine .bind (.mapM (fun a => sub_refuses le _ _) _) fun lacking _ => ?_
  refine (sub_refuses le _ _).bind fun whole _ => (sub_refuses le _ _).bind fun amount _ => ?_
  refine (proRata_refuses le lacking whole amount).bind fun pieces _ => ?_
  exact .bind (.foldlM (allocateFill_refuses le _) _ _) fun _ _ => .refl

/-! ## Lots and trades -/

theorem signedTotal_refuses (lots : List Lot) : Refuses (signedTotal A lots) (signedTotal B lots) := by
  refine .foldlM (fun total lot => .bind ?_ fun x _ => add_refuses le total x) lots _
  exact .ite (fun _ => .refl) fun _ => neg_refuses le _

theorem costTotal_refuses (lots : List Lot) : Refuses (costTotal A lots) (costTotal B lots) :=
  .foldlM (fun total _ => (mul_refuses le _ _).bind fun x _ => add_refuses le total x) lots _

theorem makePosition_refuses (acc : String) (i : Instrument) (q avg r : Money) (lots : List Lot) :
    Refuses (makePosition A acc i q avg r lots) (makePosition B acc i q avg r lots) := by
  refine .bind .refl fun _ _ => .bind ?_ fun _ _ => .refl
  exact .ite (fun _ => .refl) fun _ => (signedTotal_refuses le lots).bind fun _ _ => .refl

theorem closePnl_refuses (lot : Lot) (closed exit : Money) (m : Int) :
    Refuses (closePnl A lot closed exit m) (closePnl B lot closed exit m) := by
  refine .bind ?_ fun per _ => (mul_refuses le per closed).bind fun x _ => mulI_refuses le x m
  exact .ite (fun _ => sub_refuses le _ _) fun _ => sub_refuses le _ _

theorem consumeLoop_refuses (exit : Money) (m : Int) (lots : List Lot) (rem realized : Money) :
    Refuses (consumeLoop A exit m lots rem realized) (consumeLoop B exit m lots rem realized) := by
  induction lots generalizing rem realized with
  | nil => exact .refl
  | cons lot lots ih =>
      unfold consumeLoop
      refine .ite (fun _ => (ih _ _).bind fun _ _ => .refl) fun _ => .ite (fun _ => ?_) fun _ => ?_
      · refine (sub_refuses le _ _).bind fun left _ => (closePnl_refuses le lot _ exit m).bind ?_
        exact fun pnl _ => (add_refuses le _ _).bind fun sum _ => ih left sum
      · refine (sub_refuses le _ _).bind fun _ _ => .bind .refl fun part _ => ?_
        refine (closePnl_refuses le lot rem exit m).bind fun pnl _ => ?_
        exact (add_refuses le _ _).bind fun sum _ => (ih _ sum).bind fun _ _ => .refl

theorem consumeLots_refuses (lots : List Lot) (q exit : Money) (m : Int) :
    Refuses (consumeLots A lots q exit m) (consumeLots B lots q exit m) :=
  (consumeLoop_refuses le exit m lots q _).bind fun _ _ => .refl

theorem takeLoop_refuses (lots : List Lot) (rem : Money) :
    Refuses (takeLoop A lots rem) (takeLoop B lots rem) := by
  induction lots generalizing rem with
  | nil => exact .refl
  | cons lot lots ih =>
      unfold takeLoop
      refine .ite (fun _ => (ih _).bind fun _ _ => .refl) fun _ => .bind .refl fun _ _ => ?_
      refine .bind (.ite (fun _ => ?_) fun _ => .refl) fun _ _ => ?_
      · exact .map ((sub_refuses le _ _).bind fun _ _ => .refl)
      · exact (sub_refuses le _ _).bind fun left _ => (ih left).bind fun _ _ => .refl

theorem takeLots_refuses (lots : List Lot) (q : Money) :
    Refuses (takeLots A lots q) (takeLots B lots q) :=
  (takeLoop_refuses le lots q).bind fun _ _ => .refl

theorem remainingPosition_refuses (p : Position) (lots : List Lot) (r : Money) :
    Refuses (remainingPosition A p lots r) (remainingPosition B p lots r) := by
  refine (signedTotal_refuses le lots).bind fun q _ => .bind (.ite (fun _ => ?_) fun _ => .refl) ?_
  · exact (costTotal_refuses le lots).bind fun c _ => (abs_refuses le q).bind fun b _ =>
      div_refuses le c b
  · exact fun avg _ => makePosition_refuses le _ _ q avg r lots

theorem increaseTrade_refuses (acc : String) (p : Position) (delta : Money) (t : Trade) :
    Refuses (increaseTrade A acc p delta t) (increaseTrade B acc p delta t) := by
  refine (add_refuses le _ _).bind fun nq _ => .bind .refl fun lot _ => ?_
  refine (abs_refuses le _).bind fun b _ => (mul_refuses le _ b).bind fun held _ => ?_
  refine (mul_refuses le _ _).bind fun pq _ => (add_refuses le held pq).bind fun w _ => ?_
  refine (abs_refuses le nq).bind fun c _ => (div_refuses le w c).bind fun avg _ => ?_
  exact makePosition_refuses le _ _ nq avg _ _

theorem reduceTrade_refuses (acc : String) (p : Position) (delta : Money) (t : Trade) :
    Refuses (reduceTrade A acc p delta t) (reduceTrade B acc p delta t) := by
  refine (abs_refuses le _).bind fun a _ => (abs_refuses le _).bind fun b _ => ?_
  refine (consumeLots_refuses le _ _ _ _).bind fun closed _ => ?_
  refine (add_refuses le _ _).bind fun r _ => (add_refuses le _ _).bind fun nq _ => ?_
  refine .ite (fun _ => ?_) fun _ => .ite (fun _ => makePosition_refuses le _ _ _ _ _ _) fun _ => ?_
  · refine (sub_refuses le _ _).bind fun _ _ => .bind .refl fun _ _ => ?_
    exact makePosition_refuses le _ _ _ _ _ _
  · refine (costTotal_refuses le _).bind fun _ _ => (abs_refuses le _).bind fun _ _ => ?_
    exact (div_refuses le _ _).bind fun _ _ => makePosition_refuses le _ _ _ _ _ _

theorem applyTrade_refuses (acc : String) (prior : Option Position) (t : Trade) :
    Refuses (applyTrade A acc prior t) (applyTrade B acc prior t) := by
  have hopen : ∀ carried delta, Refuses (openTrade A acc carried delta t)
      (openTrade B acc carried delta t) :=
    fun _ _ => .bind .refl fun _ _ => makePosition_refuses le _ _ _ _ _ _
  refine .bind (.ite (fun _ => .refl) fun _ => neg_refuses le _) fun delta _ => ?_
  cases prior with
  | none => exact hopen _ delta
  | some p =>
      refine .ite (fun _ => hopen _ delta) fun _ => .ite (fun _ => ?_) fun _ => ?_
      · exact increaseTrade_refuses le acc p delta t
      · exact reduceTrade_refuses le acc p delta t

/-! ## Fills -/

theorem comboUnits_refuses (m : OMap (String × Int) Money) (id : String) (legs : List ComboLeg)
    (i : Int) (best : Option Money) :
    Refuses (comboUnits A m id legs i best) (comboUnits B m id legs i best) := by
  induction legs generalizing i best with
  | nil => exact .refl
  | cons leg legs ih =>
      unfold comboUnits
      exact (divI_refuses le _ _).bind fun _ _ => ih _ _

theorem recordFilled_refuses (st : AccountState) (o : Order) (leg : Option (Int × ComboLeg))
    (f : Fill) : Refuses (recordFilled A st o leg f) (recordFilled B st o leg f) := by
  unfold recordFilled
  cases leg with
  | none => exact (add_refuses le _ _).bind fun _ _ => .refl
  | some l =>
      refine (add_refuses le _ _).bind fun now _ => (mulI_refuses le _ _).bind fun ordered _ => ?_
      exact .bind .refl fun _ _ => (comboUnits_refuses le _ _ _ _ _).bind fun _ _ => .refl

theorem onFill_refuses (st : AccountState) (f : Fill) :
    Refuses (onFill A st f) (onFill B st f) := by
  unfold onFill
  refine .bind .refl fun o _ => .bind .refl fun leg _ => .bind .refl fun _ _ => ?_
  refine .bind .refl fun m _ => (mul_refuses le _ _).bind fun qp _ => ?_
  refine (mulI_refuses le qp m).bind fun gross _ => ?_
  refine .bind (.ite (fun _ => .refl) fun _ => neg_refuses le gross) fun signed _ => ?_
  refine (sub_refuses le _ _).bind fun delta _ => (applyTrade_refuses le _ _ _).bind fun p _ => ?_
  refine (sub_refuses le _ _).bind fun realized _ => ?_
  refine (recordFilled_refuses le _ o leg f).bind fun st₁ _ => .bind .refl fun st₂ _ => ?_
  refine (add_refuses le _ _).bind fun cash _ => (sub_refuses le _ _).bind fun d _ => ?_
  exact (add_refuses le _ _).bind fun _ _ => .refl

/-! ## Option lifecycle -/

theorem intrinsic_refuses (c : OptionContract) (price : Money) :
    Refuses (intrinsic A c price) (intrinsic B c price) := by
  refine .ite (fun _ => .refl) fun _ => .bind (.mapError ?_) fun _ _ => .refl
  exact .ite (fun _ => le.decSub _ _) fun _ => le.decSub _ _

theorem delivery_refuses (c : OptionContract) (held : Bool) (premium : Money) :
    Refuses (delivery A c held premium) (delivery B c held premium) := by
  refine .ite (fun _ => .refl) fun _ => .ite (fun _ => ?_) fun _ => ?_
  · exact (le.decAdd _ _).mapError.bind fun _ _ => .refl
  · exact (le.decSub _ _).mapError.bind fun _ _ => .refl

theorem deliverLot_refuses (acc label : String) (n : OptionLifecycle) (kind : EventKind)
    (held : Side) (shares : Contract) (s : Settled) (lot : Lot) :
    Refuses (deliverLot A acc label n kind held shares s lot)
      (deliverLot B acc label n kind held shares s lot) := by
  unfold deliverLot
  refine (delivery_refuses le _ _ _).mapError.bind fun terms _ => ?_
  refine (mulI_refuses le _ _).bind fun q _ => .bind .refl fun m _ => ?_
  refine (applyTrade_refuses le _ _ _).bind fun p _ => (sub_refuses le _ _).bind fun d _ => ?_
  refine (add_refuses le _ _).bind fun realized _ => (mul_refuses le _ _).bind fun paid _ => ?_
  exact .bind (.ite (fun _ => sub_refuses le _ _) fun _ => add_refuses le _ _) fun _ _ => .refl

theorem settleCash_refuses (st : AccountState) (n : OptionLifecycle) (p : Position) (exit : Money) :
    Refuses (settleCash A st n p exit) (settleCash B st n p exit) := by
  unfold settleCash
  refine (consumeLots_refuses le _ _ _ _).bind fun closed _ => (add_refuses le _ _).bind fun r _ => ?_
  refine (add_refuses le _ _).bind fun rp _ => (remainingPosition_refuses le p _ rp).bind fun _ _ => ?_
  refine (mul_refuses le _ _).bind fun x _ => (mulI_refuses le x _).bind fun amount _ => ?_
  exact .bind (.ite (fun _ => add_refuses le _ _) fun _ => sub_refuses le _ _) fun _ _ => .refl

theorem settleShares_refuses (st : AccountState) (label : String) (n : OptionLifecycle)
    (kind : EventKind) (p : Position) :
    Refuses (settleShares A st label n kind p) (settleShares B st label n kind p) := by
  unfold settleShares
  refine (takeLots_refuses le _ _).bind fun split _ => ?_
  refine (remainingPosition_refuses le p _ _).bind fun rem _ => .bind .refl fun symbol _ => ?_
  exact .bind .refl fun shares _ => .foldlM (deliverLot_refuses le _ _ _ _ _ _) _ _

theorem onLifecycle_refuses (st : AccountState) (n : OptionLifecycle) (kind : EventKind) :
    Refuses (onLifecycle A st n kind) (onLifecycle B st n kind) := by
  unfold onLifecycle
  refine .bind .refl fun occ _ => .bind ?_ fun p _ => ?_
  · refine .bind .refl fun p _ => .bind .refl fun _ _ => ?_
    exact (abs_refuses le _).bind fun _ _ => .refl
  · refine (intrinsic_refuses le _ _).mapError.bind fun value _ => ?_
    refine .bind .refl fun cashSettled _ => .bind .refl fun american _ => .bind .refl fun _ _ => ?_
    refine .bind (.ite (fun _ => ?_) fun _ => ?_) fun _ _ => (add_refuses le _ _).bind fun _ _ => .refl
    · exact settleCash_refuses le _ _ _ _
    · exact settleShares_refuses le _ _ _ _ _

/-! ## The fold -/

theorem dispatch_refuses (st : AccountState) (e : Event) :
    Refuses (dispatch A st e) (dispatch B st e) := by
  unfold dispatch
  split
  case h_9 f _ => exact onFill_refuses le st f
  case h_10 c _ => exact (add_refuses le _ _).bind fun _ _ => .refl
  case h_15 n _ => exact onLifecycle_refuses le st n e.kind
  case h_19 f _ =>
    intro st' h
    unfold mirrorStep at h ⊢
    cases hm : onMirrorFill A st.mirror f with
    | ok m =>
        simp only [hm] at h
        simpa only [onMirrorFill_refuses le _ _ _ hm] using h
    | error x =>
        simp only [hm] at h
        split at h
        · simp [fe] at h
        · cases h
  all_goals exact .refl

theorem applyEvent_refuses (st : AccountState) (e : Event) :
    Refuses (applyEvent A st e) (applyEvent B st e) :=
  (dispatch_refuses le st e).bind fun _ _ => .refl

theorem fold_refuses (events : List Event) : Refuses (fold A events) (fold B events) :=
  .foldlM (fun _ _ => (applyEvent_refuses le _ _).bind fun _ _ => .refl) _ _

omit le

/-- No operation of the run rounds: the arithmetic that refuses rounded results accepts the log. -/
def ExactRun (A : Arith) (events : List Event) : Prop := (fold A.exact events).isOk = true

instance (A : Arith) (events : List Event) : Decidable (ExactRun A events) :=
  inferInstanceAs (Decidable (_ = true))

theorem ExactRun.fold_eq {events : List Event} {states : States} (hx : ExactRun A events)
    (h : fold A events = .ok states) : fold A.exact events = .ok states := by
  unfold ExactRun at hx
  cases he : fold A.exact events with
  | error x => rw [he] at hx; cases hx
  | ok s =>
      have hs := fold_refuses A.exact_le events s he
      rw [h] at hs
      cases hs
      rfl

end TradeEngine
