import TradeEngine.Store.Lemmas.Batch
import TradeEngine.Store.Outbox

/-!
# What a run of the outbox allows

The rule every publication and every table follows, and the drain under it. A drain faces the items it
read: in `id` order, and every other undelivered row of its destination came after them.
-/

namespace TradeEngine

open Lib

/-! ## Rows that arrive -/

/-- The same item, whatever has become of it. -/
def OutboxRow.Same (r r' : OutboxRow) : Prop :=
  r'.id = r.id ∧ r'.eventSeq = r.eventSeq ∧ r'.destination = r.destination ∧
    r'.payload = r.payload ∧ r'.createdAt = r.createdAt

theorem OutboxRow.Same.refl (r : OutboxRow) : r.Same r := ⟨rfl, rfl, rfl, rfl, rfl⟩

theorem OutboxRow.Same.trans {r r' r'' : OutboxRow} (h : r.Same r') (h' : r'.Same r'') :
    r.Same r'' :=
  ⟨h'.1.trans h.1, h'.2.1.trans h.2.1, h'.2.2.1.trans h.2.2.1, h'.2.2.2.1.trans h.2.2.2.1,
    h'.2.2.2.2.trans h.2.2.2.2⟩

namespace Db

/-- No item is lost, and a delivered one stays as it is. -/
def Keeps (db db' : Db) : Prop :=
  ∀ r ∈ db.outbox, ∃ r' ∈ db'.outbox, r.Same r' ∧ (r.status = .delivered → r' = r)

theorem Keeps.refl (db : Db) : db.Keeps db := fun r hr => ⟨r, hr, .refl r, fun _ => rfl⟩

theorem Keeps.trans {db db' db'' : Db} (h : db.Keeps db') (h' : db'.Keeps db'') : db.Keeps db'' := by
  intro r hr
  obtain ⟨r', hr', hsame, hstays⟩ := h r hr
  obtain ⟨r'', hr'', hsame', hstays'⟩ := h' r' hr'
  refine ⟨r'', hr'', hsame.trans hsame', fun hd => ?_⟩
  have hr'r := hstays hd
  rw [hr'r] at hstays'
  exact hstays' hd

/-- Only new rows, under new numbers. -/
structure Grew (db db' : Db) : Prop where
  counter : db.outboxSequence ≤ db'.outboxSequence
  added : ∃ rows, db'.outbox = db.outbox ++ rows ∧ (rows.map (·.id)).Nodup ∧
    ∀ r ∈ rows, db.outboxSequence < r.id ∧ r.id ≤ db'.outboxSequence ∧ r.status = .pending

theorem Grew.refl (db : Db) : db.Grew db := ⟨le_rfl, [], by simp⟩

theorem Grew.keeps {db db' : Db} (h : db.Grew db') : db.Keeps db' := by
  obtain ⟨rows, heq, -, -⟩ := h.added
  intro r hr
  exact ⟨r, by simp [heq, hr], .refl r, fun _ => rfl⟩

theorem grew_insertOutbox {db db' : Db} {seq : Nat} {destination payload : String} {t : DateTime}
    (h : db.insertOutbox seq destination payload t = .ok db') : db.Grew db' := by
  obtain ⟨-, -, heq, hcount⟩ := insertOutbox_ok h
  refine ⟨by omega, _, heq, by simp, ?_⟩
  intro r hr
  rw [List.mem_singleton.mp hr]
  exact ⟨Nat.lt_succ_self _, hcount.ge, rfl⟩

theorem itemRows_ids (seq m : Nat) (t : DateTime) (items : List (String × String)) :
    (itemRows seq m t items).map (·.id) = List.range' (m + 1) items.length := by
  induction items generalizing m with
  | nil => rfl
  | cons x rest ih => simp [itemRows, ih, List.range'_succ]

theorem outboxRows_ids (n m : Nat) (entries : List Entry) :
    (outboxRows n m entries).map (·.id) =
      List.range' (m + 1) (entries.map (·.outbox.length)).sum := by
  induction entries generalizing n m with
  | nil => rfl
  | cons x rest ih =>
      have hshift : m + x.outbox.length + 1 = m + 1 + x.outbox.length := by omega
      simp only [outboxRows, List.map_append, itemRows_ids, ih, List.map_cons, List.sum_cons]
      rw [hshift, List.range'_append_1]

theorem itemRows_pending {seq m : Nat} {t : DateTime} {items : List (String × String)} {r : OutboxRow}
    (h : r ∈ itemRows seq m t items) : r.status = .pending := by
  induction items generalizing m with
  | nil => simp [itemRows] at h
  | cons x rest ih =>
      rcases List.mem_cons.mp h with rfl | h
      · rfl
      · exact ih h

theorem outboxRows_pending {n m : Nat} {entries : List Entry} {r : OutboxRow}
    (h : r ∈ outboxRows n m entries) : r.status = .pending := by
  induction entries generalizing n m with
  | nil => simp [outboxRows] at h
  | cons x rest ih =>
      rcases List.mem_append.mp h with h | h
      · exact itemRows_pending h
      · exact ih h

theorem Inserted.grew {db db' : Db} {entries : List Entry} (h : db.Inserted db' entries) :
    db.Grew db' := by
  refine ⟨by rw [h.outboxSequence]; omega, _, h.outbox, ?_, ?_⟩
  · rw [outboxRows_ids]
    exact List.nodup_range'
  · intro r hr
    have hid : r.id ∈ (outboxRows db.sequence db.outboxSequence
        (newEntries db.commands entries)).map (·.id) := List.mem_map_of_mem hr
    rw [outboxRows_ids, List.mem_range'_1] at hid
    refine ⟨by omega, ?_, outboxRows_pending hr⟩
    rw [h.outboxSequence]
    omega

end Db

namespace Outbox

/-! ## The rule -/

/-- The tables as the last change left them. -/
def tableAfter (t : List Happening) : Db :=
  t.foldl (fun db h => match h with
    | .table db' => db'
    | .published _ => db
    | .confirmed _ => db) .empty

/-- A table keeps every earlier item, delivered or pending, and only what was confirmed is delivered. -/
def TableAllowed (past : List Happening) (db : Db) : Prop :=
  (∀ r ∈ db.outbox, r.status = .delivered → ∃ item, .confirmed item ∈ past ∧ item.id = r.id) ∧
  (∀ db₀, .table db₀ ∈ past → db₀.Keeps db) ∧
  ∀ r ∈ db.outbox, r.status = .delivered ∨ r ∈ db.pendingOutbox (some r.destination) true

/-- An item is published while it is pending, with every earlier one of its destination delivered, and
not after any table had it delivered. -/
def PublishAllowed (past : List Happening) (item : OutboxRow) : Prop :=
  (item ∈ (tableAfter past).outbox ∧ item.status ≠ .delivered) ∧
  (∀ r ∈ (tableAfter past).outbox, r.destination = item.destination → r.id < item.id →
    r.status = .delivered) ∧
  ∀ db₀, .table db₀ ∈ past → ∀ r ∈ db₀.outbox, r.status = .delivered → r.id ≠ item.id

def Allowed (past : List Happening) : Happening → Prop
  | .table db => TableAllowed past db
  | .published item => PublishAllowed past item
  | .confirmed item => .published item ∈ past

theorem mem_pendingOutbox {db : Db} {destination : String} {r : OutboxRow} :
    r ∈ db.pendingOutbox (some destination) true ↔
      r ∈ db.outbox ∧ r.destination = destination ∧ r.status ≠ .delivered := by
  unfold Db.pendingOutbox
  rw [List.mem_insertionSort, List.mem_filter]
  simp

/-! ## What holds between calls -/

structure Sound (w : World) : Prop where
  current : tableAfter w.trace = w.db
  orderly : Orderly Allowed w.trace
  numbered : ∀ r ∈ w.db.outbox, r.id ≤ w.db.outboxSequence
  distinct : (w.db.outbox.map (·.id)).Nodup
  confirmed : ∀ r ∈ w.db.outbox, r.status = .delivered →
    ∃ item, .confirmed item ∈ w.trace ∧ item.id = r.id
  kept : ∀ db₀, .table db₀ ∈ w.trace → db₀.Keeps w.db

/-- The world with another table. -/
def World.put (w : World) (db : Db) : World := { w with db, trace := w.trace ++ [.table db] }

theorem Sound.empty : Sound .empty where
  current := rfl
  orderly := .nil
  numbered r hr := by simp [World.empty, Db.empty] at hr
  distinct := by simp [World.empty, Db.empty]
  confirmed r hr := by simp [World.empty, Db.empty] at hr
  kept db₀ h := by simp [World.empty] at h

theorem Sound.unique {w : World} (h : Sound w) {r r' : OutboxRow} (hr : r ∈ w.db.outbox)
    (hr' : r' ∈ w.db.outbox) (hid : r.id = r'.id) : r = r' :=
  List.inj_on_of_nodup_map h.distinct hr hr' hid

/-- A table may follow when it keeps the items and delivers only what was confirmed. -/
theorem Sound.put {w : World} {db : Db} (h : Sound w) (hkeeps : w.db.Keeps db)
    (hnumbered : ∀ r ∈ db.outbox, r.id ≤ db.outboxSequence) (hdistinct : (db.outbox.map (·.id)).Nodup)
    (hconfirmed : ∀ r ∈ db.outbox, r.status = .delivered →
      ∃ item, .confirmed item ∈ w.trace ∧ item.id = r.id) : Sound (w.put db) where
  current := by simp [World.put, tableAfter]
  orderly := by
    refine h.orderly.snoc ⟨hconfirmed, fun db₀ h₀ => (h.kept db₀ h₀).trans hkeeps, ?_⟩
    intro r hr
    by_cases hd : r.status = .delivered
    · exact .inl hd
    · exact .inr (mem_pendingOutbox.mpr ⟨hr, rfl, hd⟩)
  numbered := hnumbered
  distinct := hdistinct
  confirmed r hr hd := by
    obtain ⟨item, hitem, hid⟩ := hconfirmed r hr hd
    exact ⟨item, List.mem_append_left _ hitem, hid⟩
  kept db₀ h₀ := by
    rcases List.mem_append.mp h₀ with h₀ | h₀
    · exact (h.kept db₀ h₀).trans hkeeps
    · cases List.mem_singleton.mp h₀
      exact .refl db

theorem Sound.tick {w : World} (h : Sound w) (n : Nat) : Sound { w with tick := n } :=
  ⟨h.current, h.orderly, h.numbered, h.distinct, h.confirmed, h.kept⟩

/-- What new rows and the count of calls cannot undo. -/
structure Lasting (I : World → Prop) : Prop where
  grow : ∀ w db, I w → w.db.Grew db → I (w.put db)
  tick : ∀ w n, I w → I { w with tick := n }

theorem Sound.grow {w : World} {db : Db} (h : Sound w) (hgrew : w.db.Grew db) : Sound (w.put db) := by
  obtain ⟨rows, heq, hnodup, hrows⟩ := hgrew.added
  have hmem : ∀ r, r ∈ db.outbox ↔ r ∈ w.db.outbox ∨ r ∈ rows := by simp [heq]
  refine h.put hgrew.keeps ?_ ?_ ?_
  · intro r hr
    rcases (hmem r).mp hr with hr | hr
    · exact (h.numbered r hr).trans hgrew.counter
    · exact (hrows r hr).2.1
  · rw [heq, List.map_append]
    refine List.nodup_append.mpr ⟨h.distinct, hnodup, ?_⟩
    intro n hn n' hn' heq'
    obtain ⟨r, hr, rfl⟩ := List.mem_map.mp hn
    obtain ⟨r', hr', rfl⟩ := List.mem_map.mp hn'
    have hold := h.numbered r hr
    have hnew := (hrows r' hr').1
    omega
  · intro r hr hd
    rcases (hmem r).mp hr with hr | hr
    · exact h.confirmed r hr hd
    · rw [(hrows r hr).2.2] at hd
      cases hd

theorem lasting_sound : Lasting Sound := ⟨fun _ _ h hgrew => h.grow hgrew, fun _ n h => h.tick n⟩

/-- What has happened stays so. -/
theorem Lasting.and_mem {I : World → Prop} (h : Lasting I) (x : Happening) :
    Lasting fun w => I w ∧ x ∈ w.trace where
  grow w db hI hgrew := ⟨h.grow w db hI.1 hgrew, List.mem_append_left _ hI.2⟩
  tick w n hI := ⟨h.tick w n hI.1, hI.2⟩

/-- The items a drain still has before it. -/
structure Facing (destination : String) (items : List OutboxRow) (w : World) : Prop where
  sound : Sound w
  held : ∀ item ∈ items, item ∈ w.db.outbox ∧ item.destination = destination ∧
    item.status ≠ .delivered
  sorted : items.Pairwise fun r r' => r.id < r'.id
  others : ∀ r ∈ w.db.outbox, r.destination = destination → r.status ≠ .delivered →
    r ∈ items ∨ ∀ item ∈ items, item.id < r.id

/-- No row of that number is delivered. -/
structure Owed (id : Nat) (w : World) : Prop where
  sound : Sound w
  owed : ∀ r ∈ w.db.outbox, r.id = id → r.status ≠ .delivered

theorem lasting_facing (destination : String) (items : List OutboxRow) :
    Lasting (Facing destination items) where
  grow w db h hgrew := by
    obtain ⟨rows, heq, -, hrows⟩ := hgrew.added
    refine ⟨h.sound.grow hgrew, ?_, h.sorted, ?_⟩
    · intro item hitem
      obtain ⟨hmem, hdest, hstatus⟩ := h.held item hitem
      exact ⟨by simp [World.put, heq, hmem], hdest, hstatus⟩
    · intro r hr hdest hstatus
      have hr' : r ∈ w.db.outbox ∨ r ∈ rows := by simpa [World.put, heq] using hr
      rcases hr' with hr' | hr'
      · exact h.others r hr' hdest hstatus
      · refine .inr fun item hitem => ?_
        have hold := h.sound.numbered item (h.held item hitem).1
        have hnew := (hrows r hr').1
        omega
  tick w n h := ⟨h.sound.tick n, h.held, h.sorted, h.others⟩

theorem lasting_owed (id : Nat) : Lasting (Owed id) where
  grow w db h hgrew := by
    obtain ⟨rows, heq, -, hrows⟩ := hgrew.added
    refine ⟨h.sound.grow hgrew, ?_⟩
    intro r hr hid
    have hr' : r ∈ w.db.outbox ∨ r ∈ rows := by simpa [World.put, heq] using hr
    rcases hr' with hr' | hr'
    · exact h.owed r hr' hid
    · rw [(hrows r hr').2.2]
      decide
  tick w n h := ⟨h.sound.tick n, h.owed⟩

section Facing

variable {destination : String} {item : OutboxRow} {rest : List OutboxRow} {w : World}

theorem Facing.owed (h : Facing destination (item :: rest) w) : Owed item.id w where
  sound := h.sound
  owed r hr hid := by
    obtain ⟨hmem, -, hstatus⟩ := h.held item List.mem_cons_self
    rw [h.sound.unique hr hmem hid]
    exact hstatus

/-- The first item may be published. -/
theorem Facing.allowed (h : Facing destination (item :: rest) w) : PublishAllowed w.trace item := by
  obtain ⟨hmem, hdest, hstatus⟩ := h.held item List.mem_cons_self
  unfold PublishAllowed
  rw [h.sound.current]
  refine ⟨⟨hmem, hstatus⟩, ?_, ?_⟩
  · intro r hr hdest' hlt
    by_contra hr'
    rcases h.others r hr (hdest'.trans hdest) hr' with hin | hlater
    · rcases List.mem_cons.mp hin with rfl | hin
      · exact lt_irrefl _ hlt
      · exact lt_asymm hlt (List.rel_of_pairwise_cons h.sorted hin)
    · exact lt_asymm hlt (hlater item List.mem_cons_self)
  · intro db₀ h₀ r hr hd hid
    obtain ⟨r', hr', hsame, hstays⟩ := h.sound.kept db₀ h₀ r hr
    have hr'r := hstays hd
    rw [hr'r] at hr'
    exact h.owed.owed r hr' hid hd

theorem Sound.happens {h : Happening} (hs : Sound w) (hallowed : Allowed w.trace h)
    (hno : ∀ db, h ≠ .table db) : Sound { w with trace := w.trace ++ [h] } where
  current := by
    have hlast : tableAfter (w.trace ++ [h]) = tableAfter w.trace := by
      cases h with
      | table db => exact absurd rfl (hno db)
      | published item => simp [tableAfter]
      | confirmed item => simp [tableAfter]
    exact hlast.trans hs.current
  orderly := hs.orderly.snoc hallowed
  numbered := hs.numbered
  distinct := hs.distinct
  confirmed r hr hd := by
    obtain ⟨item, hitem, hid⟩ := hs.confirmed r hr hd
    exact ⟨item, List.mem_append_left _ hitem, hid⟩
  kept db₀ h₀ := by
    rcases List.mem_append.mp h₀ with h₀ | h₀
    · exact hs.kept db₀ h₀
    · exact absurd (List.mem_singleton.mp h₀).symm (hno db₀)

theorem Facing.happens {items : List OutboxRow} {h : Happening} (hf : Facing destination items w)
    (hallowed : Allowed w.trace h) (hno : ∀ db, h ≠ .table db) :
    Facing destination items { w with trace := w.trace ++ [h] } :=
  ⟨hf.sound.happens hallowed hno, hf.held, hf.sorted, hf.others⟩

end Facing

/-! ## Updates -/

section Update

variable {w : World} {f : OutboxRow → OutboxRow} {n : Nat}

theorem mem_updateOutbox {db : Db} {r : OutboxRow} :
    r ∈ (db.updateOutbox n f).outbox ↔ ∃ r₀ ∈ db.outbox, (if r₀.id = n then f r₀ else r₀) = r := by
  unfold Db.updateOutbox
  exact List.mem_map

/-- An update of an undelivered row that keeps the item and delivers it only when confirmed. -/
theorem Sound.update (h : Sound w) (howed : ∀ r ∈ w.db.outbox, r.id = n → r.status ≠ .delivered)
    (hsame : ∀ r : OutboxRow, r.Same (f r))
    (hconfirmed : ∀ r, (f r).status = .delivered → ∃ item, .confirmed item ∈ w.trace ∧ item.id = n) :
    Sound (w.put (w.db.updateOutbox n f)) := by
  have hids : ∀ r : OutboxRow, (if r.id = n then f r else r).id = r.id := by
    intro r
    split
    · exact (hsame r).1
    · rfl
  refine h.put ?_ ?_ ?_ ?_
  · intro r hr
    refine ⟨_, mem_updateOutbox.mpr ⟨r, hr, rfl⟩, ?_, ?_⟩
    · split
      · exact hsame r
      · exact .refl r
    · intro hd
      rw [if_neg fun hid => howed r hr hid hd]
  · intro r hr
    obtain ⟨r₀, hr₀, rfl⟩ := mem_updateOutbox.mp hr
    rw [hids]
    exact h.numbered r₀ hr₀
  · unfold Db.updateOutbox
    rw [List.map_map]
    have hcomp : (fun r : OutboxRow => r.id) ∘ (fun r => if r.id = n then f r else r) = (·.id) :=
      funext hids
    rw [hcomp]
    exact h.distinct
  · intro r hr hd
    obtain ⟨r₀, hr₀, rfl⟩ := mem_updateOutbox.mp hr
    rw [hids]
    by_cases hid : r₀.id = n
    · rw [if_pos hid] at hd
      obtain ⟨item, hitem, hitem'⟩ := hconfirmed r₀ hd
      exact ⟨item, hitem, hitem'.trans hid.symm⟩
    · rw [if_neg hid] at hd
      exact h.confirmed r₀ hr₀ hd

theorem Owed.fail (h : Owed n w) (error : String) : Owed n (w.put (w.db.failOutbox n error)) where
  sound := h.sound.update h.owed (fun r => ⟨rfl, rfl, rfl, rfl, rfl⟩) fun r hd => by cases hd
  owed r hr hid hd := by
    obtain ⟨r₀, hr₀, rfl⟩ := mem_updateOutbox.mp hr
    by_cases hid₀ : r₀.id = n
    · rw [if_pos hid₀] at hd
      cases hd
    · rw [if_neg hid₀] at hid
      exact hid₀ hid

theorem Facing.deliver {destination : String} {item : OutboxRow} {rest : List OutboxRow}
    (h : Facing destination (item :: rest) w) (hc : .confirmed item ∈ w.trace) (t : DateTime) :
    Facing destination rest (w.put (w.db.deliverOutbox item.id t)) where
  sound := h.sound.update h.owed.owed (fun r => ⟨rfl, rfl, rfl, rfl, rfl⟩) fun _ _ => ⟨item, hc, rfl⟩
  held r hr := by
    obtain ⟨hmem, hdest, hstatus⟩ := h.held r (List.mem_cons_of_mem _ hr)
    have hne : r.id ≠ item.id := (List.rel_of_pairwise_cons h.sorted hr).ne'
    exact ⟨mem_updateOutbox.mpr ⟨r, hmem, by rw [if_neg hne]⟩, hdest, hstatus⟩
  sorted := h.sorted.of_cons
  others r hr hdest hstatus := by
    obtain ⟨r₀, hr₀, rfl⟩ := mem_updateOutbox.mp hr
    by_cases hid : r₀.id = item.id
    · rw [if_pos hid] at hstatus
      exact absurd rfl hstatus
    · rw [if_neg hid] at hdest hstatus ⊢
      rcases h.others r₀ hr₀ hdest hstatus with hin | hlater
      · rcases List.mem_cons.mp hin with rfl | hin
        · exact absurd rfl hid
        · exact .inl hin
      · exact .inr fun x hx => hlater x (List.mem_cons_of_mem _ hx)

end Update

/-! ## Calls -/

section Calls

variable {A : Arith} {H : Host} {I : World → Prop}

/-- A transaction commits what its statement made, or changes nothing. -/
theorem transaction_post {fate : Fate} {statement : Db → R Db} {w : World}
    {Q : Unit → World → Prop} {E : Raised → World → Prop}
    (hok : ∀ db, statement w.db = .ok db → Q () (w.put db))
    (hcut : ∀ db, statement w.db = .ok db → E .interrupt (w.put db)) (hrefused : ∀ e, E e w) :
    Prog.Post Q E (transaction fate statement w) := by
  unfold transaction
  refine Prog.post_bind.mpr (.get ?_)
  cases hst : statement w.db with
  | error e =>
      cases fate with
      | commits => exact hrefused _
      | refused e => exact hrefused _
      | cutOff done => cases done <;> exact hrefused _
  | ok db =>
      cases fate with
      | commits => exact hok db hst
      | refused e => exact hrefused _
      | cutOff done =>
          cases done with
          | false => exact hrefused _
          | true => exact hcut db hst

theorem arrive_post (hI : Lasting I) (a : Arrival) :
    Prog.Triple I (arrive A a) (fun _ => I) fun _ => I := by
  intro w hw
  cases a with
  | batch faults entries =>
      have hspec := write_spec faults entries (Conn.Coherent.opened (A := A) w.db)
      have hgrew : w.db.Grew (write A faults entries (.opened w.db)).2.committed := by
        rcases hr : write A faults entries (.opened w.db) with ⟨e | evs, c⟩
        all_goals rw [hr] at hspec
        · exact hspec.1 ▸ .refl _
        · exact hspec.1.grew
      have hput := hI.grow w _ hw hgrew
      refine Prog.post_bind.mpr (.get ?_)
      refine Prog.post_bind.mpr ?_
      change Prog.Post _ _ (_, _)
      simp only
      cases (write A faults entries (.opened w.db)).1 with
      | ok evs => exact hput
      | error e => exact hput
  | enqueue fate seq destination payload createdAt =>
      refine Prog.post_bind.mpr (.get ?_)
      cases w.db.eventTimestamp seq with
      | none => exact hw
      | some ts =>
          have hgrew : ∀ db, (w.db.insertOutbox seq destination payload (createdAt.getD ts)).mapError
              (fun e => { e with msg :=
                s!"Outbox entry violates constraint (e.g. duplicate or missing foreign key): {e.msg}" })
              = .ok db → w.db.Grew db := by
            intro db h
            cases hins : w.db.insertOutbox seq destination payload (createdAt.getD ts) with
            | error e => simp [hins, Except.mapError] at h
            | ok db' =>
                rw [hins] at h
                cases h
                exact Db.grew_insertOutbox hins
          exact transaction_post (fun db h => hI.grow w db hw (hgrew db h))
            (fun db h => hI.grow w db hw (hgrew db h)) fun _ => hw

theorem call_post {E : Raised → World → Prop} (hI : Lasting I) :
    Prog.Triple I (call A H) (fun _ => I) E := by
  intro w hw
  refine Prog.post_bind.mpr (.get ?_)
  refine Prog.post_bind.mpr (.modify ?_)
  have hloop : Prog.Triple I (Prog.forEach (fun a => discard (Prog.attempt (arrive A a)))
      (H.arrivals w.tick)) (fun _ => I) E := by
    refine Prog.Triple.forEach fun a _ => ?_
    intro w' hw'
    refine Prog.post_discard.mpr (Prog.post_attempt.mpr ?_)
    exact arrive_post hI a w' hw'
  exact Prog.post_bind.mpr ((hloop _ (hI.tick w _ hw)).weaken (fun _ _ h => h) fun _ _ h => h)

theorem raises_post {x : Option Raised} {E : Raised → World → Prop} (hE : ∀ e w, I w → E e w) :
    Prog.Triple I (raises x) (fun _ => I) E := by
  intro w hw
  cases x with
  | none => exact hw
  | some e => exact hE e w hw

theorem destination_post {E : Raised → World → Prop} (hI : Lasting I) (hE : ∀ e w, I w → E e w) :
    Prog.Triple I (destination A H) (fun _ => I) E := by
  refine (call_post hI).bind fun n => ?_
  exact (raises_post hE).bind fun _ => Prog.Triple.pure fun _ h => h

theorem pending_post :
    Prog.Triple Sound (pending A H)
      (fun items w => Facing (strip H.destination) items w) fun _ => Sound := by
  refine (call_post lasting_sound).bind fun n => ?_
  refine (raises_post fun _ _ h => h).bind fun _ => Prog.Triple.gets ?_
  intro w hw
  refine ⟨hw, ?_, ?_, ?_⟩
  · intro item hitem
    exact mem_pendingOutbox.mp hitem
  · have hperm := List.perm_insertionSort (fun r r' : OutboxRow => r.id ≤ r'.id)
      (w.db.outbox.filter fun r => (some (strip H.destination)).all (r.destination = ·) &&
        if true then r.status ≠ .delivered else r.status = .pending)
    have hnodup : ((w.db.pendingOutbox (some (strip H.destination)) true).map (·.id)).Nodup := by
      refine ((hperm.map _).nodup_iff).mpr ?_
      exact hw.distinct.sublist (List.filter_sublist.map _)
    have hsorted : (w.db.pendingOutbox (some (strip H.destination)) true).Pairwise
        fun r r' => r.id ≤ r'.id := List.pairwise_insertionSort _ _
    rw [List.Nodup, List.pairwise_map] at hnodup
    exact (hsorted.and hnodup).imp fun h => lt_of_le_of_ne h.1 h.2
  · intro r hr hdest hstatus
    exact .inl (mem_pendingOutbox.mpr ⟨hr, hdest, hstatus⟩)

/-! ## One item -/

section Item

variable {dest : String} {item : OutboxRow} {rest : List OutboxRow}

theorem publish_post :
    Prog.Triple (Facing dest (item :: rest)) (publish A H item)
      (fun b w => Facing dest (item :: rest) w ∧ (b = true → .confirmed item ∈ w.trace))
      fun _ => Facing dest (item :: rest) := by
  intro w hw
  refine Prog.post_bind.mpr (.modify ?_)
  have hsent : Facing dest (item :: rest) { w with trace := w.trace ++ [.published item] } :=
    hw.happens hw.allowed fun db h => by cases h
  have hcall := call_post (A := A) (H := H) (E := fun _ => Facing dest (item :: rest))
    ((lasting_facing dest (item :: rest)).and_mem (.published item)) _ ⟨hsent, by simp⟩
  refine Prog.post_bind.mpr (hcall.weaken ?_ fun _ _ h => h)
  rintro n w' ⟨hw', hpub⟩
  refine Prog.post_bind.mpr (.lift ?_ fun _ _ => hw')
  intro b hb
  cases b with
  | false => exact ⟨hw', fun h => by cases h⟩
  | true =>
      refine Prog.post_bind.mpr (.modify ⟨hw'.happens hpub (fun db h => by cases h), fun _ => ?_⟩)
      simp

/-- An item that was not marked: only the end of the process may hide that it was. -/
def Missed (item : OutboxRow) (e : Raised) (w : World) : Prop :=
  Sound w ∧ (e ≠ .interrupt → Owed item.id w)

theorem Facing.missed {w : World} (h : Facing dest (item :: rest) w) (e : Raised) : Missed item e w :=
  ⟨h.sound, fun _ => h.owed⟩

theorem Owed.missed {w : World} (h : Owed item.id w) (e : Raised) : Missed item e w :=
  ⟨h.sound, fun _ => h⟩

theorem delivered_post :
    Prog.Triple (fun w => Facing dest (item :: rest) w ∧ .confirmed item ∈ w.trace)
      (delivered A H item) (fun _ => Facing dest rest) (Missed item) := by
  have hlasting := (lasting_facing dest (item :: rest)).and_mem (.confirmed item)
  refine (call_post hlasting).bind fun n => ?_
  intro w hw
  refine Prog.post_bind.mpr (.lift ?_ fun e _ => hw.1.missed e)
  intro t ht
  refine Prog.post_bind.mpr ((call_post hlasting w hw).weaken ?_ fun _ _ h => h)
  rintro n w' ⟨hw', hc⟩
  refine transaction_post ?_ ?_ fun e => hw'.missed e
  · intro db hdb
    cases hdb
    exact hw'.deliver hc t
  · intro db hdb
    cases hdb
    exact ⟨(hw'.deliver hc t).sound, fun h => absurd rfl h⟩

theorem failed_post {error : String} :
    Prog.Triple (Owed item.id) (failed A H item error) (fun _ => Owed item.id)
      fun _ => Owed item.id := by
  refine (call_post (lasting_owed item.id)).bind fun n => ?_
  refine Prog.Triple.bind (Q := fun _ => Owed item.id) ?_ fun _ => ?_
  · intro w hw
    refine transaction_post ?_ ?_ fun _ => hw
    all_goals
      intro db hdb
      cases hdb
      exact hw.fail error
  · refine (call_post (lasting_owed item.id)).bind fun n => ?_
    exact (raises_post fun _ _ h => h).bind fun _ => Prog.Triple.pure fun _ h => h

/-- What one item leaves: with no failure it is delivered. -/
def Tried (dest : String) (rest : List OutboxRow) : Option (OutboxRow × String) → World → Prop
  | none => Facing dest rest
  | some _ => Sound

theorem deliver_post :
    Prog.Triple (Facing dest (item :: rest)) (deliver A H item) (Tried dest rest) (Missed item) := by
  refine Prog.Triple.bind (publish_post.weaken (fun _ h => h) (fun _ _ h => h) fun e _ h => h.missed e)
    fun b => ?_
  cases b with
  | true =>
      refine Prog.Triple.bind (delivered_post.weaken (fun _ h => ⟨h.1, h.2 rfl⟩) (fun _ _ h => h)
        fun _ _ h => h) fun _ => ?_
      exact Prog.Triple.pure fun _ h => h
  | false =>
      refine Prog.Triple.bind (P := Owed item.id) ((destination_post (lasting_owed item.id)
        fun e _ h => h.missed e).weaken (fun _ h => h) (fun _ _ h => h) fun _ _ h => h)
          (fun name => ?_) |>.weaken (fun _ h => h.1.owed) (fun _ _ h => h) fun _ _ h => h
      refine Prog.Triple.bind (failed_post.weaken (fun _ h => h) (fun _ _ h => h)
        fun e _ h => h.missed e) fun failure => ?_
      exact Prog.Triple.pure fun _ h => h.sound

theorem failure_post :
    Prog.Triple (Facing dest (item :: rest)) (failure A H item) (Tried dest rest)
      fun _ => Sound := by
  intro w hw
  refine Prog.post_bind.mpr (Prog.post_attempt.mpr ?_)
  refine (deliver_post w hw).weaken (fun _ _ h => h) ?_
  intro e w' hw'
  cases e with
  | interrupt => exact Prog.post_bind.mpr hw'.1
  | unreadable e => exact Prog.post_bind.mpr hw'.1
  | exception text =>
      have howed : Owed item.id w' := hw'.2 fun h => by cases h
      refine Prog.post_bind.mpr ?_
      refine Prog.post_bind.mpr ((destination_post (lasting_owed item.id) (fun _ _ h => h) w'
        howed).weaken ?_ fun _ _ h => h.sound)
      intro name w₁ h₁
      refine Prog.post_bind.mpr ((failed_post w₁ h₁).weaken ?_ fun _ _ h => h.sound)
      exact fun _ _ h => h.sound

end Item

/-! ## Drains and runs -/

theorem drainItems_post {dest : String} (items : List OutboxRow) (result : Drained) :
    Prog.Triple (Facing dest items) (drainItems A H result items) (fun _ => Sound)
      fun _ => Sound := by
  induction items generalizing result with
  | nil => exact Prog.Triple.pure fun _ h => h.sound
  | cons item rest ih =>
      refine failure_post.bind fun value => ?_
      cases value with
      | none => exact ih _
      | some failure => exact Prog.Triple.pure fun _ h => h

theorem drain_post : Prog.Triple Sound (drain A H) (fun _ => Sound) fun _ => Sound := by
  refine pending_post.bind fun items => ?_
  refine (drainItems_post items _).bind fun result => ?_
  refine pending_post.bind fun left => ?_
  exact Prog.Triple.pure fun _ h => h.sound

theorem perform_post (c : Command) : Prog.Triple Sound (perform A c) (fun _ => Sound) fun _ => Sound := by
  intro w hw
  cases c with
  | arrive a => exact arrive_post lasting_sound a w hw
  | drain H => exact Prog.post_discard.mpr (drain_post w hw)

theorem run_sound (commands : List Command) : Sound (run A commands) := by
  have hfold : ∀ w, Sound w → Sound (commands.foldl (fun w c => (perform A c w).2) w) := by
    induction commands with
    | nil => exact fun w hw => hw
    | cons c commands ih =>
        intro w hw
        exact ih _ (perform_post c w hw).reached
  exact hfold .empty .empty

/-! ## Acknowledged items -/

/-- The items an arrival was to enqueue stand in the table. -/
def Arrival.Stored (db db' : Db) : Arrival → Prop
  | .batch _ entries =>
    ∀ r ∈ outboxRows db.sequence db.outboxSequence (newEntries db.commands entries), r ∈ db'.outbox
  | .enqueue _ seq destination payload _ =>
    ∃ r ∈ db'.outbox, r.eventSeq = seq ∧ r.destination = strip destination ∧ r.payload = payload ∧
      r.status = .pending

/-- An arrival that returns has its items in the table the run goes on with. -/
def Acknowledges (A : Arith) (a : Arrival) (w : World) : Prop :=
  ∀ w', arrive A a w = (.ok (), w') → a.Stored w.db w'.db ∧ .table w'.db ∈ w'.trace

theorem enqueue_stored {fate : Fate} {seq : Nat} {dest payload : String}
    {createdAt : Option DateTime} {w : World} :
    Prog.Post (fun _ w' => (Arrival.enqueue fate seq dest payload createdAt).Stored w.db w'.db ∧
      .table w'.db ∈ w'.trace) (fun _ _ => True) (enqueue fate seq dest payload createdAt w) := by
  refine Prog.post_bind.mpr (.get ?_)
  cases w.db.eventTimestamp seq with
  | none => exact trivial
  | some ts =>
      refine transaction_post ?_ (fun _ _ => trivial) fun _ => trivial
      intro db h
      cases hins : w.db.insertOutbox seq dest payload (createdAt.getD ts) with
      | error e => simp [hins, Except.mapError] at h
      | ok db' =>
          rw [hins] at h
          cases h
          obtain ⟨-, -, heq, -⟩ := Db.insertOutbox_ok hins
          exact ⟨⟨_, by rw [World.put, heq]; exact List.mem_append_right _ (List.mem_singleton.mpr rfl),
            rfl, rfl, rfl, rfl⟩, List.mem_append_right _ (List.mem_singleton.mpr rfl)⟩

theorem batch_stored {faults : Faults} {entries : List Entry} {w : World} :
    Prog.Post (fun _ w' => (Arrival.batch faults entries).Stored w.db w'.db ∧
      .table w'.db ∈ w'.trace) (fun _ _ => True) (arrive A (.batch faults entries) w) := by
  have hspec := write_spec faults entries (Conn.Coherent.opened (A := A) w.db)
  refine Prog.post_bind.mpr (.get ?_)
  refine Prog.post_bind.mpr ?_
  change Prog.Post _ _ (_, _)
  rcases hr : write A faults entries (.opened w.db) with ⟨e | evs, c⟩
  all_goals rw [hr] at hspec
  · exact trivial
  · refine ⟨fun r hr => ?_, List.mem_append_right _ (List.mem_singleton.mpr rfl)⟩
    change r ∈ c.committed.outbox
    rw [hspec.1.outbox]
    exact List.mem_append_right _ hr

theorem arrive_acknowledges (a : Arrival) (w : World) : Acknowledges A a w := by
  intro w' h
  cases a with
  | enqueue fate seq dest payload createdAt => exact enqueue_stored.ok h
  | batch faults entries => exact batch_stored.ok h

end Calls

end Outbox

end TradeEngine
