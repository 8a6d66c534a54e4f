import TradeEngine.Store.Lemmas.Fold

/-!
# One batch

What a batch should insert, and what holds at every point of the transaction: the account states held
are those of the transaction's own rows, and an account no entry has touched has none of them.
-/

namespace TradeEngine

open Lib

/-! ## What a batch inserts -/

/-- The entries whose command id is new: neither stored nor given earlier in the batch. -/
def newEntries (stored : List String) : List Entry → List Entry
  | [] => []
  | x :: rest =>
    match x.event.commandId with
    | none => x :: newEntries stored rest
    | some c =>
      if c ∈ stored then newEntries stored rest else x :: newEntries (c :: stored) rest

/-- One row for each entry, numbered after `n`. -/
def numberedRows (n : Nat) : List Entry → List StoredRow
  | [] => []
  | x :: rest => ⟨n + 1, x.event.toEventFields⟩ :: numberedRows (n + 1) rest

/-- The outbox rows of one event, numbered after `m`. -/
def itemRows (seq m : Nat) (createdAt : DateTime) : List (String × String) → List OutboxRow
  | [] => []
  | x :: rest =>
    ⟨m + 1, seq, strip x.1, x.2, .pending, 0, createdAt, none, none⟩ ::
      itemRows seq (m + 1) createdAt rest

/-- The outbox rows of all entries. -/
def outboxRows (n m : Nat) : List Entry → List OutboxRow
  | [] => []
  | x :: rest =>
    itemRows (n + 1) m x.event.tsUtc x.outbox ++ outboxRows (n + 1) (m + x.outbox.length) rest

/-- `db'` is `db` with exactly the new entries' rows and their outbox rows. -/
structure Db.Inserted (db db' : Db) (entries : List Entry) : Prop where
  events : db'.events =
    db.events ++ numberedRows db.sequence (newEntries db.commands entries)
  outbox : db'.outbox =
    db.outbox ++ outboxRows db.sequence db.outboxSequence (newEntries db.commands entries)
  sequence : db'.sequence = db.sequence + (newEntries db.commands entries).length
  outboxSequence : db'.outboxSequence =
    db.outboxSequence + ((newEntries db.commands entries).map (·.outbox.length)).sum

theorem newEntries_congr {s s' : List String} (h : ∀ c, c ∈ s ↔ c ∈ s') (entries : List Entry) :
    newEntries s entries = newEntries s' entries := by
  induction entries generalizing s s' with
  | nil => rfl
  | cons x rest ih =>
      simp only [newEntries]
      cases x.event.commandId with
      | none => rw [ih h]
      | some c =>
          simp only [h c]
          split
          · exact ih h
          · have hc : ∀ d, d ∈ c :: s ↔ d ∈ c :: s' := fun d => by simp [h d]
            rw [ih hc]

theorem newEntries_cons (s : List String) (x : Entry) (rest : List Entry) :
    newEntries s (x :: rest) =
      newEntries s [x] ++ newEntries (s ++ x.event.commandId.toList) rest := by
  simp only [newEntries]
  cases x.event.commandId with
  | none => simp
  | some c =>
      by_cases hmem : c ∈ s
      · have hsame : ∀ d, d ∈ s ↔ d ∈ s ++ (some c).toList := by
          intro d
          simp only [Option.toList_some, List.mem_append, List.mem_singleton]
          exact ⟨Or.inl, fun h => h.elim id fun h => h ▸ hmem⟩
        simp only [hmem, if_true, List.nil_append]
        exact newEntries_congr hsame rest
      · have hsame : ∀ d, d ∈ c :: s ↔ d ∈ s ++ (some c).toList := by
          intro d
          simp [or_comm]
        simp only [hmem, if_false, List.singleton_append]
        rw [newEntries_congr hsame]

theorem numberedRows_append (n : Nat) (xs ys : List Entry) :
    numberedRows n (xs ++ ys) = numberedRows n xs ++ numberedRows (n + xs.length) ys := by
  induction xs generalizing n with
  | nil => simp [numberedRows]
  | cons x xs ih => simp [numberedRows, ih, Nat.add_assoc, Nat.add_comm 1]

theorem outboxRows_append (n m : Nat) (xs ys : List Entry) :
    outboxRows n m (xs ++ ys) = outboxRows n m xs ++
      outboxRows (n + xs.length) (m + (xs.map (·.outbox.length)).sum) ys := by
  induction xs generalizing n m with
  | nil => simp [outboxRows]
  | cons x xs ih => simp [outboxRows, ih, Nat.add_assoc, Nat.add_comm 1]

theorem filterMap_numberedRows (n : Nat) (xs : List Entry) :
    (numberedRows n xs).filterMap StoredRow.command = xs.filterMap (·.event.commandId) := by
  induction xs generalizing n with
  | nil => rfl
  | cons x xs ih =>
      simp only [numberedRows, List.filterMap_cons, StoredRow.command, ih]

/-- Rows of one entry, then rows of the rest, are the rows of the batch. -/
theorem Db.Inserted.cons {db db₁ db₂ : Db} {x : Entry} {rest : List Entry}
    (h₁ : db.Inserted db₁ [x]) (h₂ : db₁.Inserted db₂ rest) : db.Inserted db₂ (x :: rest) := by
  have hcmd : ∀ c, c ∈ db₁.commands ↔ c ∈ db.commands ++ x.event.commandId.toList := by
    intro c
    simp only [Db.commands, h₁.events, List.filterMap_append, List.mem_append,
      filterMap_numberedRows, newEntries]
    cases hx : x.event.commandId with
    | none => simp [hx]
    | some d =>
        by_cases hd : d ∈ List.filterMap StoredRow.command db.events
        · simp only [hd, if_true, List.filterMap_nil, List.not_mem_nil, or_false, Option.toList_some,
            List.mem_singleton]
          exact ⟨Or.inl, fun h => h.elim id fun h => h ▸ hd⟩
        · simp [hd, hx]
  have hnew := newEntries_congr hcmd rest
  obtain ⟨he, ho, hs, hos⟩ := h₂
  rw [hnew] at he ho hs hos
  refine ⟨?_, ?_, ?_, ?_⟩ <;> rw [newEntries_cons]
  · rw [he, h₁.events, h₁.sequence, numberedRows_append, List.append_assoc]
  · rw [ho, h₁.outbox, h₁.sequence, h₁.outboxSequence, outboxRows_append, List.append_assoc]
  · rw [hs, h₁.sequence, List.length_append, Nat.add_assoc]
  · rw [hos, h₁.outboxSequence, List.map_append, List.sum_append, Nat.add_assoc]

theorem Db.Inserted.nil (db : Db) : db.Inserted db [] := by
  constructor <;> simp [newEntries, numberedRows, outboxRows]

/-! ## Rows of an account -/

theorem Db.insertEvent_ok {db db' : Db} {e : EventFields} {row : StoredRow}
    (h : db.insertEvent e = .ok (db', row)) :
    (∀ c ∈ db.commands, e.commandId ≠ some c) ∧ row = ⟨db.sequence + 1, e⟩ ∧
      db'.events = db.events ++ [row] ∧ db'.outbox = db.outbox ∧
      db'.sequence = db.sequence + 1 ∧ db'.outboxSequence = db.outboxSequence := by
  unfold insertEvent at h
  split at h
  · simp at h
  · rename_i hc
    split at h
    · simp at h
    · cases h
      exact ⟨fun c hmem hcmd => hc ⟨c, hmem, hcmd⟩, rfl, rfl, rfl, rfl, rfl⟩

theorem Db.insertOutbox_ok {db db' : Db} {seq : Nat} {destination payload : String} {t : DateTime}
    (h : db.insertOutbox seq destination payload t = .ok db') :
    db'.events = db.events ∧ db'.sequence = db.sequence ∧
      db'.outbox = db.outbox ++
        [⟨db.outboxSequence + 1, seq, strip destination, payload, .pending, 0, t, none, none⟩] ∧
      db'.outboxSequence = db.outboxSequence + 1 := by
  simp only [insertOutbox, bind_eq_ok, refuseIf_eq_ok, pure_eq_ok] at h
  obtain ⟨-, -, -, -, -, -, rfl⟩ := h
  exact ⟨rfl, rfl, rfl, rfl⟩

theorem Db.rowsOf_congr {db db' : Db} (h : db'.events = db.events) (after : Option Nat)
    (a : String) : db'.rowsOf after a = db.rowsOf after a := by
  simp only [rowsOf, h]

theorem Db.rowsOf_snoc {db db' : Db} {row : StoredRow} (h : db'.events = db.events ++ [row])
    (a : String) : db'.rowsOf none a =
      db.rowsOf none a ++ if row.account = a then [row] else [] := by
  by_cases ha : row.account = a <;> simp [rowsOf, h, ha]

/-! ## Inside the transaction -/

/-- The held states are those of the account's rows in `db`. -/
def LedgerFold.Coherent (A : Arith) (f : LedgerFold) (db : Db) : Prop :=
  ∀ a st, f.entries.get a = some st → foldRows A a (db.rowsOf none a) = .ok st

/-- Between two entries of a batch begun on `base`, with `db` the transaction's view. -/
structure Mid (A : Arith) (base : Db) (db : Db) (w : Writing) : Prop where
  committed : w.committed = base
  tx : w.tx = some db
  began : w.inTransaction = true
  atomic : w.fold.atomic = false
  held : w.fold.Coherent A db
  untouched : ∀ a, a ∉ w.touched → db.rowsOf none a = base.rowsOf none a

/-- Where a failed batch stops: nothing is committed and every untouched account is as it was. -/
structure Failing (A : Arith) (base : Db) (w : Writing) : Prop where
  committed : w.committed = base
  atomic : w.fold.atomic = false
  clean : ∀ a st, a ∉ w.touched → w.fold.entries.get a = some st →
    foldRows A a (base.rowsOf none a) = .ok st

section Entries

variable {A : Arith} {faults : Faults} {base db : Db} {w : Writing}

theorem Mid.failing (h : Mid A base db w) : Failing A base w where
  committed := h.committed
  atomic := h.atomic
  clean a st ha hst := by
    rw [← h.untouched a ha]
    exact h.held a st hst

theorem Mid.view (h : Mid A base db w) : w.view = db := by simp [Writing.view, h.tx]

theorem point_post {p : Point} {Q : Unit → Writing → Prop} (hQ : Q () w) (hE : Failing A base w) :
    Prog.Post Q (fun _ => Failing A base) (point faults p w) := by
  unfold point
  split
  · exact hQ
  · exact hE
  · exact ⟨hE.committed, hE.atomic, hE.clean⟩

theorem setView_eq {db' : Db} (h : w.tx = some db) :
    setView db' w = (.ok (), { w with tx := some db' }) := by
  simp [setView, Prog.modify, h]

theorem lookup_post {i : Nat} {command : Option String} (h : Mid A base db w) :
    Prog.Post (fun r w' => w' = w ∧ r = command.bind db.byCommand) (fun _ => Failing A base)
      (lookup faults i command w) := by
  cases command with
  | none => exact ⟨rfl, rfl⟩
  | some c =>
      refine Prog.post_bind.mpr (point_post ?_ h.failing)
      exact ⟨rfl, by simp [h.view]⟩

theorem replay_post {i : Nat} {row : StoredRow} (h : Mid A base db w) :
    Prog.Post (fun _ w' => Mid A base db w' ∧ ∃ e, row.event = .ok e ∧ w'.written = w.written ++ [e])
      (fun _ => Failing A base) (replay faults i row w) := by
  refine Prog.post_bind.mpr (point_post ?_ h.failing)
  refine Prog.post_bind.mpr (.lift (fun e he => ?_) fun _ _ => h.failing)
  exact ⟨⟨h.committed, h.tx, h.began, h.atomic, h.held, h.untouched⟩, e, he, rfl⟩

theorem loadAccount_post {i : Nat} {a : String} (h : Mid A base db w) :
    Prog.Post (fun _ w' => Mid A base db w' ∧ w'.fold.has a = true ∧ w'.written = w.written) (fun _ => Failing A base)
      (loadAccount A faults i a w) := by
  refine Prog.post_bind.mpr (.get ?_)
  by_cases hhas : w.fold.has a = true
  · rw [if_pos hhas]
    exact ⟨h, hhas, rfl⟩
  · rw [if_neg hhas]
    refine Prog.post_bind.mpr (point_post ?_ h.failing)
    refine Prog.post_zoom.mpr ((LedgerFold.load_spec h.atomic).weaken ?_ fun _ f hload => ?_)
    · rintro _ f ⟨honly, st, hst, hget⟩
      rw [h.view] at hst
      refine ⟨⟨h.committed, h.tx, h.began, honly.atomic.trans h.atomic, fun b st' hst' => ?_,
        h.untouched⟩, by simp [LedgerFold.has, OMap.contains, hget], rfl⟩
      by_cases hba : b = a
      · rw [hba, hget] at hst'
        cases hst'
        exact hba ▸ hst
      · rw [honly.others b hba] at hst'
        exact h.held b st' hst'
    · refine ⟨h.committed, hload.only.atomic.trans h.atomic, fun b st hb hst => ?_⟩
      by_cases hba : b = a
      · rw [hba, hload.gone] at hst; cases hst
      · rw [hload.only.others b hba] at hst
        exact h.failing.clean b st hb hst

theorem Mid.touch (h : Mid A base db w) (a : String) :
    Mid A base db { w with touched := a :: w.touched } :=
  ⟨h.committed, h.tx, h.began, h.atomic, h.held,
    fun b hb => h.untouched b fun hmem => hb (List.mem_cons_of_mem _ hmem)⟩

/-- After the row is stored and before it is folded. -/
structure Stored (A : Arith) (base db db' : Db) (row : StoredRow) (w : Writing) : Prop where
  before : Mid A base db { w with tx := some db }
  tx : w.tx = some db'
  touched : row.account ∈ w.touched
  has : w.fold.has row.account = true
  events : db'.events = db.events ++ [row]

theorem insertRow_post {i : Nat} {e : EventFields} (h : Mid A base db w) (ht : e.account ∈ w.touched)
    (hhas : w.fold.has e.account = true) :
    Prog.Post (fun row w' => (∃ db', db.insertEvent e = .ok (db', row) ∧ Stored A base db db' row w') ∧
        w'.written = w.written)
      (fun _ => Failing A base) (insertRow faults i e w) := by
  refine Prog.post_bind.mpr (point_post ?_ h.failing)
  refine Prog.post_bind.mpr (point_post ?_ h.failing)
  refine Prog.post_bind.mpr (.get ?_)
  refine Prog.post_bind.mpr (.lift (fun stored hins => ?_) fun _ _ => h.failing)
  rw [h.view] at hins
  obtain ⟨-, hrow, hev, -⟩ := Db.insertEvent_ok hins
  have hacct : stored.2.account = e.account := by rw [hrow]; rfl
  refine Prog.post_bind.mpr ?_
  rw [setView_eq h.tx]
  exact ⟨⟨stored.1, hins, ⟨⟨h.committed, rfl, h.began, h.atomic, h.held, h.untouched⟩, rfl,
    hacct ▸ ht, hacct ▸ hhas, hev⟩⟩, rfl⟩

theorem Stored.failing {db' : Db} {row : StoredRow} (h : Stored A base db db' row w) :
    Failing A base w :=
  ⟨h.before.failing.committed, h.before.failing.atomic, h.before.failing.clean⟩

/-- A fold that holds the new row's state, or none, for its account. -/
theorem Stored.failing_fold {db' : Db} {row : StoredRow} (h : Stored A base db db' row w)
    {f : LedgerFold} (hf : LedgerFold.Only row.account w.fold f) :
    Failing A base { w with fold := f } := by
  refine ⟨h.failing.committed, hf.atomic.trans h.failing.atomic, fun b st hb hst => ?_⟩
  have hne : b ≠ row.account := fun heq => hb (heq ▸ h.touched)
  have hst' : w.fold.entries.get b = some st := (hf.others b hne) ▸ hst
  exact h.failing.clean b st hb hst'

theorem Stored.mid {db' : Db} {row : StoredRow} (h : Stored A base db db' row w) {st : AccountState}
    {f : LedgerFold} (hst : w.fold.entries.get row.account = some st)
    (hf : LedgerFold.Applied A row.account st [row] w.fold f) :
    Mid A base db' { w with fold := f } := by
  obtain ⟨honly, st', hst', hget⟩ := hf
  refine ⟨h.before.committed, h.tx, h.before.began, honly.atomic.trans h.before.atomic,
    fun b x hx => ?_, fun b hb => ?_⟩
  · rw [Db.rowsOf_snoc h.events]
    by_cases hb : b = row.account
    · subst hb
      rw [hget] at hx
      cases hx
      rw [if_pos rfl]
      exact foldRows_append (h.before.held _ _ hst) hst'
    · rw [if_neg (Ne.symm hb), List.append_nil]
      rw [honly.others b hb] at hx
      exact h.before.held b x hx
  · have hne : row.account ≠ b := fun heq => hb (heq ▸ h.touched)
    rw [Db.rowsOf_snoc h.events, if_neg hne, List.append_nil]
    exact h.before.untouched b hb

theorem applyStored_post {i : Nat} {db' : Db} {row : StoredRow} (h : Stored A base db db' row w) :
    Prog.Post (fun _ w' => Mid A base db' w' ∧ w'.fold.has row.account = true ∧
        ∃ e, row.event = .ok e ∧ w'.written = w.written ++ [e]) (fun _ => Failing A base)
      (applyStored A faults i row w) := by
  obtain ⟨st, hst⟩ := LedgerFold.get_of_has h.has
  refine Prog.post_bind.mpr (Prog.post_zoom.mpr
    ((LedgerFold.applyRow_spec h.failing.atomic hst).weaken ?_ fun _ f hr => h.failing_fold hr.only))
  intro _ f happ
  have hmid := h.mid hst happ
  refine Prog.post_bind.mpr (point_post ?_ hmid.failing)
  refine Prog.post_bind.mpr (.lift (fun e he => ?_) fun _ _ => hmid.failing)
  obtain ⟨-, st', -, hget⟩ := happ
  exact ⟨⟨hmid.committed, hmid.tx, hmid.began, hmid.atomic, hmid.held, hmid.untouched⟩,
    Option.isSome_iff_exists.mpr ⟨st', hget⟩, e, he, rfl⟩

/-- A view with the same events keeps the transaction's invariant. -/
theorem Mid.setTx {db' : Db} (h : Mid A base db w) (hev : db'.events = db.events) :
    Mid A base db' { w with tx := some db' } :=
  ⟨h.committed, rfl, h.began, h.atomic,
    fun a st hst => Db.rowsOf_congr hev none a ▸ h.held a st hst,
    fun a ha => (Db.rowsOf_congr hev none a).trans (h.untouched a ha)⟩

theorem insertItems_post {i : Nat} {row : StoredRow} {items : List (String × String)} (n : Nat)
    (h : Mid A base db w) :
    Prog.Post (fun _ w' => (∃ db', Mid A base db' w' ∧ db'.events = db.events ∧
        db'.sequence = db.sequence ∧
        db'.outbox = db.outbox ++ itemRows row.seq db.outboxSequence row.columns.tsUtc items ∧
        db'.outboxSequence = db.outboxSequence + items.length) ∧
        w'.fold = w.fold ∧ w'.written = w.written)
      (fun _ => Failing A base) (Prog.forEach (insertItem faults i row) (items.zipIdx n) w) := by
  induction items generalizing n db w with
  | nil => exact ⟨⟨db, h, rfl, rfl, by simp [itemRows], rfl⟩, rfl, rfl⟩
  | cons x items ih =>
      refine Prog.post_bind.mpr ?_
      refine Prog.post_bind.mpr (point_post ?_ h.failing)
      refine Prog.post_bind.mpr (.get ?_)
      refine Prog.post_bind.mpr (.lift (fun db₁ hins => ?_) fun _ _ => h.failing)
      rw [h.view] at hins
      obtain ⟨hev, hseq, hout, hoseq⟩ := Db.insertOutbox_ok hins
      rw [setView_eq h.tx]
      refine (ih (n + 1) (h.setTx hev)).weaken ?_ fun _ _ hf => hf
      rintro _ w' ⟨⟨db', hmid, hev', hseq', hout', hoseq'⟩, hkept⟩
      refine ⟨⟨db', hmid, hev'.trans hev, hseq'.trans hseq, ?_, ?_⟩, hkept⟩
      · rw [hout', hout, hoseq]
        simp [itemRows]
      · rw [hoseq', hoseq, List.length_cons]
        omega

/-- The event of an entry was noted: that of the row it replays, or of the row it got and folded. -/
def Noted (db : Db) (entry : Entry) (w w' : Writing) : Prop :=
  ∃ e, w'.written = w.written ++ [e] ∧
    match entry.event.commandId.bind db.byCommand with
    | some row => row.event = .ok e
    | none => w'.fold.has entry.event.account = true ∧
        StoredRow.event ⟨db.sequence + 1, entry.event.toEventFields⟩ = .ok e

/-- A new entry: its row under the next number, and its outbox rows. -/
theorem writeNew_post {i : Nat} {entry : Entry} (h : Mid A base db w)
    (hfresh : entry.event.commandId.bind db.byCommand = none)
    (hnew : newEntries db.commands [entry] = [entry]) :
    Prog.Post (fun _ w' => ∃ db', Mid A base db' w' ∧ db.Inserted db' [entry] ∧ Noted db entry w w')
      (fun _ => Failing A base) (writeNew A faults i entry w) := by
  refine Prog.post_bind.mpr (point_post ?_ h.failing)
  refine Prog.post_bind.mpr ((loadAccount_post h).weaken ?_ fun _ _ hf => hf)
  rintro _ w₁ ⟨h₁, hhas, hwritten₁⟩
  refine Prog.post_bind.mpr ?_
  refine Prog.post_bind.mpr ((insertRow_post (h₁.touch entry.event.account)
    List.mem_cons_self hhas).weaken ?_ fun _ _ hf => hf)
  rintro row w₂ ⟨⟨db₁, hins, hstored⟩, hwritten₂⟩
  obtain ⟨-, hrow, hev, hout, hseq, hoseq⟩ := Db.insertEvent_ok hins
  refine Prog.post_bind.mpr ((applyStored_post hstored).weaken ?_ fun _ _ hf => hf)
  rintro _ w₃ ⟨h₃, hhas₃, e, he, hwritten₃⟩
  refine (insertItems_post 0 h₃).weaken ?_ fun _ _ hf => hf
  rintro _ w₄ ⟨⟨db', h₄, hev', hseq', hout', hoseq'⟩, hfold, hwritten₄⟩
  have hnoted : Noted db entry w w₄ := by
    refine ⟨e, by rw [hwritten₄, hwritten₃, hwritten₂]; exact congrArg (· ++ [e]) hwritten₁, ?_⟩
    rw [hfresh]
    rw [hrow] at hhas₃ he
    exact ⟨hfold ▸ hhas₃, he⟩
  refine ⟨db', h₄, ⟨?_, ?_, ?_, ?_⟩, hnoted⟩
  · rw [hnew, hev', hev, hrow]
    rfl
  · rw [hnew, hout', hout, hoseq, hrow]
    simp [outboxRows]
  · rw [hnew, hseq', hseq]
    rfl
  · rw [hnew, hoseq', hoseq]
    simp

theorem newEntries_single_of_none {entry : Entry}
    (h : entry.event.commandId.bind db.byCommand = none) :
    newEntries db.commands [entry] = [entry] := by
  unfold newEntries
  cases hc : entry.event.commandId with
  | none => rfl
  | some c =>
      rw [hc, Option.bind_some, Db.byCommand, List.find?_eq_none] at h
      have hfresh : c ∉ db.commands := by
        intro hmem
        obtain ⟨r, hr, hrc⟩ := List.mem_filterMap.mp hmem
        exact h r hr (by simp [hrc])
      simp [hfresh, newEntries]

theorem newEntries_single_of_some {entry : Entry} {row : StoredRow}
    (h : entry.event.commandId.bind db.byCommand = some row) :
    newEntries db.commands [entry] = [] := by
  obtain ⟨c, hc, hrow⟩ := Option.bind_eq_some_iff.mp h
  have hmem : c ∈ db.commands := by
    refine List.mem_filterMap.mpr ⟨row, List.mem_of_find?_eq_some hrow, ?_⟩
    simpa using List.find?_some hrow
  simp [newEntries, hc, hmem]

theorem writeEntry_post {i : Nat} {entry : Entry} (h : Mid A base db w) :
    Prog.Post (fun _ w' => ∃ db', Mid A base db' w' ∧ db.Inserted db' [entry] ∧ Noted db entry w w')
      (fun _ => Failing A base) (writeEntry A faults i entry w) := by
  refine Prog.post_bind.mpr (point_post ?_ h.failing)
  refine Prog.post_bind.mpr ((lookup_post h).weaken ?_ fun _ _ hf => hf)
  rintro r w' ⟨rfl, hr⟩
  cases r with
  | none => exact writeNew_post h hr.symm (newEntries_single_of_none hr.symm)
  | some row =>
      refine (replay_post h).weaken (fun _ w'' hreplayed => ?_) fun _ _ hf => hf
      obtain ⟨hmid, e, he, hwritten⟩ := hreplayed
      have hnone := newEntries_single_of_some hr.symm
      refine ⟨db, hmid, ?_, e, hwritten, ?_⟩
      · constructor <;> simp [hnone, numberedRows, outboxRows]
      · rw [← hr]
        exact he

theorem writeEntries_post {entries : List Entry} (n : Nat) (h : Mid A base db w) :
    Prog.Post (fun _ w' => ∃ db', Mid A base db' w' ∧ db.Inserted db' entries)
      (fun _ => Failing A base)
      (Prog.forEach (fun item => writeEntry A faults item.2 item.1) (entries.zipIdx n) w) := by
  induction entries generalizing n db w with
  | nil => exact ⟨db, h, .nil db⟩
  | cons x rest ih =>
      refine Prog.post_bind.mpr ((writeEntry_post h).weaken ?_ fun _ _ hf => hf)
      rintro _ w₁ ⟨db₁, h₁, hins₁, -⟩
      refine (ih (n + 1) h₁).weaken ?_ fun _ _ hf => hf
      rintro _ w₂ ⟨db₂, h₂, hins₂⟩
      exact ⟨db₂, h₂, hins₁.cons hins₂⟩

end Entries

/-! ## The whole batch -/

section Batch

variable {A : Arith} {faults : Faults}

/-- What holds of the connection between batches. -/
structure Conn.Coherent (A : Arith) (c : Conn) : Prop where
  atomic : c.fold.atomic = false
  held : c.fold.Coherent A c.committed

theorem Conn.Coherent.opened (db : Db) : (Conn.opened db).Coherent A :=
  ⟨rfl, fun a st h => by simp [Conn.opened, LedgerFold.new] at h⟩

theorem Conn.Coherent.failing {c : Conn} (h : c.Coherent A) :
    Failing A c.committed (Writing.start c) :=
  ⟨rfl, h.atomic, fun a st _ hst => h.held a st hst⟩

theorem beginImmediate_post {c : Conn} (h : c.Coherent A) :
    Prog.Post (fun _ w => Mid A c.committed c.committed w ∧ w.written = []) (fun _ => Failing A c.committed)
      (beginImmediate faults (Writing.start c)) := by
  refine Prog.post_bind.mpr (point_post ?_ h.failing)
  refine Prog.post_bind.mpr (.get ?_)
  refine Prog.post_bind.mpr (.lift (fun _ _ => ?_) fun _ _ => h.failing)
  exact ⟨⟨rfl, rfl, rfl, h.atomic, h.held, fun _ _ => rfl⟩, rfl⟩

theorem commit_post {base db : Db} {w : Writing} (h : Mid A base db w) :
    Prog.Post (fun _ w' => w'.committed = db ∧ w'.toConn.Coherent A ∧ w'.written = w.written)
      (fun _ => Failing A base)
      (commit faults w) := by
  refine Prog.post_bind.mpr (point_post ?_ h.failing)
  refine Prog.post_bind.mpr (.get ?_)
  refine Prog.post_bind.mpr (.lift (fun _ _ => ?_) fun _ _ => h.failing)
  have hheld : w.fold.Coherent A w.view := h.view.symm ▸ h.held
  exact ⟨h.view, ⟨h.atomic, hheld⟩, rfl⟩

theorem writeBody_post (faults : Faults) (entries : List Entry) {c : Conn} (h : c.Coherent A) :
    Prog.Post (fun _ w => c.committed.Inserted w.committed entries ∧ w.toConn.Coherent A)
      (fun _ => Failing A c.committed) (writeBody A faults entries (Writing.start c)) := by
  refine Prog.post_bind.mpr ((beginImmediate_post h).weaken ?_ fun _ _ hf => hf)
  rintro _ w₁ ⟨h₁, -⟩
  refine Prog.post_bind.mpr ((writeEntries_post 0 h₁).weaken ?_ fun _ _ hf => hf)
  rintro _ w₂ ⟨db, h₂, hins⟩
  refine (commit_post h₂).weaken ?_ fun _ _ hf => hf
  rintro _ w₃ ⟨rfl, hcoh, -⟩
  exact ⟨hins, hcoh⟩

theorem LedgerFold.foldl_drop (touched : List String) (f : LedgerFold) (a : String) :
    (touched.foldl LedgerFold.drop f).atomic = f.atomic ∧
      (touched.foldl LedgerFold.drop f).entries.get a =
        if a ∈ touched then none else f.entries.get a := by
  induction touched generalizing f with
  | nil => simp
  | cons b touched ih =>
      obtain ⟨hatomic, hget⟩ := ih (f.drop b)
      refine ⟨hatomic, hget.trans ?_⟩
      by_cases hab : a = b
      · subst hab
        simp
      · simp [hab, LedgerFold.get_drop_ne f hab]

theorem Failing.dropped {base : Db} {w : Writing} (h : Failing A base w) :
    ({ w with fold := w.touched.foldl .drop w.fold } : Writing).committed = base ∧
      (w.touched.foldl LedgerFold.drop w.fold).atomic = false ∧
      (w.touched.foldl LedgerFold.drop w.fold).Coherent A base := by
  refine ⟨h.committed, (LedgerFold.foldl_drop _ _ "").1.trans h.atomic, fun a st hst => ?_⟩
  rw [(LedgerFold.foldl_drop _ _ a).2] at hst
  split at hst
  · cases hst
  · rename_i ha
    exact h.clean a st ha hst

theorem rollback_state (faults : Faults) (w : Writing) :
    (rollback faults w).2.committed = w.committed ∧ (rollback faults w).2.fold = w.fold := by
  have h : Prog.Post (fun _ w' => w'.committed = w.committed ∧ w'.fold = w.fold)
      (fun _ w' => w'.committed = w.committed ∧ w'.fold = w.fold) (rollback faults w) := by
    refine Prog.post_bind.mpr ?_
    unfold point
    split
    · refine Prog.post_bind.mpr (.get ?_)
      refine Prog.post_bind.mpr (.lift (fun _ _ => ⟨rfl, rfl⟩) fun _ _ => ⟨rfl, rfl⟩)
    · exact ⟨rfl, rfl⟩
    · exact ⟨rfl, rfl⟩
  exact h.reached

theorem abandon_spec (faults : Faults) (e : LErr) {base : Db} {w : Writing} (h : Failing A base w) :
    ∃ x c, abandon faults e w = (.error x, c) ∧ c.committed = base ∧ c.Coherent A := by
  obtain ⟨hcom, hatomic, hcoh⟩ := h.dropped
  unfold abandon
  simp only
  split
  · have hroll := rollback_state faults
      { w with fold := w.touched.foldl .drop w.fold }
    split
    · rename_i w' hr
      rw [hr] at hroll
      exact ⟨e, w'.toConn, rfl, hroll.1.trans hcom, hroll.2 ▸ hatomic, by
        rw [hroll.1, hroll.2, hcom]; exact hcoh⟩
    · rename_i x w' hr
      rw [hr] at hroll
      exact ⟨x, w'.toConn, rfl, hroll.1.trans hcom, hroll.2 ▸ hatomic, by
        rw [hroll.1, hroll.2, hcom]; exact hcoh⟩
  · exact ⟨e, _, rfl, hcom, hatomic, hcom.symm ▸ hcoh⟩

/-- A batch inserts exactly its new entries or changes no table, and leaves the fold coherent. -/
theorem write_spec (faults : Faults) (entries : List Entry) {c : Conn} (h : c.Coherent A) :
    Prog.Post (fun _ c' => c.committed.Inserted c'.committed entries ∧ c'.Coherent A)
      (fun _ c' => c'.committed = c.committed ∧ c'.Coherent A) (write A faults entries c) := by
  unfold write
  split
  · exact ⟨rfl, h⟩
  · have hbody := writeBody_post faults entries h
    split
    · rename_i w hw
      rw [hw] at hbody
      exact hbody
    · rename_i e w hw
      rw [hw] at hbody
      obtain ⟨x, c', hx, hcom, hcoh⟩ := abandon_spec faults e hbody
      rw [hx]
      exact ⟨hcom, hcoh⟩

theorem runBatches_coherent {c : Conn} (batches : List (Faults × List Entry)) (h : c.Coherent A) :
    (runBatches A c batches).Coherent A := by
  induction batches generalizing c with
  | nil => exact h
  | cons b batches ih =>
      have hspec := write_spec b.1 b.2 h
      exact ih (hspec.weaken (fun _ _ h => h.2) fun _ _ h => h.2).reached

end Batch

end TradeEngine
