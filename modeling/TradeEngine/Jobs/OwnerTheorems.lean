import TradeEngine.Jobs.Theorems

/-!
# The open jobs are the newest owner's

An owner that starts on the store first marks what was left open, and one that was closed writes nothing more. So a job
that is queued or running belongs to the process that started last. There are never more job records than the largest
record limit, but for those that were there before.
-/

namespace TradeEngine.Jobs

open Lib

variable {Value : Type} {S : Serde Value}

/-! ## What an owner's step does to the store -/

/-- A step leaves the store alone, or is one transaction of an owner that is not closed. -/
inductive Transacts (S : Serde Value) [DecidableEq Value] (o : Owner Value) (st : Store) : Store → Prop where
  | same : Transacts S o st st
  | admits (payload : Value) (fault : Fault) (h : o.closed = false) :
      Transacts S o st (admitRequest S o.journal payload fault st).2
  | start (id : String) (fault : Fault) (h : o.closed = false) : Transacts S o st (start S o.journal id fault st).2
  | finish (id : String) (state : State) (result : Option Value) (error : Option Failure) (fault : Fault)
      (h : o.closed = false) : Transacts S o st (finish S o.journal id state result error fault st).2

theorem write_refused {α : Type} {operation : Store → J (α × Store)} {st : Store} {e : Error} :
    (write (.refused e) operation st).2 = st := by
  rcases write_cases (.refused e) operation st with ⟨hst, -⟩ | ⟨a, ha, -⟩
  · exact hst
  · cases hop : operation st with
    | error e => simp [write]
    | ok p => simp [write]

section Owner

variable [DecidableEq Value]

theorem closed_admits {o : Owner Value} (hclosed : o.closed = true) (payload : Value) (fault : Fault) (st : Store) :
    (admitRequest S o.journal payload (o.writeFault fault) st).2 = st := by
  unfold admitRequest
  split
  · rfl
  · rw [Owner.writeFault, if_pos hclosed]
    exact write_refused

theorem transacts_admit (o : Owner Value) (payload : Value) (fault : Fault) (st : Store) :
    Transacts S o st (admitRequest S o.journal payload (o.writeFault fault) st).2 := by
  cases hclosed : o.closed with
  | true =>
    rw [closed_admits hclosed]
    exact .same
  | false => exact .admits payload _ hclosed

theorem transacts_start (o : Owner Value) (id : String) (fault : Fault) (st : Store) :
    Transacts S o st (start S o.journal id (o.writeFault fault) st).2 := by
  cases hclosed : o.closed with
  | true =>
    rw [Owner.writeFault, if_pos hclosed, start, write_refused]
    exact .same
  | false => exact .start id _ hclosed

theorem transacts_finish (o : Owner Value) (id : String) (state : State) (result : Option Value) (error : Option Failure)
    (fault : Fault) (st : Store) : Transacts S o st (finish S o.journal id state result error (o.writeFault fault) st).2 := by
  cases hclosed : o.closed with
  | true =>
    rw [Owner.writeFault, if_pos hclosed]
    unfold finish
    split
    · exact .same
    · rw [write_refused]
      exact .same
  | false => exact .finish id state result error _ hclosed

theorem Transacts.closed_same {o : Owner Value} {st st' : Store} (h : Transacts S o st st') (hclosed : o.closed = true) :
    st' = st := by
  have hnever : o.closed ≠ false := by simp [hclosed]
  cases h with
  | same => rfl
  | admits _ _ h => exact absurd h hnever
  | start _ _ h => exact absurd h hnever
  | finish _ _ _ _ _ h => exact absurd h hnever

/-- What a step leaves of its owner. -/
structure Acts (S : Serde Value) (o : Owner Value) (s : Shared) (r : Shared × Owner Value) : Prop where
  transacts : Transacts S o s.store r.1.store
  journal : r.2.journal = o.journal
  closed : o.closed = true → r.2.closed = true

theorem Owner.act_acts (o : Owner Value) (s : Shared) (a : Act Value) : Acts S o s (o.act S s a) := by
  cases a with
  | admits n fault =>
    dsimp only [Owner.act, Owner.admits]
    cases hpayload : o.checked[n]? with
    | none => exact ⟨.same, rfl, id⟩
    | some payload =>
      have hstore : ∀ {result st}, admitRequest S o.journal payload (o.writeFault fault) s.store = (result, st) →
          Transacts S o s.store st := by
        intro result st h
        have hst := transacts_admit (S := S) o payload fault s.store
        rw [h] at hst
        exact hst
      dsimp only
      split
      · rename_i h _
        exact ⟨hstore h, rfl, id⟩
      · rename_i h _
        exact ⟨hstore h, rfl, id⟩
      · rename_i h _
        exact ⟨hstore h, rfl, id⟩
      · rename_i h _
        exact ⟨hstore h, rfl, fun _ => rfl⟩
      · rename_i h _
        exact ⟨hstore h, rfl, id⟩
      · rename_i h _
        exact ⟨hstore h, rfl, fun _ => rfl⟩
  | start fault =>
    dsimp only [Owner.act, Owner.start]
    split
    · rename_i id record _
      have hstore := transacts_start (S := S) o id fault s.store
      split <;> rename_i heq <;> rw [heq] at hstore <;> exact ⟨hstore, rfl, fun h => h⟩
    · exact ⟨.same, rfl, id⟩
  | finish fault =>
    dsimp only [Owner.act, Owner.finish]
    split
    · rename_i id outcome _
      have hstore := transacts_finish (S := S) o id outcome.parts.1 outcome.parts.2.1 outcome.parts.2.2 fault s.store
      split <;> rename_i heq <;> rw [heq] at hstore <;> exact ⟨hstore, rfl, fun h => h⟩
    · exact ⟨.same, rfl, id⟩
  | submit payload =>
    dsimp only [Owner.act, Owner.submit]
    split <;> exact ⟨.same, rfl, id⟩
  | push n =>
    dsimp only [Owner.act, Owner.push]
    split <;> exact ⟨.same, rfl, id⟩
  | take =>
    dsimp only [Owner.act, Owner.take]
    split <;> exact ⟨.same, rfl, id⟩
  | load fault =>
    dsimp only [Owner.act, Owner.load]
    split
    · split <;> exact ⟨.same, rfl, id⟩
    · exact ⟨.same, rfl, id⟩
  | call =>
    dsimp only [Owner.act, Owner.call]
    split <;> exact ⟨.same, rfl, id⟩
  | returns outcome =>
    dsimp only [Owner.act, Owner.returns]
    split <;> exact ⟨.same, rfl, id⟩
  | panics message =>
    dsimp only [Owner.act, Owner.returns]
    split <;> exact ⟨.same, rfl, id⟩
  | answer fault =>
    dsimp only [Owner.act, Owner.answer]
    split
    · split <;> exact ⟨.same, rfl, fun _ => rfl⟩
    · exact ⟨.same, rfl, id⟩
  | stop => exact ⟨.same, rfl, id⟩
  | close => exact ⟨.same, rfl, fun h => by simp [Owner.act, Owner.close, h]⟩
  | crash => exact ⟨.same, rfl, fun _ => rfl⟩

end Owner

/-! ## Open records -/

/-- An open record of the later store was an open one of the same instance before, or is of `mine`. -/
def OpenFrom (S : Serde Value) (mine : String) (st st' : Store) : Prop :=
  ∀ id r', Recorded S st' id r' → r'.state.isOpen = true → r'.instanceId = mine ∨
    ∃ r, Recorded S st id r ∧ r.state.isOpen = true ∧ r.instanceId = r'.instanceId

namespace OpenFrom

variable {mine : String}

theorem refl (st : Store) : OpenFrom S mine st st := fun _ r hr hopen => .inr ⟨r, hr, hopen, rfl⟩

/-- An open record that is moved on stays with its instance. -/
theorem moved {st st' : Store} {id : String} {r r' : Record Value} (hr : Recorded S st id r)
    (hopen : r.state.isOpen = true) (h : save S st r' = .ok st') (hid : r'.requestId = r.requestId)
    (hversion : r'.version = r.version) (hinstance : r'.instanceId = r.instanceId) : OpenFrom S mine st st' := by
  obtain ⟨hv, hident, rfl⟩ := hr.valid
  have hsaved := save_recorded h (hversion.trans hv) (hid ▸ hident)
  rw [hid] at hsaved
  intro other x hx hxopen
  by_cases heq : other = r.requestId
  · subst heq
    obtain rfl := hsaved.unique hx
    exact .inr ⟨r, hr, hopen, hinstance.symm⟩
  · refine .inr ⟨x, ?_, hxopen, rfl⟩
    rw [Recorded, ← save_other h (hid ▸ heq)]
    exact hx

theorem changed {j : Journal} {id message : String} {state : State} {f : Record Value → Record Value} {fault : Fault}
    {st : Store} (hopen : state.isOpen = true) (hid : ∀ r, (f r).requestId = r.requestId)
    (hversion : ∀ r, (f r).version = r.version) (hinstance : ∀ r, (f r).instanceId = r.instanceId) :
    OpenFrom S mine st (write fault (change S j id state message f) st).2 := by
  rcases write_cases fault (change S j id state message f) st with ⟨hst, -⟩ | ⟨r', hr', -⟩
  · rw [hst]
    exact .refl st
  · obtain ⟨r, hr, hstate, -, hsave⟩ := change_ok hr'
    exact .moved hr (hstate ▸ hopen) hsave (hid r) (hversion r) (hinstance r)

theorem inserted {st st' : Store} {r : Record Value} (hversion : r.version = recordVersion)
    (hident : identifier r.requestId = true) (h : save S st r = .ok st') : OpenFrom S r.instanceId st st' := by
  have hsaved := save_recorded h hversion hident
  intro other x hx hxopen
  by_cases heq : other = r.requestId
  · subst heq
    obtain rfl := hsaved.unique hx
    exact .inl rfl
  · refine .inr ⟨x, ?_, hxopen, rfl⟩
    rw [Recorded, ← save_other h heq]
    exact hx

variable [DecidableEq Value]

theorem admitted {j : Journal} {payload : Value} {fault : Fault} {st : Store} :
    OpenFrom S j.instanceId st (admitRequest S j payload fault st).2 := by
  unfold admitRequest
  split
  · exact .refl st
  · rename_i request hrequest
    rcases write_cases fault (insertRecord S j request payload) st with ⟨hst, -⟩ | ⟨p, hp, -⟩
    · rw [hst]
      exact .refl st
    · simp only [insertRecord, bind_eq_ok] at hp
      obtain ⟨found, hfound, hp⟩ := hp
      cases found with
      | some r =>
        dsimp only at hp
        split at hp
        · cases hp
        · obtain ⟨-, hst⟩ := Prod.mk.inj (Except.ok.inj hp)
          rw [← hst]
          exact .refl st
      | none =>
        dsimp only at hp
        split at hp
        · cases hp
        · obtain ⟨st'', hsave, hpair⟩ := bind_eq_ok.1 hp
          obtain ⟨-, hst⟩ := Prod.mk.inj (Except.ok.inj hpair)
          rw [← hst]
          have hinsert := inserted rfl (checkRequest_ok hrequest) hsave
          exact hinsert

theorem transacted {o : Owner Value} {st st' : Store} (h : Transacts S o st st') :
    OpenFrom S o.journal.instanceId st st' := by
  cases h with
  | same => exact .refl st
  | admits payload fault hclosed => exact .admitted
  | start id fault hclosed => exact .changed rfl (fun _ => rfl) (fun _ => rfl) fun _ => rfl
  | finish id state result error fault hclosed =>
    unfold finish
    split
    · exact .refl st
    · exact .changed rfl (fun _ => rfl) (fun _ => rfl) fun _ => rfl

end OpenFrom

/-! ## Recovery -/

/-- Nothing under the key is open. -/
def Shut (S : Serde Value) (st : Store) (key : String) : Prop :=
  ∀ text r, st.table.get key = some text → decode S text key = .ok r → r.state.isOpen = false

theorem recoverOne_shut {acc acc' : List (Record Value) × Store} {e : String × String}
    (hget : acc.2.table.get e.1 = some e.2) (h : recoverOne S acc e = .ok acc') : Shut S acc'.2 e.1 := by
  simp only [recoverOne, bind_eq_ok] at h
  obtain ⟨r, hdecode, h⟩ := h
  obtain ⟨-, hversion, hid, hkey⟩ := decode_ok hdecode
  intro text r' htext hr'
  split at h
  · obtain ⟨st, hsave, hpair⟩ := bind_eq_ok.1 h
    cases hpair
    have hsaved := save_recorded hsave hversion hid
    have hloaded : Recorded S st r.requestId r' := by
      rw [Recorded, load, ← hkey, htext]
      dsimp only
      rw [hr']
      rfl
    obtain rfl := hsaved.unique hloaded
    rfl
  · rename_i hopen
    cases h
    rw [hget] at htext
    cases htext
    obtain rfl := Except.ok.inj (hdecode.symm.trans hr')
    simpa using hopen

theorem recoverRows_shut {rows : List (String × String)} {acc acc' : List (Record Value) × Store}
    (hnodup : (rows.map (·.1)).Nodup) (hget : ∀ e ∈ rows, acc.2.table.get e.1 = some e.2)
    (h : rows.foldlM (recoverOne S) acc = .ok acc') :
    (∀ e ∈ rows, Shut S acc'.2 e.1) ∧ ∀ key, key ∉ rows.map (·.1) → acc'.2.table.get key = acc.2.table.get key := by
  induction rows generalizing acc with
  | nil =>
    cases h
    exact ⟨by simp, fun _ _ => rfl⟩
  | cons e rows ih =>
    obtain ⟨next, hnext, h⟩ := bind_eq_ok.1 h
    rw [List.map_cons, List.nodup_cons] at hnodup
    have hsame := (recoverOne_evolves (hget e List.mem_cons_self) hnext).2
    have hshut := recoverOne_shut (hget e List.mem_cons_self) hnext
    obtain ⟨hrest, hother⟩ := ih hnodup.2 (fun x hx => by
      rw [hsame x.1 fun heq => hnodup.1 (heq ▸ List.mem_map_of_mem hx)]
      exact hget x (List.mem_cons_of_mem _ hx)) h
    refine ⟨fun x hx => ?_, fun key hkey => ?_⟩
    · rcases List.mem_cons.mp hx with rfl | hx
      · -- the rows after it leave its key alone
        unfold Shut
        rw [hother x.1 hnodup.1]
        exact hshut
      · exact hrest x hx
    · rw [List.map_cons, List.mem_cons, not_or] at hkey
      rw [hother key hkey.2, hsame key hkey.1]

theorem jobRows_of_get {st : Store} {id text : String} (h : st.table.get (jobKey id) = some text) :
    (jobKey id, text) ∈ jobRows st := by
  obtain ⟨k, hmem⟩ := OMap.mem_of_get h
  rw [jobRows, List.mem_insertionSort, List.mem_map]
  refine ⟨(jobKey id, k, text), List.mem_filter.mpr ⟨hmem, ?_⟩, rfl⟩
  simp [jobKey, String.toList_append, List.isPrefixOf_iff_prefix]

/-- A recovery changes nothing, or leaves nothing open. -/
theorem recover_shut (fault : Fault) (st : Store) : (recover S fault st).2 = st ∧
      (∃ e, (recover S fault st).1 = .error e) ∨
    ∀ id r, Recorded S (recover S fault st).2 id r → r.state.isOpen = false := by
  rcases write_cases fault (fun st => (jobRows st).foldlM (recoverOne S) ([], st)) st with h | ⟨records, h, -⟩
  · exact .inl h
  · refine .inr fun id r hr => ?_
    obtain ⟨hshut, hother⟩ := recoverRows_shut (nodup_jobRows st) (fun e he => mem_jobRows he) h
    change Recorded S (write fault _ st).2 id r at hr
    unfold Recorded load at hr
    split at hr
    · cases hr
    · rename_i text htext
      obtain ⟨r', hdecode, hrr⟩ := except_map_eq_ok.1 hr
      cases hrr
      by_cases hmem : jobKey id ∈ (jobRows st).map (·.1)
      · obtain ⟨e, he, hkey⟩ := List.mem_map.mp hmem
        exact hshut e he text r (hkey ▸ htext) (hkey ▸ hdecode)
      · have hget := htext
        rw [hother (jobKey id) hmem] at hget
        exact absurd (List.mem_map_of_mem (f := (·.1)) (jobRows_of_get hget)) hmem

/-! ## Runs -/

/-- Every owner but the newest is closed, and what is open is the newest one's. -/
structure NewestOwns (S : Serde Value) (w : World Value) : Prop where
  closed : ∀ i o, w.owners[i]? = some o → i + 1 < w.owners.length → o.closed = true
  mine : w.owners ≠ [] → ∀ id r, Recorded S w.shared.store id r → r.state.isOpen = true →
    ∃ o, w.owners[w.owners.length - 1]? = some o ∧ r.instanceId = o.journal.instanceId

namespace NewestOwns

theorem initial (st : Store) : NewestOwns S (World.initial st) := ⟨by simp [World.initial], by simp [World.initial]⟩

theorem opens {w : World Value} (hw : NewestOwns S w) (mode : Mode) (journal : Journal) (checked : List Value)
    (fault : Fault) : NewestOwns S (w.opens S mode journal checked fault) := by
  unfold World.opens
  split
  · rename_i hall
    split
    · exact hw
    · have hrecover := recover_shut (S := S) fault w.shared.store
      split
      · rename_i journal' _ st heq
        rw [heq] at hrecover
        have hshut : ∀ id r, Recorded S st id r → r.state.isOpen = false := by
          rcases hrecover with ⟨-, e, he⟩ | h
          · cases he
          · exact h
        refine ⟨fun i o ho hi => ?_, fun _ id r hr hopen => ?_⟩
        · simp only [List.length_append, List.length_singleton, Nat.add_lt_add_iff_right] at hi
          rw [List.getElem?_append_left hi] at ho
          exact List.all_eq_true.mp hall o (List.mem_of_getElem? ho)
        · rw [hshut id r hr] at hopen
          cases hopen
      · rename_i st heq
        rw [heq] at hrecover
        refine ⟨hw.closed, fun hne id r hr hopen => ?_⟩
        rcases hrecover with ⟨hst, -⟩ | hshut
        · dsimp only at hst
          rw [hst] at hr
          exact hw.mine hne id r hr hopen
        · rw [hshut id r hr] at hopen
          cases hopen
  · exact hw

variable [DecidableEq Value]

theorem act {w : World Value} (hw : NewestOwns S w) {i : Nat} {o : Owner Value} (ho : w.owners[i]? = some o)
    (a : Act Value) : NewestOwns S ⟨(o.act S w.shared a).1, w.owners.set i (o.act S w.shared a).2⟩ := by
  obtain ⟨htransacts, hjournal, hclosed⟩ := o.act_acts (S := S) w.shared a
  have hi : i < w.owners.length := (List.getElem?_eq_some_iff.mp ho).1
  constructor
  case closed =>
    intro k p hp hk
    dsimp only at hp hk
    rw [List.length_set] at hk
    by_cases hik : i = k
    · subst hik
      rw [List.getElem?_set_self hi] at hp
      cases hp
      exact hclosed (hw.closed i o ho hk)
    · rw [List.getElem?_set_ne hik] at hp
      exact hw.closed k p hp hk
  case mine =>
    intro _ id r hr hopen
    dsimp only at hr ⊢
    rw [List.length_set]
    have hne : w.owners ≠ [] := List.ne_nil_of_length_pos (Nat.zero_lt_of_lt hi)
    -- the newest owner stays the newest, under its journal
    have hlast : ∀ p, w.owners[w.owners.length - 1]? = some p →
        ∃ p', (w.owners.set i (o.act S w.shared a).2)[w.owners.length - 1]? = some p' ∧ p'.journal = p.journal := by
      intro p hp
      by_cases heq : i = w.owners.length - 1
      · rw [← heq] at hp ⊢
        cases ho.symm.trans hp
        exact ⟨_, List.getElem?_set_self hi, hjournal⟩
      · exact ⟨p, (List.getElem?_set_ne heq).trans hp, rfl⟩
    rcases OpenFrom.transacted htransacts id r hr hopen with hmine | ⟨r', hr', hopen', hinstance⟩
    · by_cases heq : i + 1 < w.owners.length
      · -- an owner that is not the newest is closed, and left the store alone
        have hshut := hw.closed i o ho heq
        rw [htransacts.closed_same hshut] at hr
        obtain ⟨p, hp, hpr⟩ := hw.mine hne id r hr hopen
        obtain ⟨p', hp', hjournal'⟩ := hlast p hp
        exact ⟨p', hp', by rw [hpr, hjournal']⟩
      · have hnewest : w.owners[w.owners.length - 1]? = some o := by
          rw [← ho]
          congr 1
          omega
        obtain ⟨p', hp', hjournal'⟩ := hlast o hnewest
        exact ⟨p', hp', by rw [hmine, hjournal']⟩
    · obtain ⟨p, hp, hpr⟩ := hw.mine hne id r' hr' hopen'
      obtain ⟨p', hp', hjournal'⟩ := hlast p hp
      exact ⟨p', hp', by rw [← hinstance, hpr, hjournal']⟩

theorem step {w : World Value} (hw : NewestOwns S w) (a : Action Value) : NewestOwns S (w.step S a) := by
  cases a with
  | opens journal fault => exact hw.opens ..
  | once journal payload fault => exact hw.opens ..
  | advance seq => exact ⟨hw.closed, hw.mine⟩
  | act process a =>
    dsimp only [World.step]
    split
    · exact hw
    · rename_i o ho
      exact hw.act ho a

end NewestOwns

/-- In every run on any store: every owner but the newest has closed it, and once one has opened it each job that is
queued or running was admitted by the newest. -/
theorem open_jobs_newest [DecidableEq Value] (S : Serde Value) (st : Store) (actions : List (Action Value)) :
    NewestOwns S ((World.initial st).run S actions) := by
  have hrun : ∀ (actions : List (Action Value)) (w : World Value), NewestOwns S w → NewestOwns S (w.run S actions) := by
    intro actions
    induction actions with
    | nil => exact fun w hw => hw
    | cons a actions ih => exact fun w hw => ih _ (hw.step a)
  exact hrun actions _ (.initial st)

/-! ## The record limit -/

/-- The job records of the store. -/
def jobCount (st : Store) : Nat := (st.table.items.filter fun e => jobPrefix.toList.isPrefixOf e.1.toList).length

theorem jobCount_keys (st : Store) :
    jobCount st = (st.table.items.map (·.1)).countP fun key => jobPrefix.toList.isPrefixOf key.toList := by
  rw [List.countP_map, List.countP_eq_length_filter]
  rfl

/-- A record that is there is written over, and another adds one. -/
theorem save_count {st st' : Store} {r : Record Value} (h : save S st r = .ok st') :
    jobCount st' ≤ jobCount st + 1 ∧
      ((st.table.get (jobKey r.requestId)).isSome = true → jobCount st' = jobCount st) := by
  obtain ⟨text, -, rfl⟩ := save_ok h
  rw [jobCount_keys, jobCount_keys]
  dsimp only
  unfold OMap.put OMap.insert
  split
  · dsimp only
    rw [OMap.map_setItem_fst]
    exact ⟨Nat.le_succ _, fun _ => rfl⟩
  · rename_i hnot
    dsimp only
    rw [List.map_append, List.countP_append]
    refine ⟨Nat.add_le_add_left ?_ _, fun hsome => absurd hsome hnot⟩
    exact List.countP_le_length

theorem Recorded.stored {st : Store} {id : String} {r : Record Value} (h : Recorded S st id r) :
    (st.table.get (jobKey id)).isSome = true := by
  unfold Recorded load at h
  split at h
  · cases h
  · rename_i htext
    rw [htext]
    rfl

theorem change_count {j : Journal} {id message : String} {state : State} {f : Record Value → Record Value} {fault : Fault}
    {st : Store} (hid : ∀ r, (f r).requestId = r.requestId) :
    jobCount (write fault (change S j id state message f) st).2 = jobCount st := by
  rcases write_cases fault (change S j id state message f) st with ⟨hst, -⟩ | ⟨r', hr', -⟩
  · rw [hst]
  · obtain ⟨r, hr, -, -, hsave⟩ := change_ok hr'
    refine (save_count hsave).2 ?_
    rw [hid, hr.valid.2.2]
    exact hr.stored

theorem recover_count (fault : Fault) (st : Store) : jobCount (recover S fault st).2 = jobCount st := by
  rcases write_cases fault (fun st => (jobRows st).foldlM (recoverOne S) ([], st)) st with ⟨hst, -⟩ | ⟨records, h, -⟩
  · exact congrArg jobCount hst
  · have hrows : ∀ e ∈ jobRows st, (st.table.get e.1).isSome = true := by
      intro e he
      rw [mem_jobRows he]
      rfl
    refine (foldlM_invariant (P := fun acc : List (Record Value) × Store =>
        (∀ e ∈ jobRows st, (acc.2.table.get e.1).isSome = true) ∧ jobCount acc.2 = jobCount st)
      (fun acc e acc' he hone hacc => ?_) h ⟨hrows, rfl⟩).2
    simp only [recoverOne, bind_eq_ok] at hone
    obtain ⟨r, hdecode, hone⟩ := hone
    obtain ⟨-, -, -, hkey⟩ := decode_ok hdecode
    split at hone
    · obtain ⟨st', hsave, hpair⟩ := bind_eq_ok.1 hone
      cases hpair
      refine ⟨fun x hx => ?_, ?_⟩
      · obtain ⟨text, -, rfl⟩ := save_ok hsave
        dsimp only
        rw [OMap.get_put]
        split
        · rfl
        · exact hacc.1 x hx
      · refine ((save_count hsave).2 ?_).trans hacc.2
        dsimp only
        rw [← hkey]
        exact hacc.1 e he
    · cases hone
      exact hacc

section Limit

variable [DecidableEq Value]

/-- A request is inserted under the limit only. -/
theorem admit_count {j : Journal} {payload : Value} {fault : Fault} {st : Store} :
    jobCount (admitRequest S j payload fault st).2 ≤ max (jobCount st) j.limit := by
  unfold admitRequest
  split
  · exact Nat.le_max_left _ _
  · rename_i request _
    rcases write_cases fault (insertRecord S j request payload) st with ⟨hst, -⟩ | ⟨p, hp, -⟩
    · rw [hst]
      exact Nat.le_max_left _ _
    · simp only [insertRecord, bind_eq_ok] at hp
      obtain ⟨found, -, hp⟩ := hp
      cases found with
      | some r =>
        dsimp only at hp
        split at hp
        · cases hp
        · obtain ⟨-, hst⟩ := Prod.mk.inj (Except.ok.inj hp)
          rw [← hst]
          exact Nat.le_max_left _ _
      | none =>
        dsimp only at hp
        split at hp
        · cases hp
        · rename_i hlimit
          obtain ⟨st'', hsave, hpair⟩ := bind_eq_ok.1 hp
          obtain ⟨-, hst⟩ := Prod.mk.inj (Except.ok.inj hpair)
          rw [← hst]
          have hone := (save_count hsave).1
          have hroom : jobCount st < j.limit := Nat.lt_of_not_le hlimit
          omega

theorem Transacts.count {o : Owner Value} {st st' : Store} (h : Transacts S o st st') :
    jobCount st' ≤ max (jobCount st) o.journal.limit := by
  cases h with
  | same => exact Nat.le_max_left _ _
  | admits payload fault hclosed => exact admit_count
  | start id fault hclosed =>
    have hsame : jobCount (Jobs.start S o.journal id fault st).2 = jobCount st := by
      refine change_count ?_
      exact fun _ => rfl
    rw [hsame]
    exact Nat.le_max_left _ _
  | finish id state result error fault hclosed =>
    have hsame : jobCount (Jobs.finish S o.journal id state result error fault st).2 = jobCount st := by
      unfold Jobs.finish
      split
      · rfl
      · refine change_count ?_
        exact fun _ => rfl
    rw [hsame]
    exact Nat.le_max_left _ _

/-- The largest record limit of the owners there were, or the records there were before them. -/
def capacity (before : Nat) (owners : List (Owner Value)) : Nat := (owners.map (·.journal.limit)).foldr max before

omit [DecidableEq Value] in
theorem capacity_append (before : Nat) (owners : List (Owner Value)) (o : Owner Value) :
    capacity before owners ≤ capacity before (owners ++ [o]) := by
  induction owners with
  | nil => exact Nat.le_max_right _ _
  | cons p owners ih => exact max_le_max_left _ ih

omit [DecidableEq Value] in
theorem limit_le_capacity (before : Nat) {owners : List (Owner Value)} {o : Owner Value} (ho : o ∈ owners) :
    o.journal.limit ≤ capacity before owners := by
  induction owners with
  | nil => cases ho
  | cons p owners ih =>
    rcases List.mem_cons.mp ho with rfl | ho
    · exact Nat.le_max_left _ _
    · exact (ih ho).trans (Nat.le_max_right _ _)

theorem step_count {before : Nat} {w : World Value} (hw : jobCount w.shared.store ≤ capacity before w.owners)
    (a : Action Value) : jobCount (w.step S a).shared.store ≤ capacity before (w.step S a).owners := by
  have hopens : ∀ mode journal checked fault, jobCount (w.opens S mode journal checked fault).shared.store ≤
      capacity before (w.opens S mode journal checked fault).owners := by
    intro mode journal checked fault
    have hrecover := recover_count (S := S) fault w.shared.store
    unfold World.opens
    split
    · split
      · exact hw
      · split
        all_goals
          rename_i heq
          rw [heq] at hrecover
          rw [hrecover]
        · exact hw.trans (capacity_append _ _ _)
        · exact hw
    · exact hw
  cases a with
  | opens journal fault => exact hopens ..
  | once journal payload fault => exact hopens ..
  | advance seq => exact hw
  | act process a =>
    dsimp only [World.step]
    split
    · exact hw
    · rename_i o ho
      obtain ⟨htransacts, hjournal, -⟩ := o.act_acts (S := S) w.shared a
      have hlimits : capacity before (w.owners.set process (o.act S w.shared a).2) = capacity before w.owners := by
        unfold capacity
        obtain ⟨hlt, hget⟩ := List.getElem?_eq_some_iff.mp ho
        have hbound : process < (w.owners.map (·.journal.limit)).length := by simpa using hlt
        have hsame : o.journal.limit = (w.owners.map (·.journal.limit))[process] := by simp [hget]
        rw [List.map_set, hjournal, hsame, List.set_getElem_self]
      rw [hlimits]
      refine htransacts.count.trans (Nat.max_le.mpr ⟨hw, ?_⟩)
      exact limit_le_capacity before (List.mem_of_getElem? ho)

end Limit

/-- In every run on any store there are no more job records than the largest record limit of the owners so far, or than
there were before the first of them. -/
theorem job_records_limited [DecidableEq Value] (S : Serde Value) (st : Store) (actions : List (Action Value)) :
    jobCount ((World.initial st).run S actions).shared.store ≤
      capacity (jobCount st) ((World.initial st).run S actions).owners := by
  have hrun : ∀ (actions : List (Action Value)) (w : World Value), jobCount w.shared.store ≤ capacity (jobCount st) w.owners →
      jobCount (w.run S actions).shared.store ≤ capacity (jobCount st) (w.run S actions).owners := by
    intro actions
    induction actions with
    | nil => exact fun w hw => hw
    | cons a actions ih => exact fun w hw => ih _ (step_count hw a)
  exact hrun actions _ le_rfl

end TradeEngine.Jobs
