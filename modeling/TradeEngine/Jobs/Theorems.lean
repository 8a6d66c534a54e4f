import TradeEngine.Jobs.Actor

/-!
# A job runs at most once

A record only moves forward: it is queued, runs, and ends, and its payload and its end are final. The host is called
for a record that this instance has just moved from queued to running, and no record is ever queued again.
-/

namespace TradeEngine.Jobs

open Lib

variable {Value : Type} {S : Serde Value}

/-! ## Reading what was saved -/

theorem jobKey_injective : Function.Injective jobKey := fun _ _ h => (String.append_right_inj _).1 h

theorem decode_ok {text key : String} {r : Record Value} (h : decode S text key = .ok r) :
    S.read text = .ok r ∧ r.version = recordVersion ∧ identifier r.requestId = true ∧ key = jobKey r.requestId := by
  simp only [decode, bind_eq_ok, except_mapError_eq_ok] at h
  obtain ⟨record, hread, h⟩ := h
  split at h
  · cases h
  · rename_i hversion
    split at h
    · cases h
    · rename_i hkey
      cases h
      simp only [Bool.or_eq_true, Bool.not_eq_true', decide_eq_true_eq, not_or, Bool.not_eq_false, not_not] at hkey
      exact ⟨hread, not_not.1 hversion, hkey.1, hkey.2⟩

theorem decode_of {text : String} {r : Record Value} (hread : S.read text = .ok r) (hversion : r.version = recordVersion)
    (hid : identifier r.requestId = true) : decode S text (jobKey r.requestId) = .ok r := by
  simp [decode, hread, hversion, hid, Except.mapError]

/-- The record a request has. -/
def Recorded (S : Serde Value) (st : Store) (id : String) (r : Record Value) : Prop := load S st id = .ok (some r)

theorem Recorded.unique {st : Store} {id : String} {r r' : Record Value} (h : Recorded S st id r) (h' : Recorded S st id r') :
    r = r' := by
  rw [Recorded, h] at h'
  cases h'
  rfl

theorem Recorded.valid {st : Store} {id : String} {r : Record Value} (h : Recorded S st id r) :
    r.version = recordVersion ∧ identifier r.requestId = true ∧ r.requestId = id := by
  unfold Recorded load at h
  split at h
  · cases h
  · obtain ⟨r', hdecode, hr⟩ := except_map_eq_ok.1 h
    cases hr
    obtain ⟨-, hversion, hid, hkey⟩ := decode_ok hdecode
    exact ⟨hversion, hid, (jobKey_injective hkey).symm⟩

theorem save_ok {st st' : Store} {r : Record Value} (h : save S st r = .ok st') :
    ∃ text, S.write r = .ok text ∧ st' = { st with table := st.table.put (jobKey r.requestId) text } := by
  simp only [save, bind_eq_ok, except_mapError_eq_ok, pure_eq_ok] at h
  obtain ⟨text, htext, rfl⟩ := h
  exact ⟨text, htext, rfl⟩

/-- What is read back of a record. -/
def reread (S : Serde Value) (r : Record Value) : Record Value := { r with result := r.result.filter (!S.isNull ·) }

theorem save_recorded {st st' : Store} {r : Record Value} (h : save S st r = .ok st') (hversion : r.version = recordVersion)
    (hid : identifier r.requestId = true) : Recorded S st' r.requestId (reread S r) := by
  obtain ⟨text, htext, rfl⟩ := save_ok h
  rw [Recorded, load, OMap.get_put_self]
  dsimp only
  have hdecode : decode S text (jobKey r.requestId) = .ok (reread S r) :=
    decode_of (r := reread S r) (S.read_write htext) hversion hid
  rw [hdecode]
  rfl

theorem save_other {st st' : Store} {r : Record Value} {id : String} (h : save S st r = .ok st') (hne : id ≠ r.requestId) :
    load S st' id = load S st id := by
  obtain ⟨text, -, rfl⟩ := save_ok h
  rw [load, load, OMap.get_put_ne _ _ fun heq => hne (jobKey_injective heq)]

/-! ## What a store becomes -/

/-- Every record stays, with its payload; an ended one stays as it is, and none is queued again. -/
def Evolves (S : Serde Value) (st st' : Store) : Prop :=
  ∀ id r, Recorded S st id r → ∃ r', Recorded S st' id r' ∧ r'.payload = r.payload ∧
    (r.state.isOpen = false → r' = r) ∧ (r.state ≠ .queued → r'.state ≠ .queued)

namespace Evolves

theorem refl (st : Store) : Evolves S st st := fun _ r h => ⟨r, h, rfl, fun _ => rfl, fun hq => hq⟩

theorem trans {a b c : Store} (h : Evolves S a b) (h' : Evolves S b c) : Evolves S a c := by
  intro id r hr
  obtain ⟨r₁, hr₁, hpayload, hended, hqueued⟩ := h id r hr
  obtain ⟨r₂, hr₂, hpayload', hended', hqueued'⟩ := h' id r₁ hr₁
  refine ⟨r₂, hr₂, hpayload'.trans hpayload, fun hopen => ?_, fun hne => hqueued' (hqueued hne)⟩
  obtain rfl := hended hopen
  exact hended' hopen

/-- A record is moved on. -/
theorem moved {st st' : Store} {id : String} {r r' : Record Value} (hr : Recorded S st id r) (hopen : r.state.isOpen = true)
    (h : save S st r' = .ok st') (hid : r'.requestId = r.requestId) (hversion : r'.version = r.version)
    (hpayload : r'.payload = r.payload) (hstate : r'.state ≠ .queued) : Evolves S st st' ∧ Recorded S st' id (reread S r') := by
  obtain ⟨hv, hident, rfl⟩ := hr.valid
  have hsaved := save_recorded h (hversion.trans hv) (hid ▸ hident)
  rw [hid] at hsaved
  refine ⟨fun other x hx => ?_, hsaved⟩
  by_cases heq : other = r.requestId
  · subst heq
    obtain rfl := hr.unique hx
    refine ⟨reread S r', hsaved, hpayload, fun hended => ?_, fun _ => hstate⟩
    rw [hopen] at hended
    cases hended
  · refine ⟨x, ?_, rfl, fun _ => rfl, fun hq => hq⟩
    rw [Recorded, save_other h (hid ▸ heq)]
    exact hx

/-- A request that had no record gets one. -/
theorem inserted {st st' : Store} {r : Record Value} (hnone : load S st r.requestId = .ok none)
    (h : save S st r = .ok st') : Evolves S st st' := by
  intro id x hx
  have hne : id ≠ r.requestId := by
    rintro rfl
    rw [Recorded, hnone] at hx
    cases hx
  refine ⟨x, ?_, rfl, fun _ => rfl, fun hq => hq⟩
  rw [Recorded, save_other h hne]
  exact hx

end Evolves

/-! ## Transactions -/

theorem write_cases {α : Type} (fault : Fault) (operation : Store → J (α × Store)) (st : Store) :
    ((write fault operation st).2 = st ∧ ∃ e, (write fault operation st).1 = .error e) ∨
      ∃ a, operation st = .ok (a, (write fault operation st).2) ∧
        ((write fault operation st).1 = .ok a ∨ ∃ e, (write fault operation st).1 = .error e) := by
  cases hop : operation st with
  | error e => cases fault <;> exact .inl (by simp [write, hop])
  | ok p =>
    cases fault with
    | refused e => exact .inl (by simp [write])
    | lost e => exact .inr ⟨p.1, by simp [write, hop]⟩
    | none => exact .inr ⟨p.1, by simp [write, hop]⟩

/-- A transaction that reports success took effect. -/
theorem write_ok {α : Type} {fault : Fault} {operation : Store → J (α × Store)} {st : Store} {a : α}
    (h : (write fault operation st).1 = .ok a) : operation st = .ok (a, (write fault operation st).2) := by
  rcases write_cases fault operation st with ⟨-, e, he⟩ | ⟨b, hb, hok | ⟨e, he⟩⟩
  · rw [h] at he
    cases he
  · rw [h] at hok
    cases hok
    exact hb
  · rw [h] at he
    cases he

theorem write_evolves {α : Type} {fault : Fault} {operation : Store → J (α × Store)} {st : Store}
    (h : ∀ a st', operation st = .ok (a, st') → Evolves S st st') : Evolves S st (write fault operation st).2 := by
  rcases write_cases fault operation st with ⟨hst, -⟩ | ⟨a, ha, -⟩
  · rw [hst]
    exact .refl st
  · exact h a _ ha

/-! ## Changes of one record -/

theorem change_ok {j : Journal} {id message : String} {state : State} {f : Record Value → Record Value} {st st' : Store}
    {r' : Record Value} (h : change S j id state message f st = .ok (r', st')) :
    ∃ r, Recorded S st id r ∧ r.state = state ∧ r' = f r ∧ save S st (f r) = .ok st' := by
  simp only [change, bind_eq_ok] at h
  obtain ⟨found, hfound, h⟩ := h
  cases found with
  | none => cases h
  | some r =>
    dsimp only at h
    split at h
    · cases h
    · rename_i hcheck
      simp only [Bool.or_eq_true, decide_eq_true_eq, not_or, not_not] at hcheck
      obtain ⟨st'', hsave, hpair⟩ := bind_eq_ok.1 h
      cases hpair
      exact ⟨r, hfound, hcheck.1, rfl, hsave⟩

theorem finish_evolves (j : Journal) (id : String) (state : State) (result : Option Value) (error : Option Failure)
    (fault : Fault) (st : Store) : Evolves S st (finish S j id state result error fault st).2 := by
  unfold finish
  split
  · exact .refl st
  · rename_i hcheck
    have hopen : state.isOpen = false := by
      simp only [Bool.or_eq_true, not_or, Bool.not_eq_true] at hcheck
      exact hcheck.1.1
    refine write_evolves fun r' st' h => ?_
    obtain ⟨r, hr, hstate, rfl, hsave⟩ := change_ok h
    refine (Evolves.moved hr (by rw [hstate]; rfl) hsave rfl rfl rfl ?_).1
    rintro heq
    dsimp only at heq
    rw [heq] at hopen
    cases hopen

/-! ## Recovery -/

theorem recoverOne_evolves {acc acc' : List (Record Value) × Store} {e : String × String}
    (hget : acc.2.table.get e.1 = some e.2) (h : recoverOne S acc e = .ok acc') :
    Evolves S acc.2 acc'.2 ∧ ∀ key ≠ e.1, acc'.2.table.get key = acc.2.table.get key := by
  simp only [recoverOne, bind_eq_ok] at h
  obtain ⟨r, hdecode, h⟩ := h
  obtain ⟨-, hversion, hid, hkey⟩ := decode_ok hdecode
  have hr : Recorded S acc.2 r.requestId r := by
    rw [Recorded, load, ← hkey, hget]
    dsimp only
    rw [hdecode]
    rfl
  split at h
  · rename_i hopen
    obtain ⟨st, hsave, hpair⟩ := bind_eq_ok.1 h
    cases hpair
    refine ⟨(Evolves.moved hr hopen hsave rfl rfl rfl (by simp)).1, fun key hne => ?_⟩
    obtain ⟨text, -, rfl⟩ := save_ok hsave
    exact OMap.get_put_ne _ _ (by rw [← hkey]; exact hne)
  · cases h
    exact ⟨.refl _, fun _ _ => rfl⟩

theorem mem_jobRows {st : Store} {e : String × String} (h : e ∈ jobRows st) : st.table.get e.1 = some e.2 := by
  rw [jobRows, List.mem_insertionSort, List.mem_map] at h
  obtain ⟨x, hx, rfl⟩ := h
  exact OMap.get_of_mem (List.mem_of_mem_filter hx)

theorem nodup_jobRows (st : Store) : ((jobRows st).map (·.1)).Nodup := by
  have hperm := (List.perm_insertionSort (fun a b : String × String => ¬ b.1 < a.1)
    ((st.table.items.filter fun e => jobPrefix.toList.isPrefixOf e.1.toList).map fun e => (e.1, e.2.2))).map (·.1)
  rw [jobRows, hperm.nodup_iff, List.map_map]
  exact st.table.nodup.sublist (List.filter_sublist.map _)

/-- There is a record. -/
def Known (S : Serde Value) (st : Store) (id : String) : Prop := ∃ r, Recorded S st id r

/-- There is a record, and it is not queued. -/
def Started (S : Serde Value) (st : Store) (id : String) : Prop := ∃ r, Recorded S st id r ∧ r.state ≠ .queued

theorem Known.evolves {st st' : Store} {id : String} (h : Known S st id) (hst : Evolves S st st') : Known S st' id := by
  obtain ⟨r, hr⟩ := h
  obtain ⟨r', hr', -⟩ := hst id r hr
  exact ⟨r', hr'⟩

theorem Started.evolves {st st' : Store} {id : String} (h : Started S st id) (hst : Evolves S st st') :
    Started S st' id := by
  obtain ⟨r, hr, hstate⟩ := h
  obtain ⟨r', hr', -, -, hqueued⟩ := hst id r hr
  exact ⟨r', hr', hqueued hstate⟩

section Admission

variable {j : Journal} {payload : Value}

theorem checkRequest_ok {request : Request Value} (h : checkRequest S j payload = .ok request) :
    identifier request.requestId = true := by
  simp only [checkRequest, bind_eq_ok] at h
  obtain ⟨request', -, h⟩ := h
  split at h
  · cases h
  · split at h
    · cases h
    · rename_i hid
      split at h
      · cases h
      · split at h
        · cases h
        · cases h
          simp only [Bool.or_eq_true, Bool.not_eq_true', not_or, Bool.not_eq_false] at hid
          exact hid.1

variable [DecidableEq Value]

end Admission

/-! ## What a process does -/

/-- The job whose host is about to be called. -/
def Worker.startedId : Worker Value → Option String
  | .started id _ => some id
  | _ => none

/-- What a step of a process can do: the store evolves; a start is of a queued record, a call of a started one; what is
acknowledged has a record; and so has what waits for it. -/
structure Moves (S : Serde Value) (s s' : Shared) (o o' : Owner Value) : Prop where
  evolves : Evolves S s.store s'.store
  runs : (s'.runs = s.runs ∧ (o'.worker.startedId = none ∨ o'.worker.startedId = o.worker.startedId ∨
      ∃ id, o'.worker.startedId = some id ∧ ¬ Started S s.store id ∧ Started S s'.store id)) ∨
    ∃ id, o.worker.startedId = some id ∧ s'.runs = s.runs ++ [id] ∧ o'.worker.startedId = none
  acks : s'.acks = s.acks ∨
    ∃ id, s'.acks = s.acks ++ [id] ∧ (Known S s.store id ∨ ∃ r ∈ o.waiting, r.requestId = id)
  waiting : ∀ r ∈ o'.waiting, r ∈ o.waiting ∨ Known S s'.store r.requestId

namespace Moves

variable {s s' : Shared} {o o' : Owner Value}

/-- Nothing is written, started, called or acknowledged. -/
theorem of_same (hworker : o'.worker.startedId = none ∨ o'.worker.startedId = o.worker.startedId)
    (hwaiting : ∀ r ∈ o'.waiting, r ∈ o.waiting) : Moves S s s o o' where
  evolves := .refl _
  runs := .inl ⟨rfl, hworker.imp (fun h => h) .inl⟩
  acks := .inl rfl
  waiting := fun r hr => .inl (hwaiting r hr)

theorem refl (s : Shared) (o : Owner Value) : Moves S s s o o := of_same (.inr rfl) fun _ hr => hr

theorem ended (s : Shared) (o : Owner Value) : Moves S s s o o.ended := of_same (.inl rfl) fun _ hr => by cases hr

/-- The store evolves, and nothing is started, called or acknowledged. -/
theorem of_evolves {st : Store} (hst : Evolves S s.store st)
    (hworker : o'.worker.startedId = none ∨ o'.worker.startedId = o.worker.startedId)
    (hwaiting : ∀ r ∈ o'.waiting, r ∈ o.waiting ∨ Known S st r.requestId) : Moves S s { s with store := st } o o' where
  evolves := hst
  runs := .inl ⟨rfl, hworker.imp (fun h => h) .inl⟩
  acks := .inl rfl
  waiting := hwaiting

end Moves

namespace Owner

theorem finish_moves (o : Owner Value) (fault : Fault) (s : Shared) :
    Moves S s (o.finish S fault s).1 o (o.finish S fault s).2 := by
  unfold finish
  split
  · rename_i id outcome hworker
    have hst := finish_evolves (S := S) o.journal id outcome.parts.1 outcome.parts.2.1 outcome.parts.2.2
      (o.writeFault fault) s.store
    split
    · rename_i r st hfinish
      rw [hfinish] at hst
      exact .of_evolves hst (.inl rfl) fun _ hr => .inl hr
    · rename_i e st hfinish
      rw [hfinish] at hst
      exact .of_evolves hst (.inl rfl) fun _ hr => .inl hr
  · exact .refl s o

end Owner

/-! ## Every run -/

namespace World

variable [DecidableEq Value]

theorem run_append (w : World Value) (before after : List (Action Value)) :
    w.run S (before ++ after) = (w.run S before).run S after := List.foldl_append ..

end World

end TradeEngine.Jobs
