import TradeEngine.Ledger.Lemmas.Run

/-!
# One account of a log

An account is folded alone to the state it has in the whole log, whatever the other accounts do.
-/

namespace TradeEngine

open Lib

variable {A : Arith}

/-- Every event has its own sequence number, or none has one. -/
def Numbered (events : List Event) : Prop :=
  (∀ e ∈ events, e.seq.isSome) ∧ (events.map (·.seq)).Nodup ∨ ∀ e ∈ events, e.seq = none

theorem foldSteps_of_account {events : List Event} {a : String} (hall : ∀ e ∈ events, e.account = a)
    {s : States} {st : AccountState}
    (h : events.foldlM (applyEvent A) ((s.get a).getD (.new a)) = .ok st) :
    ∃ s', events.foldlM (foldStep A) s = .ok s' ∧ (s'.get a).getD (.new a) = st := by
  induction events generalizing s with
  | nil =>
      cases h
      exact ⟨s, rfl, rfl⟩
  | cons e events ih =>
      rw [List.foldlM_cons] at h
      obtain ⟨mid, hmid, hrest⟩ := bind_eq_ok.mp h
      obtain ⟨he, hall⟩ := List.forall_mem_cons.mp hall
      subst he
      have hnext : ((s.put e.account mid).get e.account).getD (.new e.account) = mid := by
        rw [OMap.get_put_self, Option.getD_some]
      rw [← hnext] at hrest
      obtain ⟨s', hs', hst⟩ := ih hall hrest
      refine ⟨s', bind_eq_ok.mpr ⟨s.put e.account mid, ?_, hs'⟩, hst⟩
      exact bind_eq_ok.mpr ⟨mid, hmid, rfl⟩

theorem ordered_of_none {events : List Event} (h : ∀ e ∈ events, e.seq = none) : ordered events = events := by
  unfold ordered
  split
  · next hall =>
      cases events with
      | nil => rfl
      | cons e events =>
          have he := List.all_eq_true.mp hall e List.mem_cons_self
          rw [h e List.mem_cons_self] at he
          cases he
  · rfl

theorem ordered_pairwise {events : List Event} (h : ∀ e ∈ events, e.seq.isSome) :
    (ordered events).Pairwise fun a b => a.seq.getD 0 ≤ b.seq.getD 0 := by
  have hall : events.all (·.seq.isSome) = true := List.all_eq_true.mpr h
  have : Std.Total fun a b : Event => a.seq.getD 0 ≤ b.seq.getD 0 := ⟨fun a b => le_total _ _⟩
  have : IsTrans Event fun a b => a.seq.getD 0 ≤ b.seq.getD 0 := ⟨fun _ _ _ => le_trans⟩
  rw [ordered, if_pos hall]
  exact List.pairwise_insertionSort _ _

theorem mem_ordered {events : List Event} {e : Event} : e ∈ ordered events ↔ e ∈ events :=
  (ordered_perm events).mem_iff

/-- Sequence numbers that differ leave one way to order the events. -/
theorem ordered_eq_of_perm {events sorted : List Event} (hsome : ∀ e ∈ events, e.seq.isSome)
    (hnodup : (events.map (·.seq)).Nodup) (hperm : sorted.Perm events)
    (hsorted : sorted.Pairwise fun a b => a.seq.getD 0 ≤ b.seq.getD 0) : ordered events = sorted := by
  have hsame : ∀ a ∈ events, ∀ b ∈ events, a.seq.getD 0 = b.seq.getD 0 → a = b := by
    intro a ha b hb hab
    apply List.inj_on_of_nodup_map hnodup ha hb
    obtain ⟨m, hm⟩ := Option.isSome_iff_exists.mp (hsome a ha)
    obtain ⟨n, hn⟩ := Option.isSome_iff_exists.mp (hsome b hb)
    simpa [hm, hn] using hab
  apply List.Perm.eq_of_pairwise _ (ordered_pairwise hsome) hsorted
  · exact (ordered_perm events).trans hperm.symm
  · intro a b ha hb hab hba
    exact hsame a (mem_ordered.mp ha) b (hperm.mem_iff.mp hb) (le_antisymm hab hba)

/-- Ordering a log and taking one account's part of it commute. -/
theorem ordered_filter {events : List Event} (h : Numbered events) (a : String) :
    (ordered events).filter (·.account = a) = ordered (events.filter (·.account = a)) := by
  rcases h with ⟨hsome, hnodup⟩ | hnone
  · symm
    apply ordered_eq_of_perm
    · exact fun e he => hsome e (List.mem_of_mem_filter he)
    · exact hnodup.sublist ((List.filter_sublist).map _)
    · exact (ordered_perm events).filter _
    · exact (ordered_pairwise hsome).filter _
  · rw [ordered_of_none hnone, ordered_of_none fun e he => hnone e (List.mem_of_mem_filter he)]

theorem ordered_ordered (events : List Event) : ordered (ordered events) = ordered events := by
  by_cases hall : ∀ e ∈ events, e.seq.isSome
  · have hall' : (ordered events).all (·.seq.isSome) = true :=
      List.all_eq_true.mpr fun e he => hall e (mem_ordered.mp he)
    rw [ordered, if_pos hall']
    exact (ordered_pairwise hall).insertionSort_eq
  · have hstays : ordered events = events := if_neg (by simpa [List.all_eq_true] using hall)
    rw [hstays, hstays]

theorem foldAccount_eq {events : List Event} (hn : Numbered events) {states : States}
    (h : fold A events = .ok states) (a : String) :
    foldAccount A events a = .ok ((states.get a).getD (.new a)) := by
  have hown : ∀ e ∈ (ordered events).filter (·.account = a), e.account = a :=
    fun e he => by simpa using (List.mem_filter.mp he).2
  obtain ⟨s', hs', hst⟩ := foldSteps_of_account hown (s := .empty) (fold_get h a)
  rw [foldAccount, fold, ordered_filter hn a, ordered_ordered, ← ordered_filter hn a]
  exact bind_eq_ok.mpr ⟨s', hs', by rw [hst]; rfl⟩

end TradeEngine
