import Mathlib.Algebra.Order.BigOperators.Group.Finset
import Mathlib.Data.List.Sort
import Mathlib.Tactic

/-!
# Matchings of supplies to demands

A matching is best when some set of demands holds all the unserved ones and has no supply that is not
already given inside the set. Serving the demands one by one along augmenting paths keeps such a set: a
demand that stays unserved adds itself and every demand its search came to.
-/

namespace TradeEngine.Lib

open Finset

/-! ## Matchings -/

section Matchings

variable {α β α' β' : Type} [DecidableEq β] [DecidableEq β']

/-- Pairs joined by `E` in which no supply and no demand occurs twice. -/
structure IsMatching (E : α → β → Prop) (M : Finset (α × β)) : Prop where
  edge : ∀ a b, (a, b) ∈ M → E a b
  supply : ∀ a b b', (a, b) ∈ M → (a, b') ∈ M → b = b'
  demand : ∀ a a' b, (a, b) ∈ M → (a', b) ∈ M → a = a'

/-- The demands of `S` a set of pairs leaves out. -/
def unserved (S : Finset β) (M : Finset (α × β)) : Finset β := S.filter fun b => b ∉ M.image Prod.snd

/-- A set of demands with all the unserved ones, whose supplies are all given inside the set. -/
structure Tight (E : α → β → Prop) (S : Finset β) (M : Finset (α × β)) (Z : Set β) : Prop where
  unserved_mem : ∀ b ∈ unserved S M, b ∈ Z
  given : ∀ b ∈ Z, ∀ a, E a b → ∃ c ∈ Z, (a, c) ∈ M

variable {E : α → β → Prop} {S : Finset β} {M : Finset (α × β)} {Z : Set β}
variable {E' : α' → β' → Prop} {S' : Finset β'} {M' : Finset (α' × β')}

theorem mem_unserved {b : β} : b ∈ unserved S M ↔ b ∈ S ∧ ∀ a, (a, b) ∉ M := by
  simp [unserved]

/-- A matching with a tight set leaves no more unserved, by any weight equal on the demands of one supply, than
a matching with fewer supplies to more demands. -/
theorem Tight.sum_unserved_le (h : Tight E S M Z) (hM : IsMatching E M) (hS : ∀ a b, (a, b) ∈ M → b ∈ S)
    (hM' : IsMatching E' M') {f : α' → α} {g : β → β'} (hf : ∀ a a' b b', E' a b → E' a' b' → f a = f a' → a = a')
    (hg : Set.InjOn g S) (hgS : ∀ b ∈ S, g b ∈ S') (hE : ∀ a, ∀ b ∈ S, E' a (g b) → E (f a) b)
    {w : β → ℕ} {w' : β' → ℕ} (hw : ∀ a b b', E a b → E a b' → w b = w b') (hww' : ∀ b ∈ S, w' (g b) = w b) :
    ∑ b ∈ unserved S M, w b ≤ ∑ b ∈ unserved S' M', w' b := by
  classical
  let T := S.filter (· ∈ Z)
  let U := unserved S M
  let V := S.filter fun b => g b ∈ unserved S' M'
  have hUT : U ⊆ T := fun b hb => mem_filter.2 ⟨(mem_unserved.1 hb).1, h.unserved_mem b hb⟩
  -- a demand of the set served by the other matching gives up its supply to one served by this one
  have hstep : ∀ b ∈ T \ V, ∃ c ∈ T \ U, w c = w b ∧ ∃ a, (a, g b) ∈ M' ∧ (f a, c) ∈ M := by
    intro b hb
    obtain ⟨hbT, hbV⟩ := mem_sdiff.1 hb
    obtain ⟨hbS, hbZ⟩ := mem_filter.1 hbT
    have hserved : ¬ (∀ a, (a, g b) ∉ M') := fun hno => hbV (mem_filter.2 ⟨hbS, mem_unserved.2 ⟨hgS b hbS, hno⟩⟩)
    push Not at hserved
    obtain ⟨a, ha⟩ := hserved
    have hab := hE a b hbS (hM'.edge a (g b) ha)
    obtain ⟨c, hcZ, hc⟩ := h.given b hbZ (f a) hab
    have hcU : c ∉ U := fun hcU => (mem_unserved.1 hcU).2 (f a) hc
    exact ⟨c, mem_sdiff.2 ⟨mem_filter.2 ⟨hS (f a) c hc, hcZ⟩, hcU⟩, hw (f a) c b (hM.edge _ _ hc) hab, a, ha, hc⟩
  choose! e heT hew hea using hstep
  have hinj : Set.InjOn e (T \ V : Finset β) := by
    intro b hb b' hb' heq
    obtain ⟨a, ha, hc⟩ := hea b hb
    obtain ⟨a', ha', hc'⟩ := hea b' hb'
    rw [heq] at hc
    have haa' : a = a' := hf a a' _ _ (hM'.edge _ _ ha) (hM'.edge _ _ ha') (hM.demand _ _ _ hc hc')
    rw [← haa'] at ha'
    have hbS : b ∈ S := (mem_filter.1 (mem_sdiff.1 hb).1).1
    have hbS' : b' ∈ S := (mem_filter.1 (mem_sdiff.1 hb').1).1
    exact hg hbS hbS' (hM'.supply _ _ _ ha ha')
  have hserved : ∑ b ∈ T \ V, w b ≤ ∑ b ∈ T \ U, w b := by
    calc ∑ b ∈ T \ V, w b = ∑ b ∈ T \ V, w (e b) := sum_congr rfl fun b hb => (hew b hb).symm
      _ = ∑ c ∈ (T \ V).image e, w c := (sum_image hinj).symm
      _ ≤ ∑ b ∈ T \ U, w b := sum_le_sum_of_subset (image_subset_iff.2 heT)
  have hV : ∑ b ∈ V, w b ≤ ∑ b ∈ unserved S' M', w' b := by
    calc ∑ b ∈ V, w b = ∑ b ∈ V, w' (g b) := sum_congr rfl fun b hb => (hww' b (mem_filter.1 hb).1).symm
      _ = ∑ c ∈ V.image g, w' c := (sum_image fun b hb b' hb' =>
          hg (mem_filter.1 hb).1 (mem_filter.1 hb').1).symm
      _ ≤ ∑ b ∈ unserved S' M', w' b := sum_le_sum_of_subset (image_subset_iff.2 fun b hb => (mem_filter.1 hb).2)
  have hTU : ∑ b ∈ T \ U, w b + ∑ b ∈ U, w b = ∑ b ∈ T, w b := sum_sdiff hUT
  have hTV : ∑ b ∈ T, w b ≤ ∑ b ∈ T \ V, w b + ∑ b ∈ V, w b := by
    rw [← sum_sdiff (inter_subset_left : T ∩ V ⊆ T), sdiff_inter_self_left]
    exact Nat.add_le_add_left (sum_le_sum_of_subset inter_subset_right) _
  change ∑ b ∈ U, w b ≤ _
  omega

end Matchings

/-! ## Augmenting paths -/

/-- A search for a supply: the supplies tried so far, and the demand each supply is given to. -/
structure Hunt where
  seen : Nat → Bool
  owner : Nat → Option Nat

def Hunt.see (st : Hunt) (a : Nat) : Hunt := { st with seen := Function.update st.seen a true }

def Hunt.give (st : Hunt) (a b : Nat) : Hunt := { st with owner := Function.update st.owner a (some b) }

section Search

variable (edge : Nat → Nat → Bool)

/-- The supplies in turn: a free one is taken, a given one once its owner finds a further one. -/
def tryEach (further : Nat → Hunt → Bool × Hunt) (b : Nat) : List Nat → Hunt → Bool × Hunt
  | [], st => (false, st)
  | a :: rest, st =>
    if !st.seen a && edge a b then
      let r := match st.owner a with
        | none => (true, st.see a)
        | some other => further other (st.see a)
      if r.1 then (true, r.2.give a b) else tryEach further b rest r.2
    else tryEach further b rest st

/-- A path from demand `b` to a free supply among the first `n`, each supply tried once. -/
def augment (n : Nat) : Nat → Nat → Hunt → Bool × Hunt
  | 0, _, st => (false, st)
  | fuel + 1, b, st => tryEach edge (augment n fuel) b (List.range n) st

/-- One more demand served, with no supply tried yet. -/
def serve (n : Nat) (owner : Nat → Option Nat) (b : Nat) : Nat → Option Nat :=
  (augment edge n (n + 1) b ⟨fun _ => false, owner⟩).2.owner

/-- The first `m` demands served in turn. -/
def assign (n m : Nat) : Nat → Option Nat := (List.range m).foldl (serve edge n) fun _ => none

end Search

section Paths

variable {edge : Nat → Nat → Bool} {n b : Nat} {st st' st'' : Hunt} {Z : Set Nat}

/-- A set of demands whose supplies are all given inside the set. -/
def Within (edge : Nat → Nat → Bool) (n : Nat) (owner : Nat → Option Nat) (Z : Set Nat) : Prop :=
  ∀ c ∈ Z, ∀ a < n, edge a c = true → ∃ d ∈ Z, owner a = some d

/-- What a search from `b` relies on: the supplies not tried are matched, none of them to `b`. -/
structure Ready (edge : Nat → Nat → Bool) (n b : Nat) (st : Hunt) : Prop where
  edge_owner : ∀ a c, st.seen a = false → st.owner a = some c → a < n ∧ edge a c = true
  owner_inj : ∀ a a' c, st.seen a = false → st.seen a' = false → st.owner a = some c → st.owner a' = some c → a = a'
  not_owner : ∀ a, st.seen a = false → st.owner a ≠ some b

/-- A search from `b` that ended at a free supply. -/
structure Found (edge : Nat → Nat → Bool) (n b : Nat) (st st' : Hunt) : Prop where
  owner_seen : ∀ a, st.seen a = true → st'.owner a = st.owner a
  edge_owner : ∀ a c, st.seen a = false → st'.owner a = some c → a < n ∧ edge a c = true
  owner_inj : ∀ a a' c, st.seen a = false → st.seen a' = false → st'.owner a = some c → st'.owner a' = some c → a = a'
  owners : ∀ c, (∃ a, st.seen a = false ∧ st'.owner a = some c) ↔ (∃ a, st.seen a = false ∧ st.owner a = some c) ∨ c = b
  within : ∀ Z, Within edge n st.owner Z → b ∉ Z ∧ ∀ a, ∀ c ∈ Z, st.owner a = some c → st'.owner a = some c

/-- A search from `b` over the supplies `l` that came to an end: whatever it tried is given, and to a demand all of
whose supplies it tried. -/
structure Stuck (edge : Nat → Nat → Bool) (n b : Nat) (l : List Nat) (st st' : Hunt) : Prop where
  owner_eq : st'.owner = st.owner
  seen_mono : ∀ a, st.seen a = true → st'.seen a = true
  given : ∀ a, st.seen a = false → st'.seen a = true →
    ∃ c, st.owner a = some c ∧ ∀ a' < n, edge a' c = true → st'.seen a' = true
  tried : ∀ a ∈ l, edge a b = true → st'.seen a = true

/-- How a search over `l` ends. -/
def Ends (edge : Nat → Nat → Bool) (n b : Nat) (l : List Nat) (st : Hunt) (r : Bool × Hunt) : Prop :=
  if r.1 then Found edge n b st r.2 else Stuck edge n b l st r.2

/-- How many supplies are still to be tried. -/
def untried (n : Nat) (st : Hunt) : Nat := ((range n).filter fun a => st.seen a = false).card

theorem see_seen (st : Hunt) (a a' : Nat) : (st.see a).seen a' = if a' = a then true else st.seen a' := by
  simp only [Hunt.see, Function.update_apply]

theorem give_owner (st : Hunt) (a c a' : Nat) :
    (st.give a c).owner a' = if a' = a then some c else st.owner a' := by
  simp only [Hunt.give, Function.update_apply]

theorem untried_mono (h : ∀ a, st.seen a = true → st'.seen a = true) : untried n st' ≤ untried n st := by
  apply card_le_card
  intro a ha
  obtain ⟨han, hseen⟩ := mem_filter.1 ha
  refine mem_filter.2 ⟨han, ?_⟩
  cases hs : st.seen a with
  | false => rfl
  | true => simp [h a hs] at hseen

theorem untried_see {a : Nat} (ha : a < n) (hs : st.seen a = false) : untried n (st.see a) < untried n st := by
  apply card_lt_card
  refine ⟨fun a' ha' => ?_, fun hsub => ?_⟩
  · obtain ⟨han, hseen⟩ := mem_filter.1 ha'
    rw [see_seen] at hseen
    split_ifs at hseen with heq
    exact mem_filter.2 ⟨han, hseen⟩
  · have hmem := (mem_filter.1 (hsub (mem_filter.2 ⟨mem_range.2 ha, hs⟩))).2
    simp [see_seen] at hmem

theorem Ready.mono (h : Ready edge n b st) (howner : st'.owner = st.owner)
    (hseen : ∀ a, st.seen a = true → st'.seen a = true) : Ready edge n b st' := by
  have hback : ∀ a, st'.seen a = false → st.seen a = false := by
    intro a ha
    cases hs : st.seen a with
    | false => rfl
    | true => simp [hseen a hs] at ha
  constructor
  · intro a c ha hc
    exact h.edge_owner a c (hback a ha) (howner ▸ hc)
  · intro a a' c ha ha' hc hc'
    exact h.owner_inj a a' c (hback a ha) (hback a' ha') (howner ▸ hc) (howner ▸ hc')
  · intro a ha
    rw [howner]
    exact h.not_owner a (hback a ha)

/-- The owner of a supply just tried may be asked to look further. -/
theorem Ready.other {a c : Nat} (h : Ready edge n b st) (ha : st.seen a = false) (hc : st.owner a = some c) :
    Ready edge n c (st.see a) := by
  have hback : ∀ a', (st.see a).seen a' = false → a' ≠ a ∧ st.seen a' = false := by
    intro a' ha'
    rw [see_seen] at ha'
    split_ifs at ha' with heq
    exact ⟨heq, ha'⟩
  constructor
  · intro a' d ha' hd
    exact h.edge_owner a' d (hback a' ha').2 hd
  · intro a' a'' d ha' ha'' hd hd'
    exact h.owner_inj a' a'' d (hback a' ha').2 (hback a'' ha'').2 hd hd'
  · intro a' ha' hd
    exact (hback a' ha').1 (h.owner_inj a' a c (hback a' ha').2 ha hd hc)

/-- A search that was stuck changes nothing for what is found after it. -/
theorem Found.after (hr : Ready edge n b st) (hs : Stuck edge n b [] st st') (h : Found edge n b st' st'') :
    Found edge n b st st'' := by
  have hsplit : ∀ a, st.seen a = false → st'.seen a = true → st''.owner a = st.owner a := by
    intro a _ ha'
    rw [h.owner_seen a ha', hs.owner_eq]
  have hback : ∀ a, st'.seen a = false → st.seen a = false := by
    intro a ha
    cases hseen : st.seen a with
    | false => rfl
    | true => simp [hs.seen_mono a hseen] at ha
  -- a demand found among the supplies left has its supply there, or is the new one
  have hleft : ∀ a c, st'.seen a = false → st''.owner a = some c →
      (∃ a', st'.seen a' = false ∧ st.owner a' = some c) ∨ c = b := by
    intro a c ha hc
    rw [← hs.owner_eq]
    exact (h.owners c).1 ⟨a, ha, hc⟩
  have hcross : ∀ a a' c, st.seen a = false → st'.seen a = false → st.seen a' = false → st'.seen a' = true →
      st''.owner a = some c → st''.owner a' = some c → False := by
    intro a a' c _ ha' hb hb' hc hc'
    rw [hsplit a' hb hb'] at hc'
    obtain ⟨a'', ha'', hc''⟩ | rfl := hleft a c ha' hc
    · have heq := hr.owner_inj a'' a' c (hback a'' ha'') hb hc'' hc'
      rw [heq, hb'] at ha''
      simp at ha''
    · exact hr.not_owner a' hb hc'
  constructor
  · intro a ha
    rw [h.owner_seen a (hs.seen_mono a ha), hs.owner_eq]
  · intro a c ha hc
    cases ha' : st'.seen a with
    | false => exact h.edge_owner a c ha' hc
    | true => exact hr.edge_owner a c ha (hsplit a ha ha' ▸ hc)
  · intro a a' c ha ha' hc hc'
    cases hsa : st'.seen a with
    | false =>
      cases hsa' : st'.seen a' with
      | false => exact h.owner_inj a a' c hsa hsa' hc hc'
      | true => exact (hcross a a' c ha hsa ha' hsa' hc hc').elim
    | true =>
      cases hsa' : st'.seen a' with
      | false => exact (hcross a' a c ha' hsa' ha hsa hc' hc).elim
      | true =>
        rw [hsplit a ha hsa] at hc
        rw [hsplit a' ha' hsa'] at hc'
        exact hr.owner_inj a a' c ha ha' hc hc'
  · intro c
    constructor
    · rintro ⟨a, ha, hc⟩
      cases hsa : st'.seen a with
      | false =>
        obtain ⟨a', ha', hc'⟩ | rfl := hleft a c hsa hc
        · exact .inl ⟨a', hback a' ha', hc'⟩
        · exact .inr rfl
      | true => exact .inl ⟨a, ha, hsplit a ha hsa ▸ hc⟩
    · rintro (⟨a, ha, hc⟩ | rfl)
      · cases hsa : st'.seen a with
        | false =>
          obtain ⟨a', ha', hc'⟩ := (h.owners c).2 (.inl ⟨a, hsa, hs.owner_eq ▸ hc⟩)
          exact ⟨a', hback a' ha', hc'⟩
        | true => exact ⟨a, ha, (hsplit a ha hsa).symm ▸ hc⟩
      · obtain ⟨a', ha', hc'⟩ := (h.owners c).2 (.inr rfl)
        exact ⟨a', hback a' ha', hc'⟩
  · intro Z hZ
    rw [← hs.owner_eq] at hZ ⊢
    exact h.within Z hZ

theorem Stuck.after {a : Nat} {l : List Nat} (hs : Stuck edge n b [] st st') (ha : edge a b = true → st'.seen a = true)
    (h : Stuck edge n b l st' st'') : Stuck edge n b (a :: l) st st'' := by
  constructor
  · rw [h.owner_eq, hs.owner_eq]
  · intro a' ha'
    exact h.seen_mono a' (hs.seen_mono a' ha')
  · intro a' ha' hseen
    cases hsa : st'.seen a' with
    | false => exact hs.owner_eq ▸ h.given a' hsa hseen
    | true =>
      obtain ⟨c, hc, htried⟩ := hs.given a' ha' hsa
      exact ⟨c, hc, fun a'' han he => h.seen_mono a'' (htried a'' han he)⟩
  · intro a' ha' he
    obtain rfl | ha' := List.mem_cons.1 ha'
    · exact h.seen_mono a' (ha he)
    · exact h.tried a' ha' he

theorem Ends.after {a : Nat} {l : List Nat} {r : Bool × Hunt} (hr : Ready edge n b st) (hs : Stuck edge n b [] st st')
    (ha : edge a b = true → st'.seen a = true) (h : Ends edge n b l st' r) : Ends edge n b (a :: l) st r := by
  unfold Ends at h ⊢
  cases hfound : r.1 with
  | true =>
    rw [if_pos hfound] at h
    exact h.after hr hs
  | false =>
    simp only [hfound, Bool.false_eq_true, if_false] at h ⊢
    exact hs.after ha h

theorem Stuck.refl : Stuck edge n b [] st st := by
  constructor
  · rfl
  · exact fun _ h => h
  · intro a ha ha'
    simp [ha] at ha'
  · simp

/-- Whether a supply just tried is not in the way: seen in neither state alone. -/
theorem see_false {a a' : Nat} (h : st.seen a' = false) (hne : a' ≠ a) : (st.see a).seen a' = false := by
  rw [see_seen, if_neg hne, h]

theorem not_within_of_free {a : Nat} (ha : a < n) (he : edge a b = true) (hfree : ∀ d ∈ Z, st.owner a ≠ some d)
    (hZ : Within edge n st.owner Z) : b ∉ Z := by
  intro hb
  obtain ⟨d, hd, howner⟩ := hZ b hb a ha he
  exact hfree d hd howner

/-- A free supply ends the search. -/
theorem Found.free {a : Nat} (hr : Ready edge n b st) (ha : a < n) (hs : st.seen a = false) (he : edge a b = true)
    (hfree : st.owner a = none) : Found edge n b st ((st.see a).give a b) := by
  have howner : ∀ a', ((st.see a).give a b).owner a' = if a' = a then some b else st.owner a' := give_owner _ _ _
  constructor
  · intro a' ha'
    rw [howner, if_neg]
    rintro rfl
    simp [hs] at ha'
  · intro a' c ha' hc
    rw [howner] at hc
    split_ifs at hc with heq
    · cases hc
      exact heq ▸ ⟨ha, he⟩
    · exact hr.edge_owner a' c ha' hc
  · intro a' a'' c ha' ha'' hc hc'
    rw [howner] at hc hc'
    split_ifs at hc hc' with heq heq' heq'
    · rw [heq, heq']
    · cases hc
      exact (hr.not_owner a'' ha'' hc').elim
    · cases hc'
      exact (hr.not_owner a' ha' hc).elim
    · exact hr.owner_inj a' a'' c ha' ha'' hc hc'
  · intro c
    constructor
    · rintro ⟨a', ha', hc⟩
      rw [howner] at hc
      split_ifs at hc with heq
      · cases hc
        exact .inr rfl
      · exact .inl ⟨a', ha', hc⟩
    · rintro (⟨a', ha', hc⟩ | rfl)
      · refine ⟨a', ha', ?_⟩
        rw [howner, if_neg, hc]
        rintro rfl
        simp [hfree] at hc
      · exact ⟨a, hs, by rw [howner, if_pos rfl]⟩
  · intro Z hZ
    refine ⟨not_within_of_free ha he (fun d _ => by simp [hfree]) hZ, ?_⟩
    intro a' c _ hc
    rw [howner, if_neg, hc]
    rintro rfl
    simp [hfree] at hc

/-- A given supply is handed on once its owner has found another. -/
theorem Found.handOn {a c : Nat} (hr : Ready edge n b st) (ha : a < n) (hs : st.seen a = false) (he : edge a b = true)
    (hc : st.owner a = some c) (h : Found edge n c (st.see a) st') : Found edge n b st (st'.give a b) := by
  have howner := give_owner st' a b
  have hbc : c ≠ b := fun heq => hr.not_owner a hs (heq ▸ hc)
  have hown : ∀ a', a' ≠ a → st.seen a' = true → st'.owner a' = st.owner a' := by
    intro a' hne ha'
    exact h.owner_seen a' (by rw [see_seen, if_neg hne, ha'])
  -- what is found on the supplies left was theirs or the demand that moved
  have hleft : ∀ a' d, a' ≠ a → st.seen a' = false → st'.owner a' = some d →
      ∃ a'', st.seen a'' = false ∧ st.owner a'' = some d := by
    intro a' d hne ha' hd
    obtain ⟨a'', ha'', hd'⟩ | rfl := (h.owners d).1 ⟨a', see_false ha' hne, hd⟩
    · rw [see_seen] at ha''
      split_ifs at ha''
      exact ⟨a'', ha'', hd'⟩
    · exact ⟨a, hs, hc⟩
  constructor
  · intro a' ha'
    have hne : a' ≠ a := by
      rintro rfl
      simp [hs] at ha'
    rw [howner, if_neg hne, hown a' hne ha']
  · intro a' d ha' hd
    rw [howner] at hd
    split_ifs at hd with heq
    · cases hd
      exact heq ▸ ⟨ha, he⟩
    · exact h.edge_owner a' d (see_false ha' heq) hd
  · intro a' a'' d ha' ha'' hd hd'
    rw [howner] at hd hd'
    split_ifs at hd hd' with heq heq' heq'
    · rw [heq, heq']
    · cases hd
      obtain ⟨x, hx, hxb⟩ := hleft a'' b heq' ha'' hd'
      exact (hr.not_owner x hx hxb).elim
    · cases hd'
      obtain ⟨x, hx, hxb⟩ := hleft a' b heq ha' hd
      exact (hr.not_owner x hx hxb).elim
    · exact h.owner_inj a' a'' d (see_false ha' heq) (see_false ha'' heq') hd hd'
  · intro d
    constructor
    · rintro ⟨a', ha', hd⟩
      rw [howner] at hd
      split_ifs at hd with heq
      · cases hd
        exact .inr rfl
      · exact .inl (hleft a' d heq ha' hd)
    · rintro (⟨a', ha', hd⟩ | rfl)
      · have hmoved : ∃ a'', (st.see a).seen a'' = false ∧ st'.owner a'' = some d := by
          by_cases heq : a' = a
          · rw [heq, hc] at hd
            cases hd
            exact (h.owners c).2 (.inr rfl)
          · exact (h.owners d).2 (.inl ⟨a', see_false ha' heq, hd⟩)
        obtain ⟨a'', ha'', hd'⟩ := hmoved
        rw [see_seen] at ha''
        split_ifs at ha'' with heq
        exact ⟨a'', ha'', by rw [howner, if_neg heq, hd']⟩
      · exact ⟨a, hs, by rw [howner, if_pos rfl]⟩
  · intro Z hZ
    obtain ⟨hcZ, hkept⟩ := h.within Z hZ
    refine ⟨not_within_of_free ha he ?_ hZ, ?_⟩
    · intro d hd hown
      rw [hc] at hown
      cases hown
      exact hcZ hd
    · intro a' d hd hd'
      rw [howner, if_neg, hkept a' d hd hd']
      rintro rfl
      rw [hc] at hd'
      cases hd'
      exact hcZ hd

/-- A supply whose owner found no other is behind the search. -/
theorem Stuck.pass {a c : Nat} (hc : st.owner a = some c) (h : Stuck edge n c (List.range n) (st.see a) st') :
    Stuck edge n b [] st st' ∧ st'.seen a = true := by
  have hmono : ∀ a', st.seen a' = true → (st.see a).seen a' = true := by
    intro a' ha'
    rw [see_seen]
    split_ifs
    · rfl
    · exact ha'
  constructor
  · constructor
    · exact h.owner_eq
    · intro a' ha'
      exact h.seen_mono a' (hmono a' ha')
    · intro a' ha' hseen
      by_cases heq : a' = a
      · exact ⟨c, heq ▸ hc, fun a'' han he => h.tried a'' (List.mem_range.2 han) he⟩
      · exact h.given a' (see_false ha' heq) hseen
    · simp
  · exact h.seen_mono a (by rw [see_seen, if_pos rfl])

/-- The supplies of a list in turn, when the owners of given ones search as they should. -/
theorem tryEach_ends {further : Nat → Hunt → Bool × Hunt} {k : Nat}
    (hfur : ∀ c st, untried n st < k → Ready edge n c st → Ends edge n c (List.range n) st (further c st))
    (l : List Nat) (hl : ∀ a ∈ l, a < n) (hk : untried n st ≤ k) (hr : Ready edge n b st) :
    Ends edge n b l st (tryEach edge further b l st) := by
  induction l generalizing st with
  | nil => exact Stuck.refl
  | cons a l ih =>
    have ha : a < n := hl a (by simp)
    have hl' : ∀ a' ∈ l, a' < n := fun a' ha' => hl a' (by simp [ha'])
    rw [tryEach]
    by_cases hcond : (!st.seen a && edge a b) = true
    · rw [if_pos hcond]
      obtain ⟨hs, he⟩ : st.seen a = false ∧ edge a b = true := by simpa using hcond
      cases howner : st.owner a with
      | none =>
        simp only [if_true]
        exact Found.free hr ha hs he howner
      | some c =>
        have hends := hfur c (st.see a) ((untried_see ha hs).trans_le hk) (hr.other hs howner)
        simp only
        unfold Ends at hends
        cases hfound : (further c (st.see a)).1 with
        | true =>
          rw [if_pos hfound] at hends
          simp only [if_true]
          exact hends.handOn hr ha hs he howner
        | false =>
          simp only [hfound, Bool.false_eq_true, if_false] at hends ⊢
          obtain ⟨hpass, hseen⟩ := hends.pass (b := b) howner
          exact (ih hl' ((untried_mono hpass.seen_mono).trans hk) (hr.mono hpass.owner_eq hpass.seen_mono)).after
            hr hpass fun _ => hseen
    · rw [if_neg hcond]
      apply (ih hl' hk hr).after hr .refl
      intro he
      simpa [he] using hcond

/-- A search with fuel for every supply left ends at a free supply or has tried all it could. -/
theorem augment_ends {fuel : Nat} (hfuel : untried n st < fuel) (hr : Ready edge n b st) :
    Ends edge n b (List.range n) st (augment edge n fuel b st) := by
  induction fuel generalizing b st with
  | zero => omega
  | succ fuel ih =>
    exact tryEach_ends (fun c st hk hr => ih hk hr) _ (fun a ha => List.mem_range.1 ha) (Nat.lt_succ_iff.1 hfuel) hr

/-! ## Serving every demand -/

/-- The first `m` demands matched as well as can be: a set with all the unserved ones is closed. -/
structure Served (edge : Nat → Nat → Bool) (n m : Nat) (owner : Nat → Option Nat) : Prop where
  edge_owner : ∀ a c, owner a = some c → a < n ∧ c < m ∧ edge a c = true
  owner_inj : ∀ a a' c, owner a = some c → owner a' = some c → a = a'
  closed : ∃ Z, Within edge n owner Z ∧ ∀ c < m, (∀ a, owner a ≠ some c) → c ∈ Z

theorem Served.ready {m : Nat} {owner : Nat → Option Nat} (h : Served edge n m owner) :
    Ready edge n m ⟨fun _ => false, owner⟩ := by
  constructor
  · intro a c _ hc
    exact ⟨(h.edge_owner a c hc).1, (h.edge_owner a c hc).2.2⟩
  · intro a a' c _ _ hc hc'
    exact h.owner_inj a a' c hc hc'
  · intro a _ hc
    exact absurd (h.edge_owner a m hc).2.1 (lt_irrefl m)

theorem untried_le (n : Nat) (st : Hunt) : untried n st ≤ n := by
  calc untried n st ≤ (range n).card := card_filter_le _ _
    _ = n := card_range n

/-- Serving the next demand: it is found a supply, or it joins the closed set with all its search came to. -/
theorem Served.serve {m : Nat} {owner : Nat → Option Nat} (h : Served edge n m owner) :
    Served edge n (m + 1) (serve edge n owner m) := by
  have hends := augment_ends (Nat.lt_succ_of_le (untried_le n ⟨fun _ => false, owner⟩)) h.ready
  obtain ⟨Z, hZ, hin⟩ := h.closed
  unfold Ends at hends
  unfold TradeEngine.Lib.serve
  set r := augment edge n (n + 1) m ⟨fun _ => false, owner⟩ with hr
  cases hfound : r.1 with
  | true =>
    rw [if_pos hfound] at hends
    have howners : ∀ c, (∃ a, r.2.owner a = some c) ↔ (∃ a, owner a = some c) ∨ c = m := by
      simpa using hends.owners
    obtain ⟨hmZ, hkept⟩ := hends.within Z hZ
    constructor
    · intro a c hc
      obtain ⟨ha, he⟩ := hends.edge_owner a c rfl hc
      refine ⟨ha, ?_, he⟩
      obtain ⟨a', ha'⟩ | rfl := (howners c).1 ⟨a, hc⟩
      · exact Nat.lt_succ_of_lt (h.edge_owner a' c ha').2.1
      · exact Nat.lt_succ_self c
    · intro a a' c hc hc'
      exact hends.owner_inj a a' c rfl rfl hc hc'
    · refine ⟨Z, ?_, ?_⟩
      · intro c hc a ha he
        obtain ⟨d, hd, howner⟩ := hZ c hc a ha he
        exact ⟨d, hd, hkept a d hd howner⟩
      · intro c hc hno
        have hboth := mt (howners c).2 (fun ⟨a, ha⟩ => hno a ha)
        push Not at hboth
        exact hin c (by omega) hboth.1
  | false =>
    simp only [hfound, Bool.false_eq_true, if_false] at hends
    have howner : r.2.owner = owner := hends.owner_eq
    rw [howner]
    constructor
    · intro a c hc
      obtain ⟨ha, hcm, he⟩ := h.edge_owner a c hc
      exact ⟨ha, Nat.lt_succ_of_lt hcm, he⟩
    · exact h.owner_inj
    · -- the demands whose supply the search tried, and the demand it started from
      refine ⟨Z ∪ {c | c = m ∨ ∃ a, r.2.seen a = true ∧ owner a = some c}, ?_, ?_⟩
      · have hgiven : ∀ a, r.2.seen a = true → ∃ c, owner a = some c := by
          intro a ha
          obtain ⟨c, hc, -⟩ := hends.given a rfl ha
          exact ⟨c, hc⟩
        have hnew : ∀ a, r.2.seen a = true →
            ∃ d ∈ Z ∪ {c | c = m ∨ ∃ a, r.2.seen a = true ∧ owner a = some c}, owner a = some d := by
          intro a ha
          obtain ⟨d, hd⟩ := hgiven a ha
          exact ⟨d, .inr (.inr ⟨a, ha, hd⟩), hd⟩
        rintro c (hc | rfl | ⟨a', ha', hc⟩) a ha he
        · obtain ⟨d, hd, hown⟩ := hZ c hc a ha he
          exact ⟨d, .inl hd, hown⟩
        · exact hnew a (hends.tried a (List.mem_range.2 ha) he)
        · obtain ⟨c', hc', htried⟩ := hends.given a' rfl ha'
          have heq : c' = c := by
            have hsome := hc'.symm.trans hc
            simpa using hsome
          exact hnew a (htried a ha (heq ▸ he))
      · intro c hc hno
        rcases Nat.lt_succ_iff_lt_or_eq.1 hc with hlt | rfl
        · exact .inl (hin c hlt hno)
        · exact .inr (.inl rfl)

theorem assign_served (n m : Nat) : Served edge n m (assign edge n m) := by
  induction m with
  | zero =>
    constructor
    · intro a c hc
      simp [assign] at hc
    · intro a a' c hc
      simp [assign] at hc
    · exact ⟨∅, fun c hc => hc.elim, fun c hc => absurd hc (Nat.not_lt_zero c)⟩
  | succ m ih =>
    have hstep : assign edge n (m + 1) = serve edge n (assign edge n m) m := by
      simp [assign, List.range_succ]
    rw [hstep]
    exact ih.serve

end Paths

/-! ## The demands left -/

/-- The first `m` demands no supply is given to. -/
def unassigned (edge : Nat → Nat → Bool) (n m : Nat) : List Nat :=
  let covered := (List.range n).filterMap (assign edge n m)
  (List.range m).filter fun b => !covered.contains b

section Left

variable {edge edge' : Nat → Nat → Bool} {n m n' m' : Nat}

/-- A supply and a demand among the first that may be matched. -/
def Joined (edge : Nat → Nat → Bool) (n m a b : Nat) : Prop := a < n ∧ b < m ∧ edge a b = true

def pairsOf (n : Nat) (owner : Nat → Option Nat) : Finset (Nat × Nat) :=
  ((List.range n).filterMap fun a => (owner a).map fun b => (a, b)).toFinset

theorem mem_pairsOf {owner : Nat → Option Nat} {a b : Nat} : (a, b) ∈ pairsOf n owner ↔ a < n ∧ owner a = some b := by
  simp [pairsOf, and_left_comm]

theorem mem_unassigned {b : Nat} : b ∈ unassigned edge n m ↔ b < m ∧ ∀ a, assign edge n m a ≠ some b := by
  have hlt : ∀ a, assign edge n m a = some b → a < n := fun a h => ((assign_served n m).edge_owner a b h).1
  simp only [unassigned, List.mem_filter, List.mem_range, Bool.not_eq_true', List.contains_eq_mem, decide_eq_false_iff_not,
    List.mem_filterMap, not_exists, not_and]
  exact and_congr_right fun _ => forall_congr' fun a => ⟨fun h ha => h (hlt a ha) ha, fun h _ => h⟩

theorem nodup_unassigned : (unassigned edge n m).Nodup := List.nodup_range.filter _

theorem toFinset_unassigned : (unassigned edge n m).toFinset = unserved (range m) (pairsOf n (assign edge n m)) := by
  ext b
  rw [List.mem_toFinset, mem_unassigned, mem_unserved, mem_range]
  simp only [mem_pairsOf, not_and]
  have hlt : ∀ a, assign edge n m a = some b → a < n := fun a h => ((assign_served n m).edge_owner a b h).1
  exact and_congr_right fun _ => forall_congr' fun a => ⟨fun h _ => h, fun h ha => h (hlt a ha) ha⟩

theorem assign_isMatching : IsMatching (Joined edge n m) (pairsOf n (assign edge n m)) := by
  have h : Served edge n m (assign edge n m) := assign_served n m
  constructor
  · intro a b hab
    exact h.edge_owner a b (mem_pairsOf.1 hab).2
  · intro a b b' hb hb'
    have heq := (mem_pairsOf.1 hb).2.symm.trans (mem_pairsOf.1 hb').2
    simpa using heq
  · intro a a' b ha ha'
    exact h.owner_inj a a' b (mem_pairsOf.1 ha).2 (mem_pairsOf.1 ha').2

theorem assign_tight : ∃ Z, Tight (Joined edge n m) (range m) (pairsOf n (assign edge n m)) Z := by
  have h : Served edge n m (assign edge n m) := assign_served n m
  obtain ⟨Z, hZ, hin⟩ := h.closed
  refine ⟨Z, ?_, ?_⟩
  · intro b hb
    rw [← toFinset_unassigned, List.mem_toFinset, mem_unassigned] at hb
    exact hin b hb.1 hb.2
  · intro b hb a hab
    obtain ⟨d, hd, howner⟩ := hZ b hb a hab.1 hab.2.2
    exact ⟨d, hd, mem_pairsOf.2 ⟨hab.1, howner⟩⟩

theorem sum_unassigned (w : Nat → ℕ) :
    ((unassigned edge n m).map w).sum = ∑ b ∈ unserved (range m) (pairsOf n (assign edge n m)), w b := by
  rw [← toFinset_unassigned, List.sum_toFinset w nodup_unassigned]

/-- No matching leaves fewer demands. -/
theorem length_unassigned_le {M : Finset (Nat × Nat)} (hM : IsMatching (Joined edge n m) M) :
    (unassigned edge n m).length ≤ (unserved (range m) M).card := by
  obtain ⟨Z, hZ⟩ : ∃ Z, Tight (Joined edge n m) (range m) (pairsOf n (assign edge n m)) Z := assign_tight
  have h : ∑ b ∈ unserved (range m) (pairsOf n (assign edge n m)), 1 ≤ ∑ b ∈ unserved (range m) M, 1 :=
    hZ.sum_unserved_le assign_isMatching (fun a b hab => mem_range.2 (assign_isMatching.edge a b hab).2.1) hM
      (f := id) (g := id) (fun _ _ _ _ _ _ h => h) (Set.injOn_id _) (fun _ h => h) (fun _ _ _ h => h) (fun _ _ _ _ _ => rfl)
      (fun _ _ => rfl)
  rw [← sum_unassigned] at h
  simpa using h

theorem card_add_unserved {M : Finset (Nat × Nat)} (hM : IsMatching (Joined edge n m) M) :
    M.card + (unserved (range m) M).card = m := by
  have himage : (M.image Prod.snd).card = M.card := by
    apply card_image_of_injOn
    rintro ⟨a, b⟩ hab ⟨a', b'⟩ hab' (rfl : b = b')
    rw [hM.demand a a' b hab hab']
  have hsub : M.image Prod.snd ⊆ range m := by
    intro b hb
    obtain ⟨⟨a, b⟩, hab, rfl⟩ := mem_image.1 hb
    exact mem_range.2 (hM.edge a b hab).2.1
  have hsdiff : unserved (range m) M = range m \ M.image Prod.snd := by
    ext b
    simp [unserved]
  rw [hsdiff, ← himage, add_comm, card_sdiff_add_card_eq_card hsub, card_range]

/-- The matching that serves the demands in turn is a greatest one. -/
theorem isGreatest_assign :
    IsGreatest {k | ∃ M, IsMatching (Joined edge n m) M ∧ M.card = k} (m - (unassigned edge n m).length) := by
  have hlength : (unassigned edge n m).length = (unserved (range m) (pairsOf n (assign edge n m))).card := by
    rw [← toFinset_unassigned, List.toFinset_card_of_nodup nodup_unassigned]
  have hmatching : IsMatching (Joined edge n m) (pairsOf n (assign edge n m)) := assign_isMatching
  have hcard := card_add_unserved hmatching
  constructor
  · exact ⟨_, assign_isMatching, by omega⟩
  · rintro k ⟨M, hM, rfl⟩
    have hle := length_unassigned_le hM
    have hM' := card_add_unserved hM
    omega

end Left

/-! ## Lists of supplies and demands -/

section Lists

variable {γ δ : Type} {rel : γ → δ → Bool}

/-- Where two lists have elements that `rel` joins. -/
def edgeOf (rel : γ → δ → Bool) (L : List γ) (S : List δ) (a b : Nat) : Bool :=
  match L[a]?, S[b]? with
  | some x, some y => rel x y
  | _, _ => false

theorem edgeOf_eq_true {L : List γ} {S : List δ} {a b : Nat} :
    edgeOf rel L S a b = true ↔ ∃ x y, L[a]? = some x ∧ S[b]? = some y ∧ rel x y = true := by
  unfold edgeOf
  cases L[a]? <;> cases S[b]? <;> simp

/-- Each element of a list is found in a longer one, at a place of its own. -/
theorem exists_places {l l' : List γ} (h : l.Subperm l') : ∃ f : Nat → Nat,
    (∀ i j, i < l.length → j < l.length → f i = f j → i = j) ∧ ∀ i < l.length, l'[f i]? = l[i]? := by
  obtain ⟨l₁, hperm, hsub⟩ := h
  have hperm' : ∃ f : Nat → Nat,
      (∀ i j, i < l.length → j < l.length → f i = f j → i = j) ∧ ∀ i < l.length, l₁[f i]? = l[i]? := by
    replace hperm := hperm.symm
    clear hsub
    induction hperm with
    | nil => exact ⟨id, fun _ _ _ _ h => h, by simp⟩
    | @cons x l l₁ _ ih =>
      obtain ⟨f, hinj, hget⟩ := ih
      refine ⟨fun i => i.casesOn 0 fun i => f i + 1, ?_, ?_⟩
      · rintro (_ | i) (_ | j) hi hj heq
        · rfl
        · simp at heq
        · simp at heq
        · simp only [List.length_cons, Nat.add_lt_add_iff_right] at hi hj
          rw [hinj i j hi hj (by simpa using heq)]
      · rintro (_ | i) hi
        · rfl
        · simp only [List.length_cons, Nat.add_lt_add_iff_right] at hi
          simpa using hget i hi
    | swap x y l =>
      refine ⟨fun i => if i = 0 then 1 else if i = 1 then 0 else i, ?_, ?_⟩
      · intro i j _ _ heq
        simp only at heq
        split_ifs at heq <;> omega
      · rintro (_ | _ | i) _ <;> simp
    | @trans l l₁ l₂ hperm _ ih ih' =>
      obtain ⟨f, hinj, hget⟩ := ih
      obtain ⟨g, ginj, gget⟩ := ih'
      have hlt : ∀ i < l.length, f i < l₁.length := by
        intro i hi
        have hsome := hget i hi
        rw [List.getElem?_eq_getElem hi] at hsome
        exact (List.getElem?_eq_some_iff.1 hsome).1
      refine ⟨fun i => g (f i), ?_, ?_⟩
      · intro i j hi hj heq
        exact hinj i j hi hj (ginj _ _ (hlt i hi) (hlt j hj) heq)
      · intro i hi
        rw [gget _ (hlt i hi), hget i hi]
  have hsub' : ∃ f : Nat → Nat, (∀ i j, f i = f j → i = j) ∧ ∀ i < l₁.length, l'[f i]? = l₁[i]? := by
    clear hperm hperm'
    induction hsub with
    | slnil => exact ⟨id, fun _ _ h => h, by simp⟩
    | cons x _ ih =>
      obtain ⟨f, hinj, hget⟩ := ih
      exact ⟨fun i => f i + 1, fun i j h => hinj i j (by simpa using h), fun i hi => by simpa using hget i hi⟩
    | cons_cons x _ ih =>
      obtain ⟨f, hinj, hget⟩ := ih
      refine ⟨fun i => i.casesOn 0 fun i => f i + 1, ?_, ?_⟩
      · rintro (_ | i) (_ | j) heq
        · rfl
        · simp at heq
        · simp at heq
        · rw [hinj i j (by simpa using heq)]
      · rintro (_ | i) hi
        · rfl
        · simp only [List.length_cons, Nat.add_lt_add_iff_right] at hi
          simpa using hget i hi
  obtain ⟨f, hinj, hget⟩ := hperm'
  obtain ⟨g, ginj, gget⟩ := hsub'
  refine ⟨fun i => g (f i), fun i j hi hj heq => hinj i j hi hj (ginj _ _ heq), fun i hi => ?_⟩
  have hsome := hget i hi
  rw [List.getElem?_eq_getElem hi] at hsome
  rw [gget _ (List.getElem?_eq_some_iff.1 hsome).1, hget i hi]

/-- The demands left of a list. -/
def leftOf (rel : γ → δ → Bool) (L : List γ) (S : List δ) : List δ :=
  (unassigned (edgeOf rel L S) L.length S.length).filterMap (S[·]?)

theorem sum_leftOf (L : List γ) (S : List δ) (w : δ → ℕ) : ((leftOf rel L S).map w).sum =
    ∑ b ∈ unserved (range S.length) (pairsOf L.length (assign (edgeOf rel L S) L.length S.length)), (S[b]?).elim 0 w := by
  rw [← sum_unassigned, leftOf]
  induction unassigned (edgeOf rel L S) L.length S.length with
  | nil => rfl
  | cons b l ih =>
    cases hb : S[b]? with
    | none => simp [hb, ih]
    | some y => simp [hb, ih]

/-- Fewer supplies or more demands leave no less, by any weight equal on the demands of one supply. -/
theorem sum_leftOf_le {L L' : List γ} {S S' : List δ} (hL : L'.Subperm L) (hS : S.Subperm S') {w : δ → ℕ}
    (hw : ∀ x y y', rel x y = true → rel x y' = true → w y = w y') :
    ((leftOf rel L S).map w).sum ≤ ((leftOf rel L' S').map w).sum := by
  obtain ⟨f, finj, fget⟩ := exists_places hL
  obtain ⟨g, ginj, gget⟩ := exists_places hS
  obtain ⟨Z, hZ⟩ : ∃ Z, Tight (Joined (edgeOf rel L S) L.length S.length) (range S.length)
      (pairsOf L.length (assign (edgeOf rel L S) L.length S.length)) Z := assign_tight
  rw [sum_leftOf, sum_leftOf]
  apply hZ.sum_unserved_le assign_isMatching (fun a b hab => mem_range.2 (assign_isMatching.edge a b hab).2.1)
    assign_isMatching (f := f) (g := g)
  · intro a a' b b' hab hab' heq
    exact finj a a' hab.1 hab'.1 heq
  · intro b hb b' hb' heq
    exact ginj b b' (by simpa using hb) (by simpa using hb') heq
  · intro b hb
    have hget := gget b (mem_range.1 hb)
    rw [List.getElem?_eq_getElem (mem_range.1 hb)] at hget
    exact mem_range.2 (List.getElem?_eq_some_iff.1 hget).1
  · intro a b hb hab
    obtain ⟨x, y, hx, hy, hxy⟩ := edgeOf_eq_true.1 hab.2.2
    rw [gget b (mem_range.1 hb)] at hy
    have hx' : L[f a]? = some x := by rw [fget a hab.1, hx]
    exact ⟨(List.getElem?_eq_some_iff.1 hx').1, mem_range.1 hb, edgeOf_eq_true.2 ⟨x, y, hx', hy, hxy⟩⟩
  · intro a b b' hab hab'
    obtain ⟨x, y, hx, hy, hxy⟩ := edgeOf_eq_true.1 hab.2.2
    obtain ⟨x', y', hx', hy', hxy'⟩ := edgeOf_eq_true.1 hab'.2.2
    have heq : x = x' := Option.some.inj (hx.symm.trans hx')
    rw [hy, hy']
    exact hw x y y' hxy (heq ▸ hxy')
  · intro b hb
    rw [gget b (mem_range.1 hb)]

end Lists

end TradeEngine.Lib
