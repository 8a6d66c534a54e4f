import Mathlib.Tactic

/-!
# A map that keeps insertion order

Entries are compared by a text key. Writing an existing key replaces the value and keeps both the
position and the first key object; removing an entry lets a later write go to the end.
-/

namespace TradeEngine.Lib

variable {K V : Type}

/-- The entries in insertion order; no text key occurs twice. -/
structure OMap (K V : Type) where
  items : List (String × K × V)
  nodup : (items.map (·.1)).Nodup

namespace OMap

def empty : OMap K V := ⟨[], by simp⟩

instance : Inhabited (OMap K V) := ⟨empty⟩

def get (m : OMap K V) (hk : String) : Option V := (m.items.find? (·.1 == hk)).map (·.2.2)

def contains (m : OMap K V) (hk : String) : Bool := (m.get hk).isSome

def values (m : OMap K V) : List V := m.items.map (·.2.2)

def entries (m : OMap K V) : List (K × V) := m.items.map (·.2)

/-- Replace the value stored under `hk`, leaving position and key object alone. -/
def setItem (hk : String) (v : V) (e : String × K × V) : String × K × V :=
  if e.1 = hk then (e.1, e.2.1, v) else e

theorem setItem_fst (hk : String) (v : V) (e : String × K × V) : (setItem hk v e).1 = e.1 := by
  unfold setItem; split <;> rfl

theorem map_setItem_fst (hk : String) (v : V) (l : List (String × K × V)) :
    (l.map (setItem hk v)).map (·.1) = l.map (·.1) := by
  simp [List.map_map, Function.comp_def, setItem_fst]

theorem get_eq_none {m : OMap K V} {hk : String} :
    m.get hk = none ↔ hk ∉ m.items.map (·.1) := by
  simp only [get, Option.map_eq_none_iff, List.find?_eq_none, List.mem_map, not_exists, not_and,
    beq_iff_eq]

theorem contains_eq_false {m : OMap K V} {hk : String} :
    m.contains hk = false ↔ hk ∉ m.items.map (·.1) := by
  rw [← get_eq_none, contains, Option.isSome_eq_false_iff, Option.isNone_iff_eq_none]

def insert (m : OMap K V) (hk : String) (k : K) (v : V) : OMap K V :=
  if h : m.contains hk then ⟨m.items.map (setItem hk v), by rw [map_setItem_fst]; exact m.nodup⟩
  else
    ⟨m.items ++ [(hk, k, v)], by
      have hk' := contains_eq_false.mp (Bool.not_eq_true _ ▸ h)
      simp only [List.map_append, List.map_cons, List.map_nil]
      refine List.nodup_append.mpr ⟨m.nodup, by simp, ?_⟩
      rintro a ha b hb rfl
      exact hk' (List.mem_singleton.mp hb ▸ ha)⟩

def remove (m : OMap K V) (hk : String) : OMap K V :=
  ⟨m.items.filter (·.1 != hk), m.nodup.sublist (List.filter_sublist.map _)⟩

/-- Setting a text-keyed entry. -/
def put (m : OMap String V) (key : String) (v : V) : OMap String V := m.insert key key v

/-! ## Reading after writing -/

@[simp] theorem get_empty (hk : String) : (empty : OMap K V).get hk = none := rfl

private theorem find_map_setItem (l : List (String × K × V)) (hk hk' : String) (v : V) :
    ((l.map (setItem hk v)).find? (·.1 == hk')).map (·.2.2) =
      if hk' = hk then (l.find? (·.1 == hk')).map (fun _ => v)
      else (l.find? (·.1 == hk')).map (·.2.2) := by
  induction l with
  | nil => simp
  | cons e l ih =>
      simp only [List.map_cons, List.find?_cons, setItem_fst]
      by_cases he : e.1 = hk'
      · simp only [he, beq_self_eq_true, Option.map_some]
        unfold setItem
        split <;> rename_i h <;> simp_all
      · simpa [beq_eq_false_iff_ne.mpr he] using ih

theorem get_insert (m : OMap K V) (hk hk' : String) (k : K) (v : V) :
    (m.insert hk k v).get hk' = if hk' = hk then some v else m.get hk' := by
  unfold insert
  split
  · rename_i h
    simp only [get]
    rw [find_map_setItem]
    split
    · rename_i heq
      subst heq
      obtain ⟨w, hw⟩ := Option.isSome_iff_exists.mp h
      simp only [get, Option.map_eq_some_iff] at hw
      obtain ⟨e, he, -⟩ := hw
      simp [he]
    · rfl
  · rename_i h
    have hn : m.get hk = none := by simpa [contains] using h
    simp only [get, List.find?_append, List.find?_cons, List.find?_nil]
    by_cases heq : hk' = hk
    · subst heq
      have hf : List.find? (fun x => x.1 == hk') m.items = none := by simpa [get] using hn
      simp [hf]
    · have : (hk == hk') = false := by simpa using fun h => heq h.symm
      simp [this, heq]

@[simp] theorem get_insert_self (m : OMap K V) (hk : String) (k : K) (v : V) :
    (m.insert hk k v).get hk = some v := by simp [get_insert]

theorem get_insert_ne (m : OMap K V) {hk hk' : String} (k : K) (v : V) (h : hk' ≠ hk) :
    (m.insert hk k v).get hk' = m.get hk' := by simp [get_insert, h]

theorem get_put (m : OMap String V) (key key' : String) (v : V) :
    (m.put key v).get key' = if key' = key then some v else m.get key' := get_insert ..

@[simp] theorem get_put_self (m : OMap String V) (key : String) (v : V) :
    (m.put key v).get key = some v := by simp [get_put]

theorem get_put_ne (m : OMap String V) {key key' : String} (v : V) (h : key' ≠ key) :
    (m.put key v).get key' = m.get key' := by simp [get_put, h]

theorem get_remove (m : OMap K V) (k k' : String) :
    (m.remove k).get k' = if k' = k then none else m.get k' := by
  obtain ⟨l, hl⟩ := m
  simp only [get, remove]
  by_cases hk : k' = k
  · subst hk
    simp [List.find?_filter]
  · rw [if_neg hk, List.find?_filter]
    congr 2
    funext e
    by_cases he : e.1 = k'
    · subst he; simp [hk]
    · simp [he]

/-! ## Entries and values -/

theorem get_of_mem {m : OMap K V} {e : String × K × V} (h : e ∈ m.items) :
    m.get e.1 = some e.2.2 := by
  obtain ⟨l, hl⟩ := m
  simp only at h
  simp only [get]
  induction l with
  | nil => simp at h
  | cons x l ih =>
      simp only [List.map_cons, List.nodup_cons] at hl
      rcases List.mem_cons.mp h with rfl | h
      · simp
      · have hne : x.1 ≠ e.1 := fun heq => hl.1 (heq ▸ List.mem_map_of_mem h)
        simpa [List.find?_cons, beq_eq_false_iff_ne.mpr hne] using ih hl.2 h

theorem mem_of_get {m : OMap K V} {hk : String} {v : V} (h : m.get hk = some v) :
    ∃ k, (hk, k, v) ∈ m.items := by
  simp only [get, Option.map_eq_some_iff] at h
  obtain ⟨e, he, rfl⟩ := h
  have hk' : e.1 = hk := by simpa using List.find?_some he
  exact ⟨e.2.1, hk' ▸ List.mem_of_find?_eq_some he⟩

theorem mem_values_of_get {m : OMap K V} {hk : String} {v : V} (h : m.get hk = some v) :
    v ∈ m.values := by
  obtain ⟨k, hk⟩ := mem_of_get h
  exact List.mem_map.mpr ⟨_, hk, rfl⟩

theorem mem_insert {m : OMap K V} {hk : String} {k : K} {v : V} {e : String × K × V}
    (h : e ∈ (m.insert hk k v).items) :
    (e.1 = hk ∧ e.2.2 = v) ∨ (e ∈ m.items ∧ e.1 ≠ hk) := by
  unfold insert at h
  split at h
  · obtain ⟨x, hx, rfl⟩ := List.mem_map.mp h
    unfold setItem
    split
    · exact Or.inl ⟨by assumption, rfl⟩
    · exact Or.inr ⟨hx, by assumption⟩
  · rename_i hc
    have hn := contains_eq_false.mp (Bool.not_eq_true _ ▸ hc)
    rcases List.mem_append.mp h with h | h
    · exact Or.inr ⟨h, fun heq => hn (heq ▸ List.mem_map_of_mem h)⟩
    · rw [List.mem_singleton] at h; subst h; exact Or.inl ⟨rfl, rfl⟩

/-- What is true of every key with its own text stays true of a map that is written to. -/
theorem forall_keys_insert {P : String → K → Prop} {m : OMap K V} {hk : String} {k : K} {v : V}
    (h : ∀ e ∈ m.items, P e.1 e.2.1) (hnew : P hk k) : ∀ e ∈ (m.insert hk k v).items, P e.1 e.2.1 := by
  intro e he
  unfold insert at he
  split at he
  · obtain ⟨x, hx, rfl⟩ := List.mem_map.mp he
    unfold setItem
    split
    · exact h x hx
    · exact h x hx
  · rcases List.mem_append.mp he with he | he
    · exact h e he
    · rw [List.mem_singleton.mp he]
      exact hnew

/-! ## The first value a reading accepts -/

section First

variable {β : Type} {f : V → Option β}

theorem exists_first {m : OMap K V} {b : β} (h : m.values.findSome? f = some b) :
    ∃ pre x post, m.items = pre ++ x :: post ∧ f x.2.2 = some b ∧ ∀ e ∈ pre, f e.2.2 = none := by
  obtain ⟨l₁, v, l₂, hl, hv, hnone⟩ := List.findSome?_eq_some_iff.mp h
  obtain ⟨pre, rest, hitems, rfl, hrest⟩ := List.map_eq_append_iff.mp hl
  obtain ⟨x, post, rfl, rfl, -⟩ := List.map_eq_cons_iff.mp hrest
  exact ⟨pre, x, post, hitems, hv, fun e he => hnone _ (List.mem_map_of_mem he)⟩

/-- Writing at the first accepted key, with a value that is accepted, keeps it the first. -/
theorem findSome?_put {m : OMap String V} {pre post : List (String × String × V)}
    {x : String × String × V} {v : V} {b : β} (h : m.items = pre ++ x :: post)
    (hpre : ∀ e ∈ pre, f e.2.2 = none) (hv : f v = some b) :
    (m.put x.1 v).values.findSome? f = some b := by
  have hmem : x ∈ m.items := h ▸ List.mem_append_right _ List.mem_cons_self
  have hc : m.contains x.1 = true := by rw [contains, get_of_mem hmem]; rfl
  have hnodup := m.nodup
  rw [h, List.map_append, List.map_cons, List.nodup_append] at hnodup
  have hset : pre.map (setItem x.1 v) = pre := by
    refine (List.map_congr_left fun e he => ?_).trans (List.map_id pre)
    have hne : e.1 ≠ x.1 := hnodup.2.2 _ (List.mem_map_of_mem he) _ List.mem_cons_self
    simp only [setItem, hne, if_false, id_eq]
  have hitems : (m.put x.1 v).items = pre ++ (x.1, x.2.1, v) :: post.map (setItem x.1 v) := by
    simp only [put, insert, hc, dite_true, h, List.map_append, List.map_cons, hset]
    simp [setItem]
  refine List.findSome?_eq_some_iff.mpr ⟨pre.map (·.2.2), v, (post.map (setItem x.1 v)).map (·.2.2),
    by simp [values, hitems], hv, ?_⟩
  intro w hw
  obtain ⟨e, he, rfl⟩ := List.mem_map.mp hw
  exact hpre e he

/-- Writing at another key keeps the first one, unless an earlier value is then accepted. -/
theorem findSome?_put_ne {m : OMap String V} {pre post : List (String × String × V)}
    {x : String × String × V} {key : String} {v : V} {b : β} (h : m.items = pre ++ x :: post)
    (hpre : ∀ e ∈ pre, f e.2.2 = none) (hx : f x.2.2 = some b) (hne : x.1 ≠ key)
    (hv : key ∈ pre.map (·.1) → f v = none) : (m.put key v).values.findSome? f = some b := by
  have hsome : ∀ {l₁ l₂ : List (String × String × V)}, (∀ e ∈ l₁, f e.2.2 = none) →
      ((l₁ ++ x :: l₂).map (·.2.2)).findSome? f = some b := by
    intro l₁ l₂ hl
    refine List.findSome?_eq_some_iff.mpr ⟨l₁.map (·.2.2), x.2.2, l₂.map (·.2.2), by simp, hx, ?_⟩
    intro w hw
    obtain ⟨e, he, rfl⟩ := List.mem_map.mp hw
    exact hl e he
  unfold put insert values
  split
  · dsimp only
    rw [h, List.map_append, List.map_cons]
    have hset : setItem key v x = x := by simp [setItem, hne]
    rw [hset]
    refine hsome fun e he => ?_
    obtain ⟨y, hy, rfl⟩ := List.mem_map.mp he
    unfold setItem
    split
    · rename_i hkey
      exact hv (hkey ▸ List.mem_map_of_mem hy)
    · exact hpre y hy
  · dsimp only
    rw [h, List.append_assoc]
    exact hsome hpre

end First

/-- A reading that the new value shares with the one it replaces is the same over all values. -/
theorem map_values_put {β : Type} (g : V → β) {m : OMap String V} {key : String} {v w : V}
    (hw : m.get key = some w) (hg : g v = g w) : (m.put key v).values.map g = m.values.map g := by
  have hc : m.contains key = true := by simp [contains, hw]
  unfold put insert values
  rw [dif_pos hc, List.map_map, List.map_map, List.map_map]
  refine List.map_congr_left fun e he => ?_
  simp only [Function.comp_apply, setItem]
  split
  · rename_i hkey
    have hget := get_of_mem he
    rw [hkey, hw] at hget
    cases hget
    exact hg
  · rfl

/-! ## Other values under the same keys -/

/-! ## Sums over the values -/

section Sum

variable {M : Type} [AddCommGroup M]

def sumBy (f : V → M) (m : OMap K V) : M := (m.values.map f).sum

@[simp] theorem sumBy_empty (f : V → M) : sumBy f (empty : OMap K V) = 0 := by
  simp [sumBy, values, empty]

private theorem sum_map_setItem (f : V → M) (l : List (String × K × V)) (hk : String) (v w : V)
    (hn : (l.map (·.1)).Nodup) (hw : (l.find? (·.1 == hk)).map (·.2.2) = some w) :
    ((l.map (setItem hk v)).map (fun e => f e.2.2)).sum =
      (l.map (fun e => f e.2.2)).sum - f w + f v := by
  induction l with
  | nil => simp at hw
  | cons e l ih =>
      simp only [List.map_cons, List.nodup_cons] at hn
      by_cases he : e.1 = hk
      · have hl : l.map (setItem hk v) = l := by
          refine (List.map_congr_left fun x hx => ?_).trans (List.map_id l)
          have hne : x.1 ≠ hk := fun heq => hn.1 (he ▸ heq ▸ List.mem_map_of_mem hx)
          simp only [setItem, hne, if_false, id_eq]
        simp only [List.find?_cons, he, beq_self_eq_true, Option.map_some, Option.some.injEq] at hw
        simp only [List.map_cons, List.sum_cons, hl, ← hw]
        simp only [setItem, he, if_true]
        abel
      · have hw' : (l.find? (·.1 == hk)).map (·.2.2) = some w := by
          simpa [List.find?_cons, beq_eq_false_iff_ne.mpr he] using hw
        simp only [List.map_cons, List.sum_cons, ih hn.2 hw']
        simp only [setItem, he, if_false]
        abel

theorem sumBy_insert_of_get (f : V → M) {m : OMap K V} {hk : String} {w : V} (k : K) (v : V)
    (h : m.get hk = some w) : sumBy f (m.insert hk k v) = sumBy f m - f w + f v := by
  have hc : m.contains hk = true := by simp [contains, h]
  unfold insert
  simp only [hc, dite_true, sumBy, values, List.map_map, Function.comp_def]
  simpa [List.map_map, Function.comp_def] using sum_map_setItem f m.items hk v w m.nodup h

theorem sumBy_insert_of_none (f : V → M) {m : OMap K V} {hk : String} (k : K) (v : V)
    (h : m.get hk = none) : sumBy f (m.insert hk k v) = sumBy f m + f v := by
  have hc : m.contains hk = false := by simp [contains, h]
  unfold insert
  simp [hc, sumBy, values]

/-- One write changes the sum by the new value less the one it replaces. -/
theorem sumBy_insert (f : V → M) (m : OMap K V) (hk : String) (k : K) (v : V) :
    sumBy f (m.insert hk k v) = sumBy f m - ((m.get hk).map f).getD 0 + f v := by
  cases h : m.get hk with
  | none => simp [sumBy_insert_of_none f k v h]
  | some w => simp [sumBy_insert_of_get f k v h]

/-- The sum of what each key makes of its value. -/
def sumEntries (g : K → V → M) (m : OMap K V) : M := (m.items.map fun e => g e.2.1 e.2.2).sum

theorem sumEntries_insert_of_none (g : K → V → M) {m : OMap K V} {hk : String} (k : K) (v : V)
    (h : m.get hk = none) : sumEntries g (m.insert hk k v) = sumEntries g m + g k v := by
  have hc : m.contains hk = false := by simp [contains, h]
  unfold insert
  simp [hc, sumEntries]

/-- Writing a key again changes what its first key object makes of the value. -/
theorem sumEntries_insert_of_mem (g : K → V → M) {m : OMap K V} {hk : String} {k₀ : K} {w : V} (k : K)
    (v : V) (h : (hk, k₀, w) ∈ m.items) :
    sumEntries g (m.insert hk k v) = sumEntries g m - g k₀ w + g k₀ v := by
  have hc : m.contains hk = true := by simp [contains, get_of_mem h]
  have hgen : ∀ l : List (String × K × V), (l.map (·.1)).Nodup → (hk, k₀, w) ∈ l →
      ((l.map (setItem hk v)).map fun e => g e.2.1 e.2.2).sum =
        (l.map fun e => g e.2.1 e.2.2).sum - g k₀ w + g k₀ v := by
    intro l hn hmem
    induction l with
    | nil => cases hmem
    | cons e l ih =>
        simp only [List.map_cons, List.nodup_cons] at hn
        rcases List.mem_cons.mp hmem with rfl | hmem
        · have hl : l.map (setItem hk v) = l := by
            refine (List.map_congr_left fun x hx => ?_).trans (List.map_id l)
            have hne : x.1 ≠ hk := fun heq => hn.1 (List.mem_map.mpr ⟨x, hx, heq⟩)
            simp only [setItem, hne, if_false, id_eq]
          simp only [List.map_cons, List.sum_cons, hl, setItem, if_true]
          abel
        · have hne : e.1 ≠ hk := fun heq => hn.1 (List.mem_map.mpr ⟨_, hmem, heq.symm⟩)
          simp only [List.map_cons, List.sum_cons, ih hn.2 hmem]
          simp only [setItem, hne, if_false]
          abel
  unfold insert
  simp only [hc, dite_true, sumEntries]
  exact hgen m.items m.nodup h

/-- A key's own value is all there is under that key. -/
theorem sum_under_key (f : V → M) (m : OMap K V) (hk : String) :
    (m.items.map fun e => if e.1 = hk then f e.2.2 else 0).sum = ((m.get hk).map f).getD 0 := by
  have hgen : ∀ l : List (String × K × V), (l.map (·.1)).Nodup →
      (l.map fun e => if e.1 = hk then f e.2.2 else 0).sum =
        (((l.find? (·.1 == hk)).map (·.2.2)).map f).getD 0 := by
    intro l hn
    induction l with
    | nil => simp
    | cons e l ih =>
        simp only [List.map_cons, List.nodup_cons] at hn
        by_cases he : e.1 = hk
        · have hrest : (l.map fun e => if e.1 = hk then f e.2.2 else 0).sum = 0 := by
            refine List.sum_eq_zero fun x hx => ?_
            obtain ⟨y, hy, rfl⟩ := List.mem_map.mp hx
            have hne : y.1 ≠ hk := fun heq => hn.1 (he ▸ heq ▸ List.mem_map_of_mem hy)
            exact if_neg hne
          simp [he, hrest]
        · simp [he, ih hn.2]
  exact hgen m.items m.nodup

end Sum

/-! ## Lists under a key -/

section Bucket

variable {α : Type}

/-- One more element in the list under a key. -/
def bucket (m : OMap K (List α)) (hk : String) (k : K) (x : α) : OMap K (List α) :=
  m.insert hk k ((m.get hk).getD [] ++ [x])

/-- A map of lists holds one element more, wherever it went. -/
theorem bucket_perm [DecidableEq α] (m : OMap K (List α)) (hk : String) (k : K) (x : α) :
    (m.bucket hk k x).values.flatten.Perm (m.values.flatten ++ [x]) := by
  have hcount : ∀ (m : OMap K (List α)) (y : α),
      (m.values.flatten.count y : ℤ) = m.sumBy fun l => (l.count y : ℤ) := by
    intro m y
    rw [List.count_flatten, sumBy, Nat.cast_list_sum, List.map_map]
    rfl
  rw [List.perm_iff_count]
  intro y
  have hsum : ((m.bucket hk k x).values.flatten.count y : ℤ) = (m.values.flatten ++ [x]).count y := by
    rw [hcount, bucket, sumBy_insert, List.count_append, List.count_append, Nat.cast_add,
      Nat.cast_add, hcount]
    cases m.get hk with
    | none => simp
    | some l =>
        simp only [Option.map_some, Option.getD_some]
        ring
  exact_mod_cast hsum

theorem forall_bucket {P : String → α → Prop} {m : OMap K (List α)} {hk : String} {k : K} {x : α}
    (h : ∀ e ∈ m.items, ∀ y ∈ e.2.2, P e.1 y) (hx : P hk x) :
    ∀ e ∈ (m.bucket hk k x).items, ∀ y ∈ e.2.2, P e.1 y := by
  intro e he y hy
  rcases mem_insert he with ⟨hkey, hlist⟩ | ⟨hold, -⟩
  · rw [hlist, List.mem_append, List.mem_singleton] at hy
    rw [hkey]
    rcases hy with hy | rfl
    · cases hget : m.get hk with
      | none =>
          rw [hget] at hy
          cases hy
      | some l =>
          rw [hget] at hy
          obtain ⟨k', hmem⟩ := mem_of_get hget
          exact h _ hmem y hy
    · exact hx
  · exact h e hold y hy

end Bucket

end OMap

end TradeEngine.Lib
