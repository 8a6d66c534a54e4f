import Mathlib.Tactic
import Mathlib.Data.List.Basic

/-!
# Fields of a text

Texts joined with a separator that the last field does not contain share that field when they are
equal; the decimal spelling of an integer is one-to-one and is made of digits.
-/

namespace TradeEngine.Lib

theorem toString_natCast_toList (n : Nat) : (toString (n : Int)).toList = Nat.toDigits 10 n := by
  simp only [toString, Int.repr, Nat.repr, String.toList_ofList]

/-- The decimal spelling of a natural number determines it. -/
theorem toDigits_injective : Function.Injective (Nat.toDigits 10) := fun a b h => by
  rw [← Nat.ofDigitChars_ten_toDigits (n := a), h, Nat.ofDigitChars_ten_toDigits]

theorem notMem_toDigits {c : Char} (hc : c.isDigit = false) (n : Nat) : c ∉ Nat.toDigits 10 n :=
  fun h => by
    have hd : c.isDigit = true := Nat.isDigit_of_mem_toDigits (by omega) (by omega) h
    rw [hc] at hd
    cases hd

/-- Lists joined by a separator that neither first part contains have equal parts. -/
theorem append_cons_inj {α : Type} [DecidableEq α] {a b x y : List α} {sep : α} (ha : sep ∉ a)
    (hb : sep ∉ b) (h : a ++ sep :: x = b ++ sep :: y) : a = b ∧ x = y := by
  have htake : ∀ {u v : List α}, sep ∉ u → (u ++ sep :: v).takeWhile (· != sep) = u := by
    intro u v hu
    have hall : ∀ c ∈ u, (c != sep) = true := fun c hc => by
      rw [bne_iff_ne]
      rintro rfl
      exact hu hc
    rw [List.takeWhile_append_of_pos hall]
    simp
  have hab := congrArg (List.takeWhile (· != sep)) h
  rw [htake ha, htake hb] at hab
  subst hab
  exact ⟨rfl, (List.cons.inj (List.append_cancel_left h)).2⟩

/-- A text behind its own length and a separator is read back from what follows. -/
theorem length_cons_inj {s t x y : String} {sep : Char} (hs : sep.isDigit = false)
    (h : Nat.toDigits 10 s.utf8ByteSize ++ sep :: (s ++ x).toList =
      Nat.toDigits 10 t.utf8ByteSize ++ sep :: (t ++ y).toList) : s = t ∧ x = y := by
  obtain ⟨hlen, hrest⟩ := append_cons_inj (notMem_toDigits hs _) (notMem_toDigits hs _) h
  have hsize := toDigits_injective hlen
  have happ := String.toList_injective hrest
  have hst : s = t := by
    have hbytes := congrArg String.toByteArray happ
    rw [String.toByteArray_append, String.toByteArray_append] at hbytes
    exact String.toByteArray_inj.mp (ByteArray.append_inj_left hbytes hsize)
  subst hst
  exact ⟨rfl, (String.append_right_inj _).mp happ⟩

/-- Two texts that end in a separator and a number end in the same number, after the same text. -/
theorem append_number_inj {a b : List Char} {sep : Char} {m n : Nat} (hs : sep.isDigit = false)
    (h : a ++ sep :: Nat.toDigits 10 m = b ++ sep :: Nat.toDigits 10 n) : a = b ∧ m = n := by
  have hr : (Nat.toDigits 10 m).reverse ++ sep :: a.reverse =
      (Nat.toDigits 10 n).reverse ++ sep :: b.reverse := by
    simpa using congrArg List.reverse h
  have hm : sep ∉ (Nat.toDigits 10 m).reverse := by
    rw [List.mem_reverse]; exact notMem_toDigits hs m
  have hn : sep ∉ (Nat.toDigits 10 n).reverse := by
    rw [List.mem_reverse]; exact notMem_toDigits hs n
  obtain ⟨hnum, hrest⟩ := append_cons_inj hm hn hr
  exact ⟨List.reverse_injective hrest, toDigits_injective (List.reverse_injective hnum)⟩

theorem number_of_append_eq {a b : List Char} {sep : Char} {m n : Nat} (hs : sep.isDigit = false)
    (h : a ++ sep :: Nat.toDigits 10 m = b ++ sep :: Nat.toDigits 10 n) : m = n :=
  (append_number_inj hs h).2

/-- The first field of a text whose further fields each start with the separator. -/
theorem takeWhile_field {α β : Type} [DecidableEq β] {f : α → List β} {sep : β} {a : List β} (ha : sep ∉ a) (l : List α) :
    (a ++ l.flatMap fun x => sep :: f x).takeWhile (· != sep) = a := by
  have hall : ∀ c ∈ a, (c != sep) = true := fun c hc => by
    rw [bne_iff_ne]
    rintro rfl
    exact ha hc
  rw [List.takeWhile_append_of_pos hall]
  cases l <;> simp

/-- Texts made of fields behind a separator that no field contains have the same fields. -/
theorem fields_inj {α β : Type} [DecidableEq β] {f : α → List β} {sep : β} {l m : List α} (hl : ∀ x ∈ l, sep ∉ f x)
    (hm : ∀ x ∈ m, sep ∉ f x) (h : (l.flatMap fun x => sep :: f x) = m.flatMap fun x => sep :: f x) : l.map f = m.map f := by
  induction l generalizing m with
  | nil =>
    cases m with
    | nil => rfl
    | cons y m => simp at h
  | cons x l ih =>
    cases m with
    | nil => simp at h
    | cons y m =>
      rw [List.flatMap_cons, List.flatMap_cons, List.cons_append, List.cons_append] at h
      have htail := (List.cons.inj h).2
      have hfirst : f x = f y := by
        have := congrArg (List.takeWhile (· != sep)) htail
        rwa [takeWhile_field (hl x List.mem_cons_self), takeWhile_field (hm y List.mem_cons_self)] at this
      rw [hfirst] at htail
      have hrest := ih (fun z hz => hl z (List.mem_cons_of_mem _ hz)) (fun z hz => hm z (List.mem_cons_of_mem _ hz))
        (List.append_cancel_left htail)
      rw [List.map_cons, List.map_cons, hfirst, hrest]

end TradeEngine.Lib
