import Mathlib.Tactic
import Mathlib.Data.List.TakeWhile

/-!
# Rust's `str`

What the standard library's methods make of a text, as a list of its characters.
-/

namespace TradeEngine.Lib

/-- Rust's `char::is_whitespace`. -/
def isWhitespace (c : Char) : Bool :=
  (9 ≤ c.toNat && c.toNat ≤ 13) || c.toNat == 32 || c.toNat == 0x85 || c.toNat == 0xa0 || c.toNat == 0x1680 ||
    (0x2000 ≤ c.toNat && c.toNat ≤ 0x200a) || c.toNat == 0x2028 || c.toNat == 0x2029 || c.toNat == 0x202f ||
    c.toNat == 0x205f || c.toNat == 0x3000

def trim (l : List Char) : List Char := ((l.dropWhile isWhitespace).reverse.dropWhile isWhitespace).reverse

/-- `str::split_once`: around the first occurrence. -/
def splitOnce (c : Char) : List Char → Option (List Char × List Char)
  | [] => none
  | x :: l => if x = c then some ([], l) else (splitOnce c l).map fun p => (x :: p.1, p.2)

/-- The line without the `\r` before its `\n`. -/
def stripCr (l : List Char) : List Char := if l.getLast? = some '\r' then l.dropLast else l

/-- `str::lines`; `line` is what is read of the current one. -/
def linesFrom (line : List Char) : List Char → List (List Char)
  | [] => if line.isEmpty then [] else [line]
  | '\n' :: l => stripCr line :: linesFrom [] l
  | c :: l => linesFrom (line ++ [c]) l

def lines (text : List Char) : List (List Char) := linesFrom [] text

/-- `str::split_whitespace`; `word` is what is read of the current one. -/
def wordsFrom (word : List Char) : List Char → List (List Char)
  | [] => if word.isEmpty then [] else [word]
  | c :: l =>
    if isWhitespace c then if word.isEmpty then wordsFrom [] l else word :: wordsFrom [] l
    else wordsFrom (word ++ [c]) l

def splitWhitespace (text : List Char) : List (List Char) := wordsFrom [] text

theorem splitOnce_eq_some {c : Char} {l a b : List Char} : splitOnce c l = some (a, b) ↔ l = a ++ c :: b ∧ c ∉ a := by
  induction l generalizing a with
  | nil => simp [splitOnce]
  | cons x l ih =>
    rw [splitOnce]
    split_ifs with hx
    · subst hx
      cases a with
      | nil => simp [eq_comm]
      | cons y a =>
        simp only [Option.some.injEq, Prod.mk.injEq, reduceCtorEq, false_and, List.cons_append, List.cons.injEq,
          List.mem_cons, not_or, false_iff, not_and]
        rintro ⟨rfl, -⟩ h
        exact absurd rfl h
    · cases a with
      | nil => simp [hx]
      | cons y a =>
        rw [Option.map_eq_some_iff]
        constructor
        · rintro ⟨⟨a', b'⟩, h, heq⟩
          obtain ⟨⟨rfl, rfl⟩, rfl⟩ : (x = y ∧ a' = a) ∧ b' = b := by simpa using heq
          obtain ⟨rfl, hmem⟩ := ih.1 h
          exact ⟨rfl, by simp [hmem, Ne.symm hx]⟩
        · rintro ⟨h, hmem⟩
          obtain ⟨rfl, hl⟩ := List.cons.inj h
          exact ⟨(a, b), ih.2 ⟨hl, fun h => hmem (by simp [h])⟩, rfl⟩

theorem splitOnce_eq_none {c : Char} {l : List Char} : splitOnce c l = none ↔ c ∉ l := by
  induction l with
  | nil => simp [splitOnce]
  | cons x l ih =>
    rw [splitOnce]
    split_ifs with hx
    · simp [hx]
    · simp [ih, Ne.symm hx]

theorem trim_eq {before b after : List Char} (hbefore : ∀ c ∈ before, isWhitespace c = true)
    (hafter : ∀ c ∈ after, isWhitespace c = true) (hb : ∀ c ∈ b, isWhitespace c = false) :
    trim (before ++ b ++ after) = b := by
  have hkeep : ∀ l : List Char, (∀ c ∈ l, isWhitespace c = false) → ∀ r, (∀ c ∈ r, isWhitespace c = true) →
      (r ++ l).dropWhile isWhitespace = l := by
    intro l hl r hr
    rw [List.dropWhile_append_of_pos hr]
    cases l with
    | nil => rfl
    | cons x l => exact List.dropWhile_cons_of_neg (by simp [hl x (by simp)])
  unfold trim
  cases b with
  | nil =>
    have hall : ∀ c ∈ before ++ [] ++ after, isWhitespace c = true := by
      intro c hc
      simp only [List.append_nil, List.mem_append] at hc
      exact hc.elim (hbefore c) (hafter c)
    rw [List.dropWhile_eq_nil_iff.2 hall]
    rfl
  | cons x b =>
    have hfirst : (before ++ (x :: b) ++ after).dropWhile isWhitespace = (x :: b) ++ after := by
      rw [List.append_assoc, List.dropWhile_append_of_pos hbefore]
      exact List.dropWhile_cons_of_neg (by simp [hb x (by simp)])
    rw [hfirst, List.reverse_append, hkeep _ (fun c hc => hb c (List.mem_reverse.1 hc)) _ fun c hc =>
      hafter c (List.mem_reverse.1 hc), List.reverse_reverse]

theorem trim_spec (l : List Char) : ∃ before after, l = before ++ trim l ++ after ∧
    (∀ c ∈ before, isWhitespace c = true) ∧ ∀ c ∈ after, isWhitespace c = true := by
  refine ⟨l.takeWhile isWhitespace, ((l.dropWhile isWhitespace).reverse.takeWhile isWhitespace).reverse, ?_, ?_, ?_⟩
  · unfold trim
    rw [List.append_assoc, ← List.reverse_append, List.takeWhile_append_dropWhile, List.reverse_reverse,
      List.takeWhile_append_dropWhile]
  · exact fun c hc => List.mem_takeWhile_imp hc
  · exact fun c hc => List.mem_takeWhile_imp (List.mem_reverse.1 hc)

end TradeEngine.Lib
