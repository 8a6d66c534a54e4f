import TradeEngine.Calendar.Lemmas.Globex

/-!
# The rows of a holiday table

What the loop over the lines collects, whatever the numbers of the lines, and what of it depends on their order.
-/

namespace TradeEngine.Calendar

open Lib

variable {C : Chrono}

/-! ## Lines -/

@[simp] theorem malformed_toOption {α : Type} (msg : String) : (malformed msg : Except Fault α).toOption = none := rfl

theorem parseStatus_line (n m : Nat) (text : List Char) : (parseStatus n text).toOption = (parseStatus m text).toOption := by
  unfold parseStatus
  split_ifs
  · rfl
  · rfl
  · simp only [malformed_toOption]

theorem parseHalt_line (n m : Nat) (status : HolidayStatus) (text : List Char) :
    (parseHalt C n status text).toOption = (parseHalt C m status text).toOption := by
  unfold parseHalt
  cases status with
  | closed =>
    split_ifs
    · rfl
    · simp only [malformed_toOption]
  | earlyHalt =>
    split_ifs
    · simp only [malformed_toOption]
    · cases C.parseTime text with
      | error e => simp only [malformed_toOption]
      | ok t => rfl

theorem parseReopenTime_line (n m : Nat) (text : List Char) :
    (parseReopenTime C n text).toOption = (parseReopenTime C m text).toOption := by
  unfold parseReopenTime
  cases C.parseTime text with
  | error e => simp only [malformed_toOption]
  | ok t => rfl

theorem parseReopen_line (n m : Nat) (date : NaiveDate) (text : List Char) :
    (parseReopen C n date text).toOption = (parseReopen C m date text).toOption := by
  unfold parseReopen
  split_ifs
  · rfl
  · split
    · rfl
    · simp only [malformed_toOption]
    · rename_i d t _
      cases C.parseDate d with
      | error e => simp only [malformed_toOption]
      | ok rd => simp only [toOption_bind, parseReopenTime_line n m]
    · simp only [malformed_toOption]
  · simp only [toOption_bind, parseReopenTime_line n m]

theorem checkReopen_line (n m : Nat) (row : HolidayRow) :
    (checkReopen C n row).toOption = (checkReopen C m row).toOption := by
  unfold checkReopen
  split
  · split_ifs
    · simp only [malformed_toOption]
    · rfl
  · rfl

/-- A line's number stands in its refusals only. -/
theorem parseFields_line (n m : Nat) (fields : List (List Char)) :
    (parseFields C n fields).toOption = (parseFields C m fields).toOption := by
  unfold parseFields
  split
  · split
    · simp only [toOption_bind, parseStatus_line n m, parseHalt_line n m, parseReopen_line n m, checkReopen_line n m]
    · simp only [toOption_bind, malformed_toOption, Option.bind_none]
  · simp only [malformed_toOption]

/-- The row a line holds. -/
def rowOf (C : Chrono) (line : List Char) : Option HolidayRow :=
  (splitCsvLine (trim line)).toOption.bind fun fields => (parseFields C 0 fields).toOption

def isBlank (line : List Char) : Bool := (trim line).isEmpty

theorem readLine_ok {r r' : Reading} {line : List Char} {k : Nat} : readLine C r (line, k) = .ok r' ↔
    (isBlank line = true ∧ r' = r) ∨ (isBlank line = false ∧ ∃ row, rowOf C line = some row ∧ r' = r.add row) := by
  unfold readLine isBlank rowOf
  dsimp only
  by_cases hblank : (trim line).isEmpty = true
  · rw [if_pos hblank]
    simp [hblank, eq_comm]
  · rw [if_neg hblank]
    cases hsplit : splitCsvLine (trim line) with
    | error e => simp [malformed, hblank, Except.toOption]
    | ok fields =>
      have hrow : ∀ row, (parseFields C 0 fields).toOption = some row ↔ parseFields C (k + 2) fields = .ok row := by
        intro row
        rw [← toOption_eq_some, parseFields_line (k + 2) 0]
      have hfields : ((Except.ok fields : Except String _).toOption.bind fun f => (parseFields C 0 f).toOption) =
          (parseFields C 0 fields).toOption := rfl
      simp only [map_eq_ok, hblank, hfields, hrow, Bool.false_eq_true, false_and, false_or, true_and]
      simp only [eq_comm]

/-- The loop adds the rows of the lines that are not blank. -/
theorem foldlM_readLine {body : List (List Char)} {k : Nat} {r r' : Reading} :
    (body.zipIdx k).foldlM (readLine C) r = .ok r' ↔ ∃ rows,
      List.Forall₂ (fun line row => rowOf C line = some row) (body.filter (isBlank · = false)) rows ∧
        r' = rows.foldl Reading.add r := by
  induction body generalizing k r with
  | nil =>
    simp only [List.zipIdx_nil, List.foldlM_nil, pure_eq_ok, List.filter_nil]
    constructor
    · rintro rfl
      exact ⟨[], .nil, rfl⟩
    · rintro ⟨rows, hrows, rfl⟩
      cases hrows
      rfl
  | cons line body ih =>
    rw [List.zipIdx_cons, List.foldlM_cons, bind_eq_ok]
    constructor
    · rintro ⟨r1, h1, hrest⟩
      obtain ⟨rows, hrows, rfl⟩ := ih.1 hrest
      obtain ⟨hblank, rfl⟩ | ⟨hblank, row, hrow, rfl⟩ := readLine_ok.1 h1
      · exact ⟨rows, by simpa [List.filter_cons, hblank] using hrows, rfl⟩
      · refine ⟨row :: rows, ?_, rfl⟩
        rw [List.filter_cons_of_pos (by simpa using hblank)]
        exact .cons hrow hrows
    · rintro ⟨rows, hrows, rfl⟩
      cases hblank : isBlank line with
      | true =>
        rw [List.filter_cons_of_neg (by simp [hblank])] at hrows
        exact ⟨r, readLine_ok.2 (.inl ⟨hblank, rfl⟩), ih.2 ⟨rows, hrows, rfl⟩⟩
      | false =>
        rw [List.filter_cons_of_pos (by simp [hblank])] at hrows
        cases hrows with
        | cons hrow hrows =>
          rename_i row rows
          exact ⟨r.add row, readLine_ok.2 (.inr ⟨hblank, row, hrow, rfl⟩), ih.2 ⟨rows, hrows, rfl⟩⟩

theorem foldl_add_rows (rows : List HolidayRow) (r : Reading) : (rows.foldl Reading.add r).rows = r.rows ++ rows := by
  induction rows generalizing r with
  | nil => simp
  | cons row rows ih => rw [List.foldl_cons, ih, Reading.add, List.append_assoc, List.singleton_append]

theorem foldl_add_minYear (rows : List HolidayRow) (r : Reading) :
    (rows.foldl Reading.add r).minYear = rows.foldl (fun y row => min y row.date.year) r.minYear := by
  induction rows generalizing r with
  | nil => rfl
  | cons row rows ih => exact ih (r.add row)

theorem foldl_add_maxYear (rows : List HolidayRow) (r : Reading) :
    (rows.foldl Reading.add r).maxYear = rows.foldl (fun y row => max y row.date.year) r.maxYear := by
  induction rows generalizing r with
  | nil => rfl
  | cons row rows ih => exact ih (r.add row)

/-- Rows of distinct dates are found under them. -/
theorem foldl_add_holidays {rows : List HolidayRow} (hdates : (rows.map (·.date)).Nodup) {r : Reading} {d : NaiveDate}
    {row : HolidayRow} : (rows.foldl Reading.add r).holidays d = some row ↔
      (row ∈ rows ∧ row.date = d) ∨ ((∀ x ∈ rows, x.date ≠ d) ∧ r.holidays d = some row) := by
  induction rows generalizing r with
  | nil => simp
  | cons x rows ih =>
    rw [List.map_cons, List.nodup_cons] at hdates
    have hfirst : ∀ y ∈ rows, y.date ≠ x.date := fun y hy heq => hdates.1 (heq ▸ List.mem_map_of_mem hy)
    rw [List.foldl_cons, ih hdates.2, List.mem_cons, List.forall_mem_cons]
    by_cases hd : x.date = d
    · subst hd
      have hself : (r.add x).holidays x.date = some x := Function.update_self ..
      rw [hself]
      constructor
      · rintro (h | ⟨-, h⟩)
        · exact .inl ⟨.inr h.1, h.2⟩
        · cases h
          exact .inl ⟨.inl rfl, rfl⟩
      · rintro (⟨rfl | h, hdate⟩ | ⟨⟨h, -⟩, -⟩)
        · exact .inr ⟨hfirst, rfl⟩
        · exact .inl ⟨h, hdate⟩
        · exact absurd rfl h
    · have hother : (r.add x).holidays d = r.holidays d := Function.update_of_ne (Ne.symm hd) _ _
      rw [hother]
      constructor
      · rintro (h | h)
        · exact .inl ⟨.inr h.1, h.2⟩
        · exact .inr ⟨⟨hd, h.1⟩, h.2⟩
      · rintro (⟨rfl | h, hdate⟩ | h)
        · exact absurd hdate hd
        · exact .inl ⟨h, hdate⟩
        · exact .inr ⟨h.1.2, h.2⟩

/-! ## Reordered rows -/

/-- The same header over the same lines in another order. -/
def Reordered (text text' : List Char) : Prop :=
  ∃ header body body', lines text = header :: body ∧ lines text' = header :: body' ∧ body'.Perm body

/-- What reading gives for the lines of a text. -/
def Reads (C : Chrono) (text : List Char) (rows : List HolidayRow) : Prop :=
  ∃ header body, lines text = header :: body ∧ checkHeader (trim header) = .ok () ∧ rows ≠ [] ∧
    List.Forall₂ (fun line row => rowOf C line = some row) (body.filter (isBlank · = false)) rows

theorem readTable_ok {text : List Char} {r : Reading} :
    readTable C text = .ok r ↔ ∃ rows, Reads C text rows ∧ r = rows.foldl Reading.add Reading.start := by
  unfold readTable Reads
  cases lines text with
  | nil =>
    simp only [malformed]
    constructor
    · intro h
      cases h
    · rintro ⟨rows, ⟨header, body, h, -⟩, -⟩
      cases h
  | cons header body =>
    have hrows : ∀ rows : List HolidayRow, (rows.foldl Reading.add Reading.start).rows = rows := by
      intro rows
      rw [foldl_add_rows]
      rfl
    simp only [bind_eq_ok]
    constructor
    · rintro ⟨_, hheader, r', hr', h⟩
      obtain ⟨rows, hrows', rfl⟩ := foldlM_readLine.1 hr'
      rw [hrows] at h
      split_ifs at h with hempty
      · cases h
      exact ⟨rows, ⟨header, body, rfl, hheader, by simpa using hempty, hrows'⟩, (pure_eq_ok.1 h).symm⟩
    · rintro ⟨rows, ⟨header', body', heq, hheader, hne, hrows'⟩, rfl⟩
      obtain ⟨rfl, rfl⟩ := List.cons.inj heq
      refine ⟨(), hheader, _, foldlM_readLine.2 ⟨rows, hrows', rfl⟩, ?_⟩
      rw [hrows, if_neg (by simpa using hne)]
      rfl

theorem Reads.unique {text : List Char} {rows rows' : List HolidayRow} (h : Reads C text rows) (h' : Reads C text rows') :
    rows = rows' := by
  obtain ⟨header, body, hlines, -, -, hrows⟩ := h
  obtain ⟨header', body', hlines', -, -, hrows'⟩ := h'
  obtain ⟨rfl, rfl⟩ := List.cons.inj (hlines.symm.trans hlines')
  generalize body.filter (isBlank · = false) = kept at hrows hrows'
  clear hlines hlines'
  induction hrows generalizing rows' with
  | nil =>
    cases hrows'
    rfl
  | cons hrow _ ih =>
    cases hrows' with
    | cons hrow' hrest =>
      rw [Option.some.inj (hrow.symm.trans hrow'), ih hrest]

/-- A reordered text holds the rows in another order. -/
theorem Reads.perm {text text' : List Char} {rows : List HolidayRow} (h : Reads C text rows) (hperm : Reordered text text') :
    ∃ rows', Reads C text' rows' ∧ rows'.Perm rows := by
  obtain ⟨header, body, hlines, hheader, hne, hrows⟩ := h
  obtain ⟨header', body', body'', hlines', hlines'', hp⟩ := hperm
  obtain ⟨rfl, rfl⟩ := List.cons.inj (hlines.symm.trans hlines')
  have hfilter := hp.filter (isBlank · = false)
  obtain ⟨rows', hforall, hp'⟩ := List.perm_comp_forall₂ hfilter hrows
  refine ⟨rows', ⟨header, body'', hlines'', hheader, ?_, hforall⟩, hp'⟩
  rintro rfl
  exact hne (List.nil_perm.1 hp')

/-- Every line of a text behind it with `\r\n`. -/
def unlines (ls : List (List Char)) : List Char := ls.flatMap (· ++ ['\r', '\n'])

theorem linesFrom_append {line : List Char} (h : '\n' ∉ line) (before rest : List Char) :
    linesFrom before (line ++ rest) = linesFrom (before ++ line) rest := by
  induction line generalizing before with
  | nil => simp
  | cons c line ih =>
    rw [List.mem_cons, not_or] at h
    have hstep : linesFrom before (c :: (line ++ rest)) = linesFrom (before ++ [c]) (line ++ rest) := by
      rw [linesFrom]
      exact fun hc => h.1 hc.symm
    rw [List.cons_append, hstep, ih h.2, List.append_assoc, List.singleton_append]

theorem lines_unlines {ls : List (List Char)} (h : ∀ l ∈ ls, '\n' ∉ l) : lines (unlines ls) = ls := by
  induction ls with
  | nil => rfl
  | cons l ls ih =>
    have hl := h l (by simp)
    have hcr : linesFrom l (['\r', '\n'] ++ unlines ls) = l :: lines (unlines ls) := by
      change stripCr (l ++ ['\r']) :: linesFrom [] (unlines ls) = _
      have hstrip : stripCr (l ++ ['\r']) = l := by
        rw [stripCr, if_pos (by simp), List.dropLast_concat]
      rw [hstrip]
      rfl
    have hcons : unlines (l :: ls) = l ++ (['\r', '\n'] ++ unlines ls) := by
      simp [unlines]
    rw [hcons, lines, linesFrom_append hl, List.nil_append, hcr, ih fun x hx => h x (List.mem_cons_of_mem l hx)]

theorem newline_notMem_linesFrom {line : List Char} (hline : '\n' ∉ line) (text : List Char) :
    ∀ l ∈ linesFrom line text, '\n' ∉ l := by
  fun_induction linesFrom line text with
  | case1 line hempty => simp
  | case2 line hempty =>
    intro l hl
    obtain rfl := List.mem_singleton.1 hl
    exact hline
  | case3 line rest ih =>
    intro l hl
    rcases List.mem_cons.1 hl with rfl | hl
    · intro hmem
      unfold stripCr at hmem
      split_ifs at hmem
      · exact hline (List.mem_of_mem_dropLast hmem)
      · exact hline hmem
    · exact ih (by simp) l hl
  | case4 line c rest hc ih =>
    apply ih
    rw [List.mem_append, not_or, List.mem_singleton]
    exact ⟨hline, fun h => hc h.symm⟩

/-- Some reordered text has the row at its end. -/
theorem exists_last {text : List Char} {rows : List HolidayRow} (h : Reads C text rows) {row : HolidayRow} (hrow : row ∈ rows) :
    ∃ text' init, Reordered text text' ∧ Reads C text' (init ++ [row]) := by
  obtain ⟨header, body, hlines, hheader, hne, hrows⟩ := h
  obtain ⟨line, hline, hparse⟩ := forall₂_right hrows row hrow
  obtain ⟨hbody, hblank⟩ := List.mem_filter.1 hline
  obtain ⟨before, after, rfl⟩ := List.append_of_mem hbody
  have hnewline : ∀ l ∈ header :: (before ++ after ++ [line]), '\n' ∉ l := by
    intro l hl
    apply newline_notMem_linesFrom (List.not_mem_nil : '\n' ∉ []) text
    change l ∈ lines text
    rw [hlines]
    simp only [List.mem_cons, List.mem_append, List.not_mem_nil, or_false] at hl ⊢
    tauto
  have hperm : (before ++ after ++ [line]).Perm (before ++ line :: after) := by
    rw [List.append_assoc]
    exact (List.perm_append_singleton line after).append_left before
  have hreorder : Reordered text (unlines (header :: (before ++ after ++ [line]))) :=
    ⟨header, _, _, hlines, lines_unlines hnewline, hperm⟩
  obtain ⟨rows', ⟨header', body', hlines', hheader', hne', hrows'⟩, -⟩ :=
    Reads.perm ⟨header, _, hlines, hheader, hne, hrows⟩ hreorder
  obtain ⟨rfl, rfl⟩ := List.cons.inj ((lines_unlines hnewline).symm.trans hlines')
  have hkept : (before ++ after ++ [line]).filter (isBlank · = false) = (before ++ after).filter (isBlank · = false) ++ [line] := by
    rw [List.filter_append]
    simp_all
  have hreverse := List.forall₂_reverse_iff.2 hrows'
  rw [hkept, List.reverse_append, List.reverse_singleton, List.singleton_append] at hreverse
  cases hrev : rows'.reverse with
  | nil =>
    rw [hrev] at hreverse
    cases hreverse
  | cons row' init =>
    rw [hrev] at hreverse
    cases hreverse with
    | cons hlast _ =>
      obtain rfl : row = row' := Option.some.inj (hparse.symm.trans hlast)
      have hrows'' : rows' = init.reverse ++ [row] := by
        rw [← List.reverse_reverse rows', hrev, List.reverse_cons]
      exact ⟨_, init.reverse, hreorder, hrows'' ▸ ⟨header, _, hlines', hheader', hne', hrows'⟩⟩

end TradeEngine.Calendar
