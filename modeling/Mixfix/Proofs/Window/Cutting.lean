import Mixfix.Proofs.Terminal.Totality

/-!
# Cutting windows

A row shows the text between two places of a source line.  Moving its start forward, or its end
back, by a stretch of that text gives a row that shows the rest; so the cuts of a window keep its
rows readable as long as they fall between characters.  A block moves its rows by the smallest
indentation of the rows that are not blank.  That falls between characters in these, since spaces
and tabs have one byte each, but may fall inside a character of a blank row.

* `Window.rowText_eq_ok`: what a row shows.
* `Window.continuation_spec`: which rows a block takes.
* `Window.cutBlock_spec`: what a block shows.
* `Window.Reached.readable`: cutting keeps windows readable, if blank lines are ASCII and places fit
  in a machine word.
* `Window.block_unreadable`: not so with a wide blank character.
-/

namespace Mixfix

/-! ### Lines in bytes -/

theorem takeBytes_eq_some {n : Nat} {s t : Line} (h : takeBytes n s = some t) :
    ∃ u, s = t ++ u ∧ byteSize t = n := by
  induction s generalizing n t with
  | nil =>
    cases n with
    | zero =>
      cases h
      exact ⟨[], rfl, rfl⟩
    | succ n => cases h
  | cons c s ih =>
    cases n with
    | zero =>
      cases h
      exact ⟨c :: s, rfl, rfl⟩
    | succ n =>
      rw [takeBytes] at h
      split at h
      · next hc =>
        obtain ⟨t', ht, rfl⟩ := Option.map_eq_some_iff.1 h
        obtain ⟨u, rfl, hu⟩ := ih ht
        exact ⟨u, rfl, by rw [byteSize_cons, hu]; omega⟩
      · cases h

/-- A byte range of a line is the text between what is before it and what is after it. -/
theorem sliceBytes_eq_some {start stop : Nat} {s text : Line} :
    sliceBytes start stop s = some text ↔ ∃ before after, s = before ++ (text ++ after) ∧
      byteSize before = start ∧ stop = start + byteSize text := by
  rw [sliceBytes]
  constructor
  · intro h
    split at h
    · next hle =>
      obtain ⟨rest, hrest, htext⟩ := Option.bind_eq_some_iff.1 h
      obtain ⟨before, rfl, hstart⟩ := dropBytes_eq_some hrest
      obtain ⟨after, rfl, hstop⟩ := takeBytes_eq_some htext
      exact ⟨before, after, rfl, hstart, by omega⟩
    · cases h
  · rintro ⟨before, after, rfl, rfl, rfl⟩
    rw [if_pos (Nat.le_add_right _ _), dropBytes_size_append, Nat.add_sub_cancel_left]
    exact takeBytes_size_append text after

/-- A cut between characters, or past the end. -/
def Line.Cuts (text : Line) (n : Nat) : Prop := (dropBytes n text).isSome ∨ byteSize text ≤ n

/-- A cut leaves a part before it and a part after it. -/
theorem Line.Cuts.split {text : Line} {n : Nat} (h : Line.Cuts text n) :
    ∃ u v, text = u ++ v ∧ byteSize u = min n (byteSize text) := by
  rcases h with h | h
  · obtain ⟨v, hv⟩ := Option.isSome_iff_exists.1 h
    obtain ⟨u, rfl, rfl⟩ := dropBytes_eq_some hv
    exact ⟨u, v, rfl, by rw [byteSize_append]; omega⟩
  · exact ⟨text, [], (List.append_nil text).symm, (Nat.min_eq_right h).symm⟩

/-- Characters of one byte each. -/
def Ascii (text : Line) : Prop := ∀ c ∈ text, c.toNat < 128

theorem Ascii.byteSize_eq {text : Line} (h : Ascii text) : byteSize text = text.length := by
  induction text with
  | nil => rfl
  | cons c text ih =>
    have hc : c.utf8Size = 1 := by
      have hlt := h c List.mem_cons_self
      exact Char.utf8Size_eq_one_iff.2 (UInt32.le_iff_toNat_le.2 (Nat.le_of_lt_succ hlt))
    rw [byteSize_cons, ih fun c' hc' => h c' (List.mem_cons_of_mem c hc'), hc, List.length_cons,
      Nat.add_comm]

/-- ASCII text in front of a line may be cut anywhere. -/
theorem Ascii.cuts {u : Line} (h : Ascii u) (v : Line) {n : Nat} (hn : n ≤ u.length) :
    Line.Cuts (u ++ v) n := by
  have hsize : byteSize (u.take n) = n := by
    rw [byteSize_eq fun c hc => h c (List.mem_of_mem_take hc), List.length_take, Nat.min_eq_left hn]
  have hcut := dropBytes_size_append (u.take n) (u.drop n ++ v)
  rw [hsize, ← List.append_assoc, List.take_append_drop] at hcut
  exact .inl (Option.isSome_iff_exists.2 ⟨_, hcut⟩)

theorem Ascii.cuts_self {text : Line} (h : Ascii text) (n : Nat) : Line.Cuts text n := by
  by_cases hn : n ≤ text.length
  · have hcut := h.cuts [] hn
    rwa [List.append_nil] at hcut
  · exact .inr (h.byteSize_eq ▸ Nat.le_of_not_le hn)

theorem ascii_takeWhile_isIndent (text : Line) : Ascii (text.takeWhile Window.isIndent) := by
  intro c hc
  have hindent := List.all_eq_true.1 List.all_takeWhile c hc
  rw [Window.isIndent, Bool.or_eq_true, beq_iff_eq, beq_iff_eq] at hindent
  rcases hindent with rfl | rfl <;> decide

/-! ### Rows -/

/-- A byte range of a line of the source, both ends between characters. -/
def Row.Readable (source : Source) (row : Row) : Prop :=
  ∃ line, source.lines[row.line]? = some line ∧ row.start ≤ row.stop ∧ row.stop ≤ byteSize line ∧
    (dropBytes row.start line).isSome ∧ (dropBytes row.stop line).isSome

namespace Window

variable {w : Window} {row : Row} {text : Line} {p : Position}

/-- A row shows a text if its source line has the text where the row says. -/
theorem rowText_eq_ok : w.rowText row = .ok text ↔
    ∃ before after, w.source.lines[row.line]? = some (before ++ (text ++ after)) ∧
      byteSize before = row.start ∧ row.stop = row.start + byteSize text := by
  rw [rowText]
  constructor
  · intro h
    split at h
    · cases h
    · next line hline =>
      split at h
      · cases h
      · next hslice =>
        cases h
        obtain ⟨before, after, rfl, hstart, hstop⟩ := sliceBytes_eq_some.1 hslice
        exact ⟨before, after, hline, hstart, hstop⟩
  · rintro ⟨before, after, hline, hstart, hstop⟩
    rw [hline]
    dsimp only
    rw [sliceBytes_eq_some.2 ⟨before, after, rfl, hstart, hstop⟩]

/-- The rows that show something are the readable ones. -/
theorem readable_iff : row.Readable w.source ↔ ∃ text, w.rowText row = .ok text := by
  constructor
  · rintro ⟨line, hline, hle, -, hstart, hstop⟩
    obtain ⟨rest, hrest⟩ := Option.isSome_iff_exists.1 hstart
    obtain ⟨before, rfl, hbefore⟩ := dropBytes_eq_some hrest
    have hstop' : (dropBytes (row.stop - row.start) rest).isSome := by
      rwa [← dropBytes_add hrest, Nat.add_sub_cancel' hle]
    obtain ⟨after, hafter⟩ := Option.isSome_iff_exists.1 hstop'
    obtain ⟨text, rfl, htext⟩ := dropBytes_eq_some hafter
    exact ⟨text, rowText_eq_ok.2 ⟨before, after, hline, hbefore, by omega⟩⟩
  · rintro ⟨text, h⟩
    obtain ⟨before, after, hline, hstart, hstop⟩ := rowText_eq_ok.1 h
    refine ⟨_, hline, by omega, ?_, ?_, ?_⟩
    · rw [byteSize_append, byteSize_append]
      omega
    · rw [← hstart, dropBytes_size_append]
      rfl
    · rw [hstop, ← hstart, ← byteSize_append, ← List.append_assoc, dropBytes_size_append]
      rfl

/-- Moving the start of a row over the front of its text leaves the back. -/
theorem rowText_start {u v : Line} (h : w.rowText row = .ok (u ++ v)) {n : Nat}
    (hn : byteSize u = min n (byteSize (u ++ v))) :
    w.rowText { row with start := min (row.start + n) row.stop } = .ok v := by
  obtain ⟨before, after, hline, hstart, hstop⟩ := rowText_eq_ok.1 h
  refine rowText_eq_ok.2 ⟨before ++ u, after, by simpa using hline, ?_, ?_⟩
  · simp only [byteSize_append] at *
    omega
  · simp only [byteSize_append] at *
    omega

/-- Moving the end of a row back to the front of its text leaves the front. -/
theorem rowText_stop {u v : Line} (h : w.rowText row = .ok (u ++ v)) {n : Nat}
    (hn : byteSize u = min n (byteSize (u ++ v))) :
    w.rowText { row with stop := min (row.start + n) row.stop } = .ok u := by
  obtain ⟨before, after, hline, hstart, hstop⟩ := rowText_eq_ok.1 h
  refine rowText_eq_ok.2 ⟨before, v ++ after, by simpa using hline, hstart, ?_⟩
  simp only [byteSize_append] at *
  omega

theorem line_eq_ok {i : Nat} :
    w.line i = .ok text ↔ ∃ row, w.rows[i]? = some row ∧ w.rowText row = .ok text := by
  rw [line]
  cases w.rows[i]? with
  | none => simp
  | some row => simp

/-- Every row is readable exactly if every line can be read. -/
theorem legible_iff : w.Legible ↔ ∀ row ∈ w.rows, row.Readable w.source := by
  constructor
  · intro h row hrow
    obtain ⟨i, hi, rfl⟩ := List.mem_iff_getElem.1 hrow
    obtain ⟨text, htext⟩ := h i hi
    obtain ⟨_, hget, htext⟩ := line_eq_ok.1 htext
    rw [List.getElem?_eq_getElem hi] at hget
    cases hget
    exact readable_iff.2 ⟨text, htext⟩
  · intro h i hi
    obtain ⟨text, htext⟩ := readable_iff.1 (h _ (List.getElem_mem hi))
    exact ⟨text, line_eq_ok.2 ⟨_, List.getElem?_eq_getElem hi, htext⟩⟩

/-! ### Blocks -/

theorem indentation_of_line {i : Nat} (h : w.line i = .ok text) :
    w.indentation i = .ok (text.takeWhile isIndent).length := by
  rw [indentation, h]
  rfl

/-- A line that a block takes: blank, or indented by no less than the smallest indentation. -/
def Inner (w : Window) (dedent : Option Nat) (i : Nat) : Prop :=
  w.Blank i ∨ ∃ least depth, dedent = some least ∧ w.indentation i = .ok depth ∧ 0 < depth ∧
    least ≤ depth

theorem Inner.mono {dedent dedent' : Option Nat} {i : Nat} (h : w.Inner dedent i)
    (hle : ∀ least ∈ dedent, ∃ least' ∈ dedent', least' ≤ least) : w.Inner dedent' i := by
  refine h.imp_right fun ⟨least, depth, hleast, hdepth, hpos, hdeep⟩ => ?_
  obtain ⟨least', hleast', hle'⟩ := hle least hleast
  exact ⟨least', depth, hleast', hdepth, hpos, Nat.le_trans hle' hdeep⟩

/-- The lines of a block after its head. Those up to the last one that is not blank are inner ones;
the others are blank; and the line after them, if it was looked at, is neither blank nor
indented. -/
structure Continuation (w : Window) (n i : Nat) (rows : List Row) (dedent : Option Nat)
    (filled : Nat) : Prop where
  rows_eq : rows = (w.rows.drop i).take rows.length
  length_le : rows.length ≤ n
  filled_le : filled ≤ rows.length
  inner : ∀ k < filled, w.Inner dedent (i + k)
  blank : ∀ k, filled ≤ k → k < rows.length → w.Blank (i + k)
  next : rows.length < n → w.Filled (i + rows.length) ∧ w.indentation (i + rows.length) = .ok 0

/-- One more line in front: a blank one before blank ones, or an inner one. -/
theorem Continuation.cons {n i : Nat} {rows : List Row} {dedent dedent' : Option Nat}
    {filled filled' : Nat} (h : w.Continuation n (i + 1) rows dedent filled)
    (hrow : w.rows[i]? = some row)
    (hle : ∀ least ∈ dedent, ∃ least' ∈ dedent', least' ≤ least) (hi : w.Inner dedent' i)
    (hfilled : filled' = filled + 1 ∨ filled' = 0 ∧ filled = 0 ∧ w.Blank i) :
    w.Continuation (n + 1) i (row :: rows) dedent' filled' where
  rows_eq := by
    obtain ⟨hlt, hget⟩ := List.getElem?_eq_some_iff.1 hrow
    rw [List.drop_eq_getElem_cons hlt, hget, List.length_cons, List.take_succ_cons, ← h.rows_eq]
  length_le := Nat.succ_le_succ h.length_le
  filled_le := by
    have := h.filled_le
    rw [List.length_cons]
    omega
  inner k hk := by
    cases k with
    | zero => exact hi
    | succ k =>
      rw [Nat.add_succ, ← Nat.succ_add]
      exact (h.inner k (by omega)).mono hle
  blank k hk hlt := by
    cases k with
    | zero =>
      rcases hfilled with rfl | ⟨-, -, hblank⟩
      · cases hk
      · exact hblank
    | succ k =>
      rw [Nat.add_succ, ← Nat.succ_add]
      exact h.blank k (by omega) (Nat.lt_of_succ_lt_succ hlt)
  next hlt := by
    rw [List.length_cons, Nat.add_succ, ← Nat.succ_add]
    exact h.next (Nat.lt_of_succ_lt_succ hlt)

/-- What is found from a line on: nothing, if the line is neither blank nor indented; else its row
in front of what is found from the next line on. -/
theorem continuation_succ_eq_ok {n i : Nat} {rows : List Row} {dedent : Option Nat} {filled : Nat}
    (h : w.continuation (n + 1) i = .ok (rows, dedent, filled)) :
    (w.Filled i ∧ rows = [] ∧ dedent = none ∧ filled = 0) ∨
      ∃ row rows' dedent' filled', w.rows[i]? = some row ∧ rows = row :: rows' ∧
        w.continuation n (i + 1) = .ok (rows', dedent', filled') ∧
        ((w.Blank i ∧ dedent = dedent' ∧ filled = if filled' = 0 then 0 else filled' + 1) ∨
          ∃ depth, w.Filled i ∧ w.indentation i = .ok depth ∧
            dedent = some (dedent'.elim depth (min depth)) ∧ filled = filled' + 1) := by
  rw [continuation] at h
  cases hrow : w.rows[i]? with
  | none =>
    rw [hrow] at h
    cases h
  | some row =>
    rw [hrow] at h
    obtain ⟨blank, hblank, h⟩ := except_bind_eq_ok.1 h
    cases blank with
    | true =>
      obtain ⟨⟨rows', dedent', filled'⟩, hrest, h⟩ := except_bind_eq_ok.1 h
      cases h
      exact .inr ⟨row, rows', dedent, filled', rfl, rfl, hrest, .inl ⟨hblank, rfl, rfl⟩⟩
    | false =>
      obtain ⟨depth, hdepth, h⟩ := except_bind_eq_ok.1 h
      split at h
      · cases h
        exact .inl ⟨hblank, rfl, rfl, rfl⟩
      · obtain ⟨⟨rows', dedent', filled'⟩, hrest, h⟩ := except_bind_eq_ok.1 h
        cases h
        exact .inr ⟨row, rows', dedent', filled', rfl, rfl, hrest,
          .inr ⟨depth, hblank, hdepth, rfl, rfl⟩⟩

theorem continuation_spec (hw : w.Legible) {n i : Nat} (hn : i + n ≤ w.count) :
    ∃ rows dedent filled, w.continuation n i = .ok (rows, dedent, filled) ∧
      w.Continuation n i rows dedent filled := by
  induction n generalizing i with
  | zero =>
    refine ⟨[], none, 0, rfl, ?_⟩
    constructor <;> simp
  | succ n ih =>
    obtain ⟨text, htext⟩ := hw i (by omega)
    obtain ⟨row, hrow, -⟩ := line_eq_ok.1 htext
    obtain ⟨rows, dedent, filled, hcont, hspec⟩ := ih (i := i + 1) (by omega)
    have hblank := isBlankLine_of_line htext
    have hdepth := indentation_of_line htext
    rw [continuation, hrow]
    dsimp only
    rw [hblank, hcont, hdepth]
    cases hb : allBlank text with
    | true =>
      refine ⟨row :: rows, dedent, if filled = 0 then 0 else filled + 1, rfl, ?_⟩
      have hi : w.Blank i := by rw [Blank, hblank, hb]
      refine hspec.cons hrow (fun least h => ⟨least, h, Nat.le_refl least⟩) (.inl hi) ?_
      split
      · next h0 => exact .inr ⟨rfl, h0, hi⟩
      · exact .inl rfl
    | false =>
      have hi : w.Filled i := by rw [Filled, hblank, hb]
      cases hd : (text.takeWhile isIndent).length with
      | zero =>
        refine ⟨[], none, 0, rfl, ?_⟩
        constructor <;> simp [hi, hdepth, hd]
      | succ depth =>
        refine ⟨row :: rows, some (dedent.elim (depth + 1) (min (depth + 1))), filled + 1, rfl, ?_⟩
        refine hspec.cons hrow ?_ (.inr ⟨_, depth + 1, rfl, hd ▸ hdepth, Nat.succ_pos depth, ?_⟩)
          (.inl rfl)
        · rintro least hleast
          cases hleast
          exact ⟨_, rfl, Nat.min_le_right _ _⟩
        · cases dedent with
          | none => exact Nat.le_refl _
          | some least => exact Nat.min_le_left _ _

/-- The lines of the block at a line: they are inner lines, after the first; and after them come
blank lines only, up to the end or to a line without indentation. -/
structure Spans (w : Window) (i n : Nat) (dedent : Option Nat) : Prop where
  pos : 0 < n
  le : i + n ≤ w.count
  inner : ∀ j, i < j → j < i + n → w.Inner dedent j
  after : ∀ j, i + n ≤ j → w.Filled j → (∀ k, i + n ≤ k → k < j → w.Blank k) →
    w.indentation j = .ok 0

theorem Continuation.spans {i : Nat} (hi : i < w.count) {rows : List Row} {dedent : Option Nat}
    {filled : Nat} (h : w.Continuation (w.count - (i + 1)) (i + 1) rows dedent filled) :
    w.Spans i (filled + 1) dedent where
  pos := Nat.succ_pos filled
  le := by
    have := h.length_le
    have := h.filled_le
    omega
  inner j hj hlt := by
    obtain ⟨k, rfl⟩ := Nat.exists_eq_add_of_lt hj
    rw [Nat.add_right_comm]
    exact h.inner k (by omega)
  after j hj hfilled hblank := by
    obtain ⟨k, rfl⟩ : ∃ k, j = i + 1 + k := Nat.exists_eq_add_of_le (by omega)
    have hlt := hfilled.lt_count
    rcases Nat.lt_trichotomy k rows.length with hk | rfl | hk
    · exact absurd (h.blank k (by omega) hk) hfilled.not_blank
    · exact (h.next (by omega)).2
    · -- The line where the block stopped is not blank, and comes before this one.
      have hstop := (h.next (by omega)).1
      have := h.filled_le
      exact absurd (hblank _ (by omega) (by omega)) hstop.not_blank

/-- The row of a block for a row of the window: moved by the offset at the head, and by the smallest
indentation after it. -/
def blockRow (offset : Nat) (dedent : Option Nat) (k : Nat) (row : Row) : Row :=
  { row with start := min (row.start + if k = 0 then offset else dedent.getD 0) row.stop }

/-- The rows of a block, from the lines found after its head. -/
theorem cutBlock_of_continuation {i : Nat} (hi : i < w.count) {rows : List Row}
    {dedent : Option Nat} {filled : Nat}
    (hcont : w.continuation (w.count - (i + 1)) (i + 1) = .ok (rows, dedent, filled))
    (hrows : rows = (w.rows.drop (i + 1)).take rows.length) (hle : filled ≤ rows.length)
    (offset : Nat) :
    ∃ block, w.cutBlock ⟨i, offset⟩ = .ok block ∧ block.source = w.source ∧
      block.count = filled + 1 ∧
      ∀ k < filled + 1, block.rows[k]? = (w.rows[i + k]?).map (blockRow offset dedent k) := by
  have hhead : w.rows[i]? = some w.rows[i] := List.getElem?_eq_getElem hi
  rw [cutBlock]
  dsimp only
  rw [hhead, hcont]
  refine ⟨_, rfl, rfl, by simp [count, hle], fun k hk => ?_⟩
  cases k with
  | zero => simp [blockRow, hhead]
  | succ k =>
    have hfilled : k < filled := Nat.lt_of_succ_lt_succ hk
    have hrow : rows[k]? = w.rows[i + 1 + k]? := by
      rw [hrows, List.getElem?_take_of_lt (Nat.lt_of_lt_of_le hfilled hle), List.getElem?_drop]
    rw [List.getElem?_cons_succ, List.getElem?_map, List.getElem?_take_of_lt hfilled, hrow,
      Nat.add_right_comm, Nat.add_assoc]
    rfl

/-- The block at a line spans the same lines wherever it begins in its first line. -/
theorem cutBlock_spec (hw : w.Legible) {i : Nat} (hi : i < w.count) :
    ∃ n dedent, w.Spans i n dedent ∧ ∀ offset, ∃ block, w.cutBlock ⟨i, offset⟩ = .ok block ∧
      block.source = w.source ∧ block.count = n ∧
      ∀ k < n, block.rows[k]? = (w.rows[i + k]?).map (blockRow offset dedent k) := by
  obtain ⟨rows, dedent, filled, hcont, hspec⟩ :=
    continuation_spec hw (n := w.count - (i + 1)) (i := i + 1) (by omega)
  exact ⟨filled + 1, dedent, hspec.spans hi,
    cutBlock_of_continuation hi hcont hspec.rows_eq hspec.filled_le⟩

/-- What a block shows of a line: the part after the cut. -/
theorem line_of_blockRow {block : Window} (hsource : block.source = w.source) {i k offset : Nat}
    {dedent : Option Nat}
    (hrow : block.rows[k]? = (w.rows[i + k]?).map (blockRow offset dedent k))
    (hline : w.line (i + k) = .ok text)
    (hcut : Line.Cuts text (if k = 0 then offset else dedent.getD 0)) :
    ∃ front back, text = front ++ back ∧
      byteSize front = min (if k = 0 then offset else dedent.getD 0) (byteSize text) ∧
      block.line k = .ok back := by
  obtain ⟨row, hget, htext⟩ := line_eq_ok.1 hline
  obtain ⟨u, v, rfl, hsize⟩ := hcut.split
  rw [hget] at hrow
  refine ⟨u, v, rfl, hsize, line_eq_ok.2 ⟨_, hrow, ?_⟩⟩
  have hcut := rowText_start htext hsize
  rw [rowText] at hcut ⊢
  rwa [hsource]

/-- The blank lines have ASCII characters only. -/
def PlainBlanks (w : Window) : Prop :=
  ∀ ⦃i : Nat⦄ ⦃text : Line⦄, w.line i = .ok text → allBlank text → Ascii text

/-- Where blank lines are ASCII, the inner lines of a block may be cut by its indentation. -/
theorem Inner.cuts (hblanks : w.PlainBlanks) {dedent : Option Nat} {i : Nat}
    (h : w.Inner dedent i) (hline : w.line i = .ok text) : Line.Cuts text (dedent.getD 0) := by
  rcases h with hblank | ⟨least, depth, rfl, hdepth, -, hle⟩
  · rw [Blank, isBlankLine_of_line hline, Except.ok.injEq] at hblank
    exact (hblanks hline hblank).cuts_self _
  · rw [indentation_of_line hline, Except.ok.injEq] at hdepth
    have hcut := (ascii_takeWhile_isIndent text).cuts (text.dropWhile isIndent) (hdepth ▸ hle)
    rwa [List.takeWhile_append_dropWhile] at hcut

/-- A place where its line may be cut: between characters, or past the end. -/
def Between (w : Window) (p : Position) : Prop :=
  ∀ ⦃text : Line⦄, w.line p.line = .ok text → Line.Cuts text p.offset

/-- A place that fits in a machine word when it is counted from the start of its source line. -/
def Addressable (w : Window) (p : Position) : Prop :=
  ∀ row ∈ w.rows[p.line]?, row.start + p.offset < UInt64.size

/-- Another window on the same source, whose lines are parts of lines from `first` on. -/
structure PartOf (v w : Window) (first : Nat) : Prop where
  source : v.source = w.source
  parts : ∀ {k : Nat} {text : Line}, v.line k = .ok text →
    ∃ line, w.line (first + k) = .ok line ∧ text <:+: line

/-- A block is readable, and shows parts of the lines that it was cut from. -/
theorem cutBlock_readable (hw : w.Legible) (hblanks : w.PlainBlanks) (hp : w.Between p) :
    ∃ block, w.cutBlock p = .ok block ∧ block.Legible ∧ block.PartOf w p.line := by
  obtain ⟨i, offset⟩ := p
  by_cases hi : i < w.count
  · obtain ⟨n, dedent, hspans, hblock⟩ := cutBlock_spec hw hi
    obtain ⟨block, hcut, hsource, hcount, hrows⟩ := hblock offset
    have hshow : ∀ k < n, ∃ line text, w.line (i + k) = .ok line ∧ block.line k = .ok text ∧
        text <:+: line := by
      intro k hk
      obtain ⟨line, hline⟩ := hw (i + k) (by have := hspans.le; omega)
      have hcuts : Line.Cuts line (if k = 0 then offset else dedent.getD 0) := by
        split
        · next h0 =>
          subst h0
          exact hp hline
        · exact (hspans.inner (i + k) (by omega) (by omega)).cuts hblanks hline
      obtain ⟨front, back, rfl, -, hback⟩ := line_of_blockRow hsource (hrows k hk) hline hcuts
      exact ⟨_, back, hline, hback, (List.suffix_append front back).isInfix⟩
    refine ⟨block, hcut, fun k hk => ?_, hsource, fun {k text} htext => ?_⟩
    · obtain ⟨-, text, -, htext, -⟩ := hshow k (hcount ▸ hk)
      exact ⟨text, htext⟩
    · obtain ⟨row, hrow, -⟩ := line_eq_ok.1 htext
      obtain ⟨hk, -⟩ := List.getElem?_eq_some_iff.1 hrow
      obtain ⟨line, text', hline, htext', hpart⟩ := hshow k (hcount ▸ hk)
      rw [htext] at htext'
      cases htext'
      exact ⟨line, hline, hpart⟩
  · -- Past the last line the block is empty.
    refine ⟨⟨w.source, []⟩, ?_, fun k hk => absurd hk (Nat.not_lt_zero k), rfl, fun htext => ?_⟩
    · rw [cutBlock]
      dsimp only
      rw [List.getElem?_eq_none (Nat.le_of_not_lt hi)]
    · obtain ⟨row, hrow, -⟩ := line_eq_ok.1 htext
      cases hrow

/-! ### Lines and ends -/

theorem legible_cutLines (hw : w.Legible) (start stop : Nat) : (w.cutLines start stop).Legible :=
  legible_iff.2 fun row hrow =>
    legible_iff.1 hw row (List.mem_of_mem_take (List.mem_of_mem_drop hrow))

theorem cutLines_partOf (w : Window) (start stop : Nat) :
    (w.cutLines start stop).PartOf w start where
  source := rfl
  parts {k text} htext := by
    obtain ⟨row, hrow, htext⟩ := line_eq_ok.1 htext
    rw [cutLines, List.getElem?_drop, List.getElem?_take] at hrow
    split at hrow
    · exact ⟨text, line_eq_ok.2 ⟨row, hrow, htext⟩, List.infix_rfl⟩
    · cases hrow

theorem truncate_readable (hw : w.Legible) (hp : w.Between p) :
    (w.truncate p).Legible ∧ (w.truncate p).PartOf w 0 := by
  rw [truncate]
  cases hrow : w.rows[p.line]? with
  | none =>
    refine ⟨hw, rfl, fun {k text} htext => ⟨text, ?_, List.infix_rfl⟩⟩
    rwa [Nat.zero_add]
  | some row =>
    obtain ⟨hlt, -⟩ := List.getElem?_eq_some_iff.1 hrow
    obtain ⟨line, hline⟩ := hw p.line hlt
    obtain ⟨_, hget, htext⟩ := line_eq_ok.1 hline
    cases hrow.symm.trans hget
    obtain ⟨u, v, rfl, hsize⟩ := (hp hline).split
    have hfront := rowText_stop htext hsize
    refine ⟨legible_iff.2 fun other hother => ?_, rfl, fun {k text} hk => ?_⟩
    · rcases List.mem_append.1 hother with hother | hother
      · exact legible_iff.1 hw other (List.mem_of_mem_take hother)
      · rw [List.mem_singleton.1 hother]
        exact readable_iff.2 ⟨u, hfront⟩
    · obtain ⟨other, hother, hk⟩ := line_eq_ok.1 hk
      have hlen : (w.rows.take p.line).length = p.line := by
        rw [List.length_take]
        exact Nat.min_eq_left (Nat.le_of_lt hlt)
      rw [Nat.zero_add]
      rcases Nat.lt_or_ge k p.line with hlt' | hge
      · rw [List.getElem?_append_left (by rwa [hlen]), List.getElem?_take_of_lt hlt'] at hother
        exact ⟨text, line_eq_ok.2 ⟨other, hother, hk⟩, List.infix_rfl⟩
      · -- The last line is the front of the line where the window was cut.
        obtain ⟨d, rfl⟩ := Nat.exists_eq_add_of_le hge
        rw [List.getElem?_append_right (by rwa [hlen]), hlen, Nat.add_sub_cancel_left] at hother
        cases d with
        | succ d => cases hother
        | zero =>
          cases hother
          cases hfront.symm.trans hk
          exact ⟨_, hline, (List.prefix_append u v).isInfix⟩

/-! ### Chains of cuts -/

/-- The windows that cuts between characters lead to from a source, where the blank lines of a
window are ASCII before a block is cut from it, and no place is too large to be added up. -/
inductive Reached (source : Source) : Window → Prop where
  | whole : Reached source (ofSource source)
  | block {w block : Window} {p : Position} : Reached source w → w.PlainBlanks → w.Between p →
      w.Addressable p → w.cutBlock p = .ok block → Reached source block
  | lines {w : Window} (start stop : Nat) : Reached source w →
      Reached source (w.cutLines start stop)
  | truncate {w : Window} {p : Position} : Reached source w → w.Between p → w.Addressable p →
      Reached source (w.truncate p)

theorem Reached.legible {source : Source} (h : Reached source w) :
    w.source = source ∧ w.Legible := by
  induction h with
  | whole => exact ⟨rfl, legible_ofSource source⟩
  | block _ hblanks hp _ hcut ih =>
    obtain ⟨block, hcut', hlegible, hpart⟩ := cutBlock_readable ih.2 hblanks hp
    cases hcut.symm.trans hcut'
    exact ⟨hpart.source.trans ih.1, hlegible⟩
  | lines start stop _ ih => exact ⟨ih.1, legible_cutLines ih.2 start stop⟩
  | truncate _ hp _ ih =>
    obtain ⟨hlegible, hpart⟩ := truncate_readable ih.2 hp
    exact ⟨hpart.source.trans ih.1, hlegible⟩

/-- **Windows stay readable.** Every row of a window that cuts between characters lead to is a byte
range of its source line with both ends between characters, so every line can be read; and every
further cut, at a place that fits in a machine word, gives a window on the same source that shows
parts of the lines it was cut from, which stay as they are. -/
theorem Reached.readable {source : Source} (h : Reached source w) :
    (∀ row ∈ w.rows, row.Readable source) ∧ (∀ i < w.count, ∃ text, w.line i = .ok text) ∧
      (w.PlainBlanks → ∀ p, w.Between p → w.Addressable p →
        ∃ block, w.cutBlock p = .ok block ∧ block.PartOf w p.line) ∧
      (∀ start stop, (w.cutLines start stop).PartOf w start) ∧
      ∀ p, w.Between p → w.Addressable p → (w.truncate p).PartOf w 0 := by
  obtain ⟨rfl, hlegible⟩ := h.legible
  refine ⟨legible_iff.1 hlegible, hlegible, fun hblanks p hp _ => ?_, w.cutLines_partOf,
    fun p hp _ => (truncate_readable hlegible hp).2⟩
  obtain ⟨block, hcut, -, hpart⟩ := cutBlock_readable hlegible hblanks hp
  exact ⟨block, hcut, hpart⟩

/-! ### Nested blocks, and a wide blank -/

instance (text : Line) (n : Nat) : Decidable (Line.Cuts text n) :=
  inferInstanceAs (Decidable (_ ∨ _))

instance (text : Line) : Decidable (Ascii text) :=
  List.decidableBAll (fun c : Char => c.toNat < 128) text

instance (w : Window) (p : Position) : Decidable (w.Between p) :=
  match h : w.line p.line with
  | .error _ => .isTrue fun _ h' => nomatch h.symm.trans h'
  | .ok text => decidable_of_iff (Line.Cuts text p.offset)
      ⟨fun hcuts _ h' => Except.ok.inj (h.symm.trans h') ▸ hcuts, fun hp => hp h⟩

instance (w : Window) (p : Position) : Decidable (w.Addressable p) :=
  inferInstanceAs (Decidable (∀ row ∈ w.rows[p.line]?, row.start + p.offset < UInt64.size))

/-- The line is not blank, or it is ASCII. -/
def PlainLine (w : Window) (i : Nat) : Prop :=
  ∀ ⦃text : Line⦄, w.line i = .ok text → allBlank text → Ascii text

instance (w : Window) (i : Nat) : Decidable (w.PlainLine i) :=
  match h : w.line i with
  | .error _ => .isTrue fun _ h' => nomatch h.symm.trans h'
  | .ok text => decidable_of_iff (allBlank text → Ascii text)
      ⟨fun hplain _ h' => Except.ok.inj (h.symm.trans h') ▸ hplain, fun hplain => hplain h⟩

instance (w : Window) : Decidable w.PlainBlanks :=
  decidable_of_iff (∀ i < w.count, w.PlainLine i) <| by
    constructor
    · intro h i text hline
      obtain ⟨row, hrow, -⟩ := line_eq_ok.1 hline
      exact h i (List.getElem?_eq_some_iff.1 hrow).1 hline
    · intro h i _
      exact @h i

/-- Items in items, one of them a letter of two bytes. -/
def nestedSource : Source := .ofText "a\n  é\n\n    b\n     c\nd"

/-- The block at the first line: `a`, `é`, nothing, `  b` and `   c`. -/
def nestedBlock : Window :=
  ⟨nestedSource, [⟨0, 0, 1⟩, ⟨1, 2, 4⟩, ⟨2, 0, 0⟩, ⟨3, 2, 5⟩, ⟨4, 2, 6⟩]⟩

/-- The block in it after the letter: nothing, nothing, `b` and ` c`. -/
def innerBlock : Window := ⟨nestedSource, [⟨1, 4, 4⟩, ⟨2, 0, 0⟩, ⟨3, 4, 5⟩, ⟨4, 4, 6⟩]⟩

/-- Its last lines, up to the place before the `c`. -/
def innerLines : Window := ⟨nestedSource, [⟨3, 4, 5⟩, ⟨4, 4, 5⟩]⟩

theorem innerLines_readable : Reached nestedSource innerLines ∧
    (∀ row ∈ innerLines.rows, row.Readable nestedSource) ∧
      (∀ i < innerLines.count, ∃ text, innerLines.line i = .ok text) ∧
      ∃ block, innerLines.cutBlock .zero = .ok block ∧ block.PartOf innerLines 0 := by
  have hblock : Reached nestedSource nestedBlock :=
    .block (p := .zero) .whole (by decide) (by decide) (by decide) rfl
  have hinner : Reached nestedSource innerBlock :=
    .block (p := ⟨1, 2⟩) hblock (by decide) (by decide) (by decide) rfl
  have h : Reached nestedSource innerLines :=
    .truncate (p := ⟨1, 1⟩) (.lines 2 4 hinner) (by decide) (by decide)
  obtain ⟨hrows, hlines, hblocks, -, -⟩ := h.readable
  exact ⟨h, hrows, hlines, hblocks (by decide) .zero (by decide) (by decide)⟩

/-- A blank line of one character with three bytes, before a line indented by one. -/
def wideSource : Source := .ofText "a\n\u3000\n b"

/-- The block cuts its blank line inside the character, so the line cannot be read. -/
theorem block_unreadable : (ofSource wideSource).Between .zero ∧
    ∃ block, (ofSource wideSource).cutBlock .zero = .ok block ∧ 1 < block.count ∧
      block.line 1 = .error .brokenSlice :=
  ⟨by decide, ⟨wideSource, [⟨0, 0, 1⟩, ⟨1, 1, 3⟩, ⟨2, 1, 2⟩]⟩, rfl, by decide, rfl⟩

end Window

end Mixfix
