import Mixfix.Proofs.Window.Cutting

/-!
# Places of a window in its text

However a window was cut from a source, its rows show source lines in ascending order.  So later
places of a window lie later in the text, where the source shifts nothing; and the places of a block
lie between the place where it was cut and the beginning of the line after it.

* `Window.Valid`: a place between characters of a line, or the end of the window.
* `Window.Over`: the windows over a source, by any cuts.
* `Window.absolute_mono`: later places of a window lie later in the text.
* `Window.IsBlock`: what a block is, wherever it was cut.
* `Window.IsBlock.absolute_zero`, `Window.IsBlock.absolute_le`: where its places lie.
-/

namespace Mixfix

namespace Window

variable {w v block : Window} {p q : Position} {row : Row} {text rest : Line}

/-! ### Valid places -/

/-- A place between characters of an existing line, or the place after the last line. -/
def Valid (w : Window) (p : Position) : Prop := (∃ rest, w.Ahead p rest) ∨ p = ⟨w.count, 0⟩

theorem valid_stop (w : Window) : w.Valid ⟨w.count, 0⟩ := .inr rfl

theorem Valid.ahead (h : w.Valid p) (hlt : p.line < w.count) : ∃ rest, w.Ahead p rest := by
  rcases h with h | rfl
  · exact h
  · exact absurd hlt (Nat.lt_irrefl w.count)

/-- No valid place comes after the last line. -/
theorem Valid.le_stop (h : w.Valid p) : p ≤ ⟨w.count, 0⟩ := by
  rcases h with ⟨rest, hlt, -⟩ | rfl
  · exact .inl hlt
  · exact Position.le_refl _

theorem lt_count_of_line {i : Nat} (h : w.line i = .ok text) : i < w.count := by
  obtain ⟨row, hrow, -⟩ := line_eq_ok.1 h
  exact (List.getElem?_eq_some_iff.1 hrow).1

theorem valid_of_line {i : Nat} (h : w.line i = .ok text) : w.Valid ⟨i, 0⟩ :=
  .inl ⟨text, lt_count_of_line h, text, h, dropBytes_zero text⟩

theorem Filled.valid {i : Nat} (h : w.Filled i) : w.Valid ⟨i, 0⟩ := by
  obtain ⟨text, htext, -⟩ := except_map_eq_ok.1 h
  exact valid_of_line htext

/-- The row of a line that can be read at a place reaches up to that place. -/
theorem Ahead.offset_le (h : w.Ahead p rest) (hrow : w.rows[p.line]? = some row) :
    row.start + p.offset ≤ row.stop := by
  obtain ⟨-, text, htext, hrest⟩ := h
  obtain ⟨_, hrow', htext⟩ := line_eq_ok.1 htext
  cases hrow.symm.trans hrow'
  obtain ⟨-, -, -, -, hstop⟩ := rowText_eq_ok.1 htext
  rw [hstop, byteSize_of_dropBytes hrest]
  omega

theorem exists_row {i : Nat} (hi : i < w.count) : ∃ row, w.rows[i]? = some row :=
  ⟨_, List.getElem?_eq_getElem hi⟩

theorem lt_count_of_row {i : Nat} (h : w.rows[i]? = some row) : i < w.count :=
  (List.getElem?_eq_some_iff.1 h).1

theorem firstFilled_eq_some {n i j : Nat} (h : w.firstFilled n i = .ok (some j)) :
    i ≤ j ∧ w.Filled j := by
  induction n generalizing i with
  | zero => cases h
  | succ n ih =>
    rw [firstFilled] at h
    obtain ⟨blank, hblank, h⟩ := except_bind_eq_ok.1 h
    cases blank with
    | true =>
      obtain ⟨hle, hfilled⟩ := ih h
      exact ⟨Nat.le_of_succ_le hle, hfilled⟩
    | false =>
      cases h
      exact ⟨Nat.le_refl _, hblank⟩

/-! ### Ascending rows -/

/-- Later rows show later lines of the source. -/
def Ascending (w : Window) : Prop :=
  ∀ ⦃i j : Nat⦄ ⦃row row' : Row⦄, i < j → w.rows[i]? = some row → w.rows[j]? = some row' →
    row.line < row'.line

/-- The rows of one window show the same source lines as rows of another, from the `first` on. -/
def Follows (v w : Window) (first : Nat) : Prop :=
  ∀ ⦃k : Nat⦄ ⦃row : Row⦄, v.rows[k]? = some row →
    ∃ row', w.rows[first + k]? = some row' ∧ row.line = row'.line

theorem Ascending.of_follows {first : Nat} (hw : w.Ascending) (h : v.Follows w first) :
    v.Ascending := by
  intro i j row row' hij hrow hrow'
  obtain ⟨r, hr, hline⟩ := h hrow
  obtain ⟨r', hr', hline'⟩ := h hrow'
  rw [hline, hline']
  exact hw (Nat.add_lt_add_left hij first) hr hr'

theorem ascending_ofSource (source : Source) : (ofSource source).Ascending := by
  have hline : ∀ {i : Nat} {row : Row}, (ofSource source).rows[i]? = some row → row.line = i := by
    intro i row h
    rw [ofSource, List.getElem?_mapIdx] at h
    obtain ⟨line, -, rfl⟩ := Option.map_eq_some_iff.1 h
    rfl
  intro i j row row' hij hrow hrow'
  rwa [hline hrow, hline hrow']

theorem follows_cutLines (w : Window) (start stop : Nat) :
    (w.cutLines start stop).Follows w start := by
  intro k row hrow
  rw [cutLines, List.getElem?_drop, List.getElem?_take] at hrow
  split at hrow
  · exact ⟨row, hrow, rfl⟩
  · cases hrow

theorem follows_truncate (w : Window) (p : Position) : (w.truncate p).Follows w 0 := by
  intro k row hrow
  rw [Nat.zero_add]
  rw [truncate] at hrow
  cases hcut : w.rows[p.line]? with
  | none =>
    rw [hcut] at hrow
    exact ⟨row, hrow, rfl⟩
  | some last =>
    rw [hcut] at hrow
    dsimp only at hrow
    have hlen : (w.rows.take p.line).length = p.line := by
      rw [List.length_take]
      exact Nat.min_eq_left (Nat.le_of_lt (lt_count_of_row hcut))
    rcases Nat.lt_trichotomy k p.line with hlt | rfl | hlt
    · rw [List.getElem?_append_left (by rwa [hlen]), List.getElem?_take_of_lt hlt] at hrow
      exact ⟨row, hrow, rfl⟩
    · rw [List.getElem?_append_right (Nat.le_of_eq hlen), hlen, Nat.sub_self] at hrow
      cases hrow
      exact ⟨last, hcut, rfl⟩
    · rw [List.getElem?_eq_none (by simp [hlen]; omega)] at hrow
      cases hrow

/-! ### Blocks -/

/-- A block that was cut at a place of a line: its rows, moved to the right, and a line after it
that can be read, if there is one. -/
structure IsBlock (w : Window) (p : Position) (block : Window) : Prop where
  source : block.source = w.source
  pos : 0 < block.count
  le : p.line + block.count ≤ w.count
  rows : ∃ dedent, ∀ k < block.count,
    block.rows[k]? = (w.rows[p.line + k]?).map (blockRow p.offset dedent k)
  next : p.line + block.count < w.count → ∃ text, w.line (p.line + block.count) = .ok text

/-- Every line that a block looks at can be read, also the one where it stops. -/
theorem continuation_eq_ok {n i : Nat} {rows : List Row} {dedent : Option Nat} {filled : Nat}
    (h : w.continuation n i = .ok (rows, dedent, filled)) :
    rows = (w.rows.drop i).take rows.length ∧ filled ≤ rows.length ∧ rows.length ≤ n ∧
      ∀ k ≤ rows.length, k < n → ∃ text, w.line (i + k) = .ok text := by
  induction n generalizing i rows dedent filled with
  | zero =>
    cases h
    exact ⟨rfl, Nat.le_refl 0, Nat.le_refl 0, fun k _ hk => absurd hk (Nat.not_lt_zero k)⟩
  | succ n ih =>
    obtain ⟨hfilled, rfl, rfl, rfl⟩ | ⟨row, rows', dedent', filled', hrow, rfl, hrest, hline⟩ :=
      continuation_succ_eq_ok h
    · obtain ⟨text, htext, -⟩ := except_map_eq_ok.1 hfilled
      refine ⟨rfl, Nat.le_refl 0, Nat.zero_le _, fun k hk _ => ⟨text, ?_⟩⟩
      rwa [Nat.le_zero.1 hk]
    · obtain ⟨hrows, hle, hlen, hlines⟩ := ih hrest
      obtain ⟨text, htext⟩ : ∃ text, w.line i = .ok text := by
        rcases hline with ⟨hblank, -⟩ | ⟨-, hfilled, -⟩
        · obtain ⟨text, htext, -⟩ := except_map_eq_ok.1 hblank
          exact ⟨text, htext⟩
        · obtain ⟨text, htext, -⟩ := except_map_eq_ok.1 hfilled
          exact ⟨text, htext⟩
      refine ⟨?_, ?_, Nat.succ_le_succ hlen, fun k hk hkn => ?_⟩
      · obtain ⟨hlt, hget⟩ := List.getElem?_eq_some_iff.1 hrow
        rw [List.drop_eq_getElem_cons hlt, hget, List.length_cons, List.take_succ_cons, ← hrows]
      · rw [List.length_cons]
        rcases hline with ⟨-, -, rfl⟩ | ⟨-, -, -, -, rfl⟩
        · split <;> omega
        · exact Nat.succ_le_succ hle
      · cases k with
        | zero => exact ⟨text, htext⟩
        | succ k =>
          rw [Nat.add_succ, ← Nat.succ_add]
          exact hlines k (Nat.le_of_succ_le_succ hk) (Nat.lt_of_succ_lt_succ hkn)

theorem isBlock_of_cutBlock (hp : p.line < w.count) (h : w.cutBlock p = .ok block) :
    w.IsBlock p block := by
  obtain ⟨head, hhead⟩ := exists_row hp
  have hcut := h
  rw [cutBlock, hhead] at hcut
  obtain ⟨⟨rows, dedent, filled⟩, hcont, -⟩ := except_bind_eq_ok.1 hcut
  obtain ⟨hrows, hfilled, hlen, hlines⟩ := continuation_eq_ok hcont
  obtain ⟨block', hcut', hsource, hcount, hblock⟩ :=
    cutBlock_of_continuation hp hcont hrows hfilled p.offset
  cases h.symm.trans hcut'
  rw [← hcount] at hblock
  refine ⟨hsource, hcount ▸ Nat.succ_pos filled, by omega, ⟨dedent, hblock⟩, fun hlt => ?_⟩
  rw [hcount] at hlt ⊢
  obtain ⟨text, htext⟩ := hlines filled hfilled (by omega)
  exact ⟨text, by rwa [← Nat.add_assoc, Nat.add_right_comm]⟩

namespace IsBlock

theorem follows (h : w.IsBlock p block) : block.Follows w p.line := by
  intro k row hrow
  obtain ⟨dedent, hrows⟩ := h.rows
  rw [hrows k (lt_count_of_row hrow)] at hrow
  obtain ⟨row', hrow', rfl⟩ := Option.map_eq_some_iff.1 hrow
  exact ⟨row', hrow', rfl⟩

/-- The place at the line after a block is valid. -/
theorem valid_next (h : w.IsBlock p block) : w.Valid ⟨p.line + block.count, 0⟩ := by
  rcases Nat.lt_or_ge (p.line + block.count) w.count with hlt | hge
  · obtain ⟨text, htext⟩ := h.next hlt
    exact valid_of_line htext
  · rw [Nat.le_antisymm h.le hge]
    exact w.valid_stop

/-- A block that is cut between characters shows the rest of the line first. -/
theorem valid_zero (h : w.IsBlock p block) (hp : w.Ahead p rest) : block.Valid .zero := by
  obtain ⟨-, text, htext, hrest⟩ := hp
  obtain ⟨dedent, hrows⟩ := h.rows
  have hcut : Line.Cuts text (if (0 : Nat) = 0 then p.offset else dedent.getD 0) := by
    rw [if_pos rfl]
    exact .inl (by rw [hrest]; rfl)
  obtain ⟨-, back, -, -, hback⟩ := line_of_blockRow h.source (hrows 0 h.pos) htext hcut
  exact valid_of_line hback

end IsBlock

/-! ### The windows over a source -/

/-- The windows over a source: the whole source, and all that cuts lead to from it, wherever they
fall. -/
inductive Over (source : Source) : Window → Prop where
  | whole : Over source (ofSource source)
  | block {w block : Window} {p : Position} : Over source w → w.cutBlock p = .ok block →
      Over source block
  | lines {w : Window} (start stop : Nat) : Over source w → Over source (w.cutLines start stop)
  | truncate {w : Window} (p : Position) : Over source w → Over source (w.truncate p)

/-- A window on a source that shifts nothing, with ascending rows. -/
structure Regular (w : Window) : Prop where
  identity : w.source.place = id
  ascending : w.Ascending

theorem Regular.of_isBlock (hw : w.Regular) (h : w.IsBlock p block) : block.Regular :=
  ⟨h.source ▸ hw.identity, hw.ascending.of_follows h.follows⟩

theorem Over.regular {source : Source} (hid : source.place = id) (h : Over source w) :
    w.Regular := by
  induction h with
  | whole => exact ⟨hid, ascending_ofSource source⟩
  | @block w block p _ hcut ih =>
    by_cases hp : p.line < w.count
    · exact ih.of_isBlock (isBlock_of_cutBlock hp hcut)
    · rw [cutBlock, List.getElem?_eq_none (Nat.le_of_not_lt hp)] at hcut
      cases hcut
      refine ⟨ih.identity, fun _ _ _ _ _ hrow _ => ?_⟩
      cases hrow
  | lines start stop _ ih =>
    exact ⟨ih.identity, ih.ascending.of_follows (follows_cutLines _ start stop)⟩
  | @truncate w p _ ih =>
    refine ⟨?_, ih.ascending.of_follows (follows_truncate _ p)⟩
    rw [Window.truncate]
    split <;> exact ih.identity

/-! ### Places in the text -/

namespace Regular

theorem absolute_of_row (hw : w.Regular) (hrow : w.rows[p.line]? = some row) :
    w.absolute p = ⟨row.line, row.start + p.offset⟩ := by
  rw [absolute, hrow]
  exact congrFun hw.identity _

/-- The end of a window is the end of its last row. -/
theorem absolute_stop (hw : w.Regular) {i : Nat} (hrow : w.rows[i]? = some row)
    (hi : w.count = i + 1) : w.absolute ⟨w.count, 0⟩ = ⟨row.line, row.stop⟩ := by
  have hpast : w.rows[w.count]? = none := List.getElem?_eq_none (Nat.le_refl _)
  have hlast : w.rows.getLast? = some row := by
    rw [List.getLast?_eq_getElem?, ← hrow]
    congr 1
    exact Nat.sub_eq_of_eq_add hi
  rw [absolute]
  dsimp only
  rw [hpast, hlast]
  exact congrFun hw.identity _

theorem absolute_le_stop (hw : w.Regular) (hp : w.Valid p) :
    w.absolute p ≤ w.absolute ⟨w.count, 0⟩ := by
  rcases hp with ⟨rest, hp⟩ | rfl
  · obtain ⟨row, hrow⟩ := exists_row hp.1
    obtain ⟨last, hlast⟩ := exists_row (w := w) (i := w.count - 1) (by have := hp.1; omega)
    rw [hw.absolute_of_row hrow, hw.absolute_stop hlast (by have := hp.1; omega)]
    rcases Nat.lt_or_ge p.line (w.count - 1) with hlt | hge
    · exact .inl (hw.ascending hlt hrow hlast)
    · have heq : p.line = w.count - 1 := by
        have := hp.1
        omega
      rw [← heq, hrow] at hlast
      cases hlast
      exact .inr ⟨rfl, hp.offset_le hrow⟩
  · exact Position.le_refl _

/-- Later places of a window lie later in the text. -/
theorem absolute_mono (hw : w.Regular) (hp : w.Valid p) (hq : w.Valid q) (h : p ≤ q) :
    w.absolute p ≤ w.absolute q := by
  rcases hq with ⟨rest, hq⟩ | rfl
  · obtain ⟨row', hrow'⟩ := exists_row hq.1
    obtain ⟨row, hrow⟩ := exists_row (w := w) (i := p.line) (by
      have := hq.1
      rcases h with h | ⟨h, -⟩ <;> omega)
    rw [hw.absolute_of_row hrow, hw.absolute_of_row hrow']
    rcases h with h | ⟨h, hoffset⟩
    · exact .inl (hw.ascending h hrow hrow')
    · rw [h, hrow'] at hrow
      cases hrow
      exact .inr ⟨rfl, Nat.add_le_add_left hoffset _⟩
  · exact hw.absolute_le_stop hp

end Regular

namespace IsBlock

/-- A block begins where it was cut. -/
theorem absolute_zero (h : w.IsBlock p block) (hw : w.Regular) (hp : w.Ahead p rest) :
    block.absolute .zero = w.absolute p := by
  obtain ⟨row, hrow⟩ := exists_row hp.1
  obtain ⟨dedent, hrows⟩ := h.rows
  have hfirst : block.rows[(0 : Nat)]? = some (blockRow p.offset dedent 0 row) := by
    rw [hrows 0 h.pos, Nat.add_zero, hrow]
    rfl
  have hmin : min (row.start + p.offset) row.stop = row.start + p.offset :=
    Nat.min_eq_left (hp.offset_le hrow)
  rw [(hw.of_isBlock h).absolute_of_row (p := .zero) hfirst, hw.absolute_of_row hrow]
  simp [blockRow, Position.zero, hmin]

/-- A block ends before the line after it. -/
theorem absolute_le (h : w.IsBlock p block) (hw : w.Regular) (hq : block.Valid q) :
    block.absolute q ≤ w.absolute ⟨p.line + block.count, 0⟩ := by
  have hpos := h.pos
  have hle := h.le
  refine Position.le_trans ((hw.of_isBlock h).absolute_le_stop hq) ?_
  obtain ⟨row, hrow⟩ := exists_row (w := w) (i := p.line + (block.count - 1)) (by omega)
  obtain ⟨dedent, hrows⟩ := h.rows
  have hlast : block.rows[block.count - 1]? =
      some (blockRow p.offset dedent (block.count - 1) row) := by
    rw [hrows _ (by omega), hrow]
    rfl
  rw [(hw.of_isBlock h).absolute_stop hlast (by omega)]
  show (⟨row.line, row.stop⟩ : Position) ≤ _
  rcases Nat.lt_or_ge (p.line + block.count) w.count with hlt | hge
  · obtain ⟨row', hrow'⟩ := exists_row hlt
    rw [hw.absolute_of_row (p := ⟨p.line + block.count, 0⟩) hrow']
    exact .inl (hw.ascending (by omega) hrow hrow')
  · rw [Nat.le_antisymm hle hge, hw.absolute_stop hrow (by omega)]
    exact Position.le_refl _

end IsBlock

end Window

end Mixfix
