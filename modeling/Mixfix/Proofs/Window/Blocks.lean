import Mixfix.Proofs.Window.Cutting

/-!
# What a block keeps

A block takes the line it begins in and the lines after it up to the first one that is neither
blank nor indented, and leaves out the blank lines at its end.  The loop that finds them carries
the smallest indentation so far and the number of rows up to the last line that is not blank; both
are those of a line that the block takes, so the indentation is exact and the block ends in text.
From its lines the block removes the same stretch of bytes, which in the lines after the first is
blank; what is left, and every place in it, is found in the window by putting that stretch back.

* `Window.Tight`: the indentation and the last row of a block are those of lines it takes.
* `Window.Extent`: the lines of a block.
* `Window.Moved`: a line without its front, whose places lie behind that front.
* `Window.cutBlock_keeps`: a block loses no text, and maps back to its window.
-/

namespace Mixfix

/-- Of two fronts of a line, the one with no more bytes is a front of the other. -/
theorem prefix_of_byteSize_le {u v s t : Line} (h : u ++ v = s ++ t)
    (hle : byteSize u ≤ byteSize s) : u <+: s := by
  have hu : u <+: s ++ t := h ▸ List.prefix_append u v
  rcases List.prefix_or_prefix_of_prefix hu (List.prefix_append s t) with hprefix | ⟨rest, rfl⟩
  · exact hprefix
  · cases rest with
    | nil => exact ⟨[], by rw [List.append_nil, List.append_nil]⟩
    | cons c rest =>
      have hpos := byteSize_pos (List.cons_ne_nil c rest)
      rw [byteSize_append] at hle
      omega

namespace Window

variable {w : Window} {text : Line}

/-! ### The lines of a block -/

/-- The lines found from a line on end in one that is not blank, and the indentation found is that
of one of them. -/
structure Tight (w : Window) (i : Nat) (dedent : Option Nat) (filled : Nat) : Prop where
  last : ∀ {k}, filled = k + 1 → w.Filled (i + k)
  attained : ∀ {least}, dedent = some least →
    ∃ k < filled, w.Filled (i + k) ∧ w.indentation (i + k) = .ok least

theorem continuation_tight {n i : Nat} {rows : List Row} {dedent : Option Nat} {filled : Nat}
    (h : w.continuation n i = .ok (rows, dedent, filled)) : w.Tight i dedent filled := by
  induction n generalizing i rows dedent filled with
  | zero =>
    cases h
    exact ⟨nofun, nofun⟩
  | succ n ih =>
    obtain ⟨-, -, rfl, rfl⟩ | ⟨row, rows', dedent', filled', -, -, hrest, hline⟩ :=
      continuation_succ_eq_ok h
    · exact ⟨nofun, nofun⟩
    · obtain ⟨hlast, hattained⟩ := ih hrest
      -- A line found from the next line on is one further from this one.
      have hnext : ∀ {k}, i + 1 + k = i + (k + 1) := by omega
      have hlater : ∀ {least}, dedent' = some least → ∃ k < filled', w.Filled (i + (k + 1)) ∧
          w.indentation (i + (k + 1)) = .ok least := by
        intro least hleast
        obtain ⟨k, hk, hfound⟩ := hattained hleast
        exact ⟨k, hk, hnext ▸ hfound⟩
      rcases hline with ⟨-, rfl, rfl⟩ | ⟨depth, hfilled, hdepth, rfl, rfl⟩
      · constructor
        · intro k hk
          split at hk
          · cases hk
          · obtain ⟨k, rfl⟩ := Nat.exists_eq_succ_of_ne_zero ‹filled' ≠ 0›
            cases hk
            exact hnext ▸ hlast rfl
        · intro least hleast
          obtain ⟨k, hk, hfound⟩ := hlater hleast
          exact ⟨k + 1, by split <;> omega, hfound⟩
      · constructor
        · intro k hk
          cases filled' with
          | zero =>
            cases hk
            exact hfilled
          | succ filled' =>
            cases hk
            exact hnext ▸ hlast rfl
        · -- The smaller of this depth and the one found later is one of the two.
          intro least hleast
          cases hdedent : dedent' with
          | none =>
            rw [hdedent] at hleast
            cases hleast
            exact ⟨0, Nat.succ_pos filled', hfilled, hdepth⟩
          | some later =>
            rw [hdedent, Option.elim, Option.some.injEq] at hleast
            rcases Nat.le_total depth later with hle | hle
            · rw [Nat.min_eq_left hle] at hleast
              exact ⟨0, Nat.succ_pos filled', hfilled, hleast ▸ hdepth⟩
            · rw [Nat.min_eq_right hle] at hleast
              obtain ⟨k, hk, hfound⟩ := hlater hdedent
              exact ⟨k + 1, Nat.succ_lt_succ hk, hleast ▸ hfound⟩

/-- The block at line `i` has `n` lines, and `least` is the smallest indentation of those after the
first that are not blank. These are all indented, and the last one is one of them; and the first
line after the block that is not blank has no indentation. -/
structure Extent (w : Window) (i n least : Nat) : Prop where
  pos : 1 ≤ n
  le : i + n ≤ w.count
  last : 1 < n → w.Filled (i + n - 1)
  indented : ∀ {j}, i < j → j < i + n → w.Filled j →
    ∃ depth, w.indentation j = .ok depth ∧ 0 < depth ∧ least ≤ depth
  attained : 1 < n → ∃ j, i < j ∧ j < i + n ∧ w.Filled j ∧ w.indentation j = .ok least
  next : ∀ {j}, i + n ≤ j → w.Filled j → (∀ k, i + n ≤ k → k < j → w.Blank k) →
    w.indentation j = .ok 0

theorem Spans.extent {i filled : Nat} {dedent : Option Nat} (h : w.Spans i (filled + 1) dedent)
    (htight : w.Tight (i + 1) dedent filled) : w.Extent i (filled + 1) (dedent.getD 0) where
  pos := h.pos
  le := h.le
  last hn := by
    obtain ⟨k, rfl⟩ := Nat.exists_eq_add_of_lt (Nat.lt_of_succ_lt_succ hn)
    have hlast := htight.last rfl
    rwa [show i + 1 + (0 + k) = i + (0 + k + 1 + 1) - 1 by omega] at hlast
  indented hj hlt hfilled := by
    rcases h.inner _ hj hlt with hblank | ⟨least, depth, rfl, hdepth, hpos, hle⟩
    · exact absurd hblank hfilled.not_blank
    · exact ⟨depth, hdepth, hpos, hle⟩
  attained hn := by
    -- The last line is not blank, so there is a smallest indentation.
    obtain ⟨k, rfl⟩ := Nat.exists_eq_add_of_lt (Nat.lt_of_succ_lt_succ hn)
    rcases h.inner (i + 1 + (0 + k)) (by omega) (by omega) with hblank | ⟨least, -, rfl, -⟩
    · exact absurd hblank (htight.last rfl).not_blank
    · obtain ⟨k, hk, hfound⟩ := htight.attained rfl
      exact ⟨i + 1 + k, by omega, by omega, hfound⟩
  next := h.after _

/-! ### The text of a block -/

/-- Line `k` of `block` is line `j` of the window without `front`, which takes `cut` bytes or all
of the line; and the places on it are those of the window behind `front`. -/
structure Moved (w block : Window) (j k cut : Nat) (front : Line) : Prop where
  shows : ∃ back, w.line j = .ok (front ++ back) ∧ block.line k = .ok back ∧
    byteSize front = min cut (byteSize (front ++ back))
  absolute : ∀ o, block.absolute ⟨k, o⟩ = w.absolute ⟨j, byteSize front + o⟩

/-- A line whose front is blank stays blank, or not, without it. -/
theorem Moved.filled_iff {block : Window} {j k cut : Nat} {front : Line}
    (h : w.Moved block j k cut front) (hfront : allBlank front) :
    block.Filled k ↔ w.Filled j := by
  obtain ⟨back, hline, hback, -⟩ := h.shows
  have hsame : allBlank (front ++ back) = allBlank back := by
    rw [allBlank, List.all_append, ← allBlank, hfront, Bool.true_and, ← allBlank]
  rw [Filled, Filled, isBlankLine_of_line hline, isBlankLine_of_line hback, hsame]

theorem moved_of_blockRow {block : Window} (hsource : block.source = w.source) {i k offset : Nat}
    {dedent : Option Nat}
    (hrow : block.rows[k]? = (w.rows[i + k]?).map (blockRow offset dedent k))
    (hline : w.line (i + k) = .ok text)
    (hcut : Line.Cuts text (if k = 0 then offset else dedent.getD 0)) :
    ∃ front, w.Moved block (i + k) k (if k = 0 then offset else dedent.getD 0) front := by
  obtain ⟨front, back, rfl, hsize, hback⟩ := line_of_blockRow hsource hrow hline hcut
  refine ⟨front, ⟨back, hline, hback, hsize⟩, fun o => ?_⟩
  obtain ⟨row, hget, htext⟩ := line_eq_ok.1 hline
  obtain ⟨-, -, -, -, hstop⟩ := rowText_eq_ok.1 htext
  have hstart : (blockRow offset dedent k row).start = row.start + byteSize front := by
    rw [blockRow, hsize]
    dsimp only
    omega
  rw [hget] at hrow
  rw [absolute, absolute, hrow, hget, hsource]
  dsimp only [Option.map_some]
  rw [hstart, Nat.add_assoc]
  rfl

/-- What a block removes from a line after its first is blank: a part of a blank line, or of the
indentation. -/
theorem Inner.allBlank_front {dedent : Option Nat} {i : Nat} {front back : Line}
    (h : w.Inner dedent i) (hline : w.line i = .ok (front ++ back))
    (hsize : byteSize front = min (dedent.getD 0) (byteSize (front ++ back))) : allBlank front := by
  rcases h with hblank | ⟨least, depth, rfl, hdepth, -, hle⟩
  · rw [Blank, isBlankLine_of_line hline, Except.ok.injEq, allBlank, List.all_append,
      Bool.and_eq_true] at hblank
    exact hblank.1
  · rw [indentation_of_line hline, Except.ok.injEq] at hdepth
    have hascii := ascii_takeWhile_isIndent (front ++ back)
    have hfront : front <+: (front ++ back).takeWhile isIndent := by
      refine prefix_of_byteSize_le (List.takeWhile_append_dropWhile).symm ?_
      rw [hascii.byteSize_eq, hdepth, hsize]
      exact Nat.le_trans (Nat.min_le_left _ _) hle
    refine List.all_eq_true.2 fun c hc => ?_
    have hindent : isIndent c := List.all_eq_true.1 List.all_takeWhile c (hfront.subset hc)
    cases hblank : isBlank c with
    | true => rfl
    | false =>
      rw [Terminal.isIndent_of_isBlank hblank] at hindent
      cases hindent

/-- **A block loses no text and maps back.** The block at a line of a readable window, whose blank
lines are ASCII, has the same lines wherever it begins in its first line. Its first line is the
rest of that line from the offset on; the others are those of the window without the smallest
indentation of those that are not blank, or what there is of it in a blank line; and the last one
is not blank. Every place of the block lies where it lies in the window, with the removed part put
back. -/
theorem cutBlock_keeps (hw : w.Legible) (hblanks : w.PlainBlanks) {i : Nat} (hi : i < w.count) :
    ∃ n least, w.Extent i n least ∧ ∀ offset, ∃ block, w.cutBlock ⟨i, offset⟩ = .ok block ∧
      block.count = n ∧ (w.Between ⟨i, offset⟩ →
        (∃ front, w.Moved block i 0 offset front) ∧
        (∀ k, 0 < k → k < n → ∃ front, w.Moved block (i + k) k least front ∧ allBlank front) ∧
        (1 < n → block.Filled (n - 1))) := by
  obtain ⟨rows, dedent, filled, hcont, hspec⟩ :=
    continuation_spec hw (n := w.count - (i + 1)) (i := i + 1) (by omega)
  have hspans := hspec.spans hi
  have hextent := hspans.extent (continuation_tight hcont)
  refine ⟨filled + 1, dedent.getD 0, hextent, fun offset => ?_⟩
  obtain ⟨block, hcut, hsource, hcount, hrows⟩ :=
    cutBlock_of_continuation hi hcont hspec.rows_eq hspec.filled_le offset
  refine ⟨block, hcut, hcount, fun hp => ?_⟩
  have hlater : ∀ k, 0 < k → k < filled + 1 →
      ∃ front, w.Moved block (i + k) k (dedent.getD 0) front ∧ allBlank front := by
    intro k hpos hk
    have hk0 : k ≠ 0 := Nat.pos_iff_ne_zero.1 hpos
    obtain ⟨line, hline⟩ := hw (i + k) (by have := hspans.le; omega)
    have hinner := hspans.inner (i + k) (by omega) (by omega)
    obtain ⟨front, hmoved⟩ := moved_of_blockRow hsource (hrows k hk) hline (by
      rw [if_neg hk0]
      exact hinner.cuts hblanks hline)
    rw [if_neg hk0] at hmoved
    obtain ⟨back, hwhole, -, hsize⟩ := hmoved.shows
    exact ⟨front, hmoved, hinner.allBlank_front hwhole hsize⟩
  refine ⟨?_, hlater, fun hn => ?_⟩
  · obtain ⟨head, hhead⟩ := hw i hi
    exact moved_of_blockRow hsource (hrows 0 hspans.pos) hhead (hp hhead)
  · obtain ⟨front, hmoved, hfront⟩ := hlater filled (by omega) (Nat.lt_succ_self filled)
    exact (hmoved.filled_iff hfront).2 (hextent.last hn)

/-- The block after the letter in a block of five lines, of which the third is empty. -/
theorem innerBlock_keeps :
    nestedBlock.Legible ∧ nestedBlock.PlainBlanks ∧ nestedBlock.Between ⟨1, 2⟩ ∧
      ∃ least, nestedBlock.Extent 1 4 least ∧ (∃ front, nestedBlock.Moved innerBlock 1 0 2 front) ∧
        (∀ k, 0 < k → k < 4 →
          ∃ front, nestedBlock.Moved innerBlock (1 + k) k least front ∧ allBlank front) ∧
        innerBlock.Filled 3 := by
  have hreached : Reached nestedSource nestedBlock :=
    .block (p := .zero) .whole (by decide) (by decide) (by decide) rfl
  have hlegible : nestedBlock.Legible := hreached.legible.2
  have hblanks : nestedBlock.PlainBlanks := by decide
  have hp : nestedBlock.Between ⟨1, 2⟩ := by decide
  obtain ⟨n, least, hextent, hblock⟩ := cutBlock_keeps hlegible hblanks (i := 1) (by decide)
  obtain ⟨block, hcut, rfl, hkeeps⟩ := hblock 2
  cases hcut.symm.trans (show nestedBlock.cutBlock ⟨1, 2⟩ = .ok innerBlock from rfl)
  obtain ⟨hhead, hlater, hlast⟩ := hkeeps hp
  exact ⟨hlegible, hblanks, hp, least, hextent, hhead, hlater, hlast (by decide)⟩

end Window

end Mixfix
