/-!
# Lines of text, measured in bytes

A line is a list of characters. Offsets into it count the bytes of its UTF-8 form, so an offset may
fall inside a character; cutting there is refused.

* `dropBytes_size_append`: cutting after a prefix gives the rest.
* `dropBytes_eq_some`: what is left after a cut, put after what was cut off, is the line.
-/

namespace Mixfix

/-- The characters of one line, without its end mark. -/
abbrev Line := List Char

/-- The number of bytes of a line. -/
def byteSize : Line → Nat
  | [] => 0
  | c :: s => c.utf8Size + byteSize s

/-- What is left of a line after its first `n` bytes, if the cut falls between characters. -/
def dropBytes : Nat → Line → Option Line
  | 0, s => some s
  | _ + 1, [] => none
  | n + 1, c :: s => if c.utf8Size ≤ n + 1 then dropBytes (n + 1 - c.utf8Size) s else none

/-- The first `n` bytes of a line, if the cut falls between characters. -/
def takeBytes : Nat → Line → Option Line
  | 0, _ => some []
  | _ + 1, [] => none
  | n + 1, c :: s =>
    if c.utf8Size ≤ n + 1 then (takeBytes (n + 1 - c.utf8Size) s).map (c :: ·) else none

/-- The bytes from `start` to `stop` of a line, if they are a range of whole characters. -/
def sliceBytes (start stop : Nat) (s : Line) : Option Line :=
  if start ≤ stop then (dropBytes start s).bind (takeBytes (stop - start)) else none

@[simp] theorem byteSize_nil : byteSize [] = 0 := rfl

@[simp] theorem byteSize_cons (c : Char) (s : Line) :
    byteSize (c :: s) = c.utf8Size + byteSize s := rfl

theorem byteSize_append (s t : Line) : byteSize (s ++ t) = byteSize s + byteSize t := by
  induction s with
  | nil => simp
  | cons c s ih => simp [ih, Nat.add_assoc]

theorem byteSize_pos {line : Line} (h : line ≠ []) : 0 < byteSize line := by
  cases line with
  | nil => exact absurd rfl h
  | cons c line =>
    rw [byteSize_cons]
    exact Nat.add_pos_left (Char.utf8Size_pos c) _

@[simp] theorem dropBytes_zero (s : Line) : dropBytes 0 s = some s := by
  cases s <;> rfl

/-- Cutting after a prefix gives the rest. -/
theorem dropBytes_size_append (s t : Line) : dropBytes (byteSize s) (s ++ t) = some t := by
  induction s with
  | nil => simp
  | cons c s ih =>
    have hc : 0 < c.utf8Size := Char.utf8Size_pos c
    obtain ⟨n, hn⟩ : ∃ n, c.utf8Size + byteSize s = n + 1 :=
      ⟨c.utf8Size + byteSize s - 1, by omega⟩
    rw [byteSize_cons, hn, List.cons_append, dropBytes, if_pos (by omega)]
    rw [show n + 1 - c.utf8Size = byteSize s by omega, ih]

/-- What is left after a cut, put after what was cut off, is the line. -/
theorem dropBytes_eq_some {n : Nat} {s t : Line} (h : dropBytes n s = some t) :
    ∃ u, s = u ++ t ∧ byteSize u = n := by
  induction s generalizing n with
  | nil =>
    cases n with
    | zero => simp at h; exact ⟨[], by simp [h], rfl⟩
    | succ n => simp [dropBytes] at h
  | cons c s ih =>
    cases n with
    | zero => simp at h; exact ⟨[], by simp [h], rfl⟩
    | succ n =>
      rw [dropBytes] at h
      split at h
      case isTrue hc =>
        obtain ⟨u, rfl, hu⟩ := ih h
        exact ⟨c :: u, rfl, by simp only [byteSize_cons, hu]; omega⟩
      case isFalse => simp at h

end Mixfix
