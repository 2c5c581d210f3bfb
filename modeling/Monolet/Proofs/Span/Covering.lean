import Mathlib
import Monolet.Span.Excerpt

/-!
# Spans that cover text

`Text.endPos` says at which line and column a text ends. A span covers the characters `i` to `k` of a text when it runs
from where the first `i` characters end to where the first `k + 1` do, and neither of its two outer characters ends a
line (`Span.Covers`). The lines of the text and the positions then fit together: the first character of the span stands
on an existing line at its column (`Text.exists_line_at`). Hence there is an excerpt for every span that covers
characters of the text (`Span.Covers.isSome_excerpt`), and with two spans, one behind the other, also the span of the
two together does (`Span.LiesIn.merge`).
-/

namespace Monolet

namespace Text

/-- Where a text ends that starts in the first column of the first line. -/
def endPos : List Char → Pos
  | [] => {}
  | c :: cs =>
    if c = '\n' then ⟨(endPos cs).line + 1, (endPos cs).col⟩
    else if (endPos cs).line = 0 then ⟨0, c.utf8Size + (endPos cs).col⟩
    else endPos cs

/-- Of two texts the second is placed where the first one ends; its columns count on up to its first line feed. -/
theorem endPos_append (cs ds : List Char) :
    endPos (cs ++ ds) =
      if (endPos ds).line = 0 then ⟨(endPos cs).line, (endPos cs).col + (endPos ds).col⟩
      else ⟨(endPos cs).line + (endPos ds).line, (endPos ds).col⟩ := by
  induction cs with
  | nil =>
    split
    · next onFirst => rw [show (endPos []).line = (endPos ds).line from onFirst.symm]; simp [endPos]
    · simp [endPos]
  | cons c cs ih =>
    rw [List.cons_append, endPos, endPos, ih]
    by_cases feed : c = '\n' <;> by_cases onFirst : (endPos ds).line = 0 <;>
      by_cases first : (endPos cs).line = 0 <;> simp [feed, onFirst, first] <;> omega

theorem endPos_of_no_feed {cs : List Char} (plain : '\n' ∉ cs) : endPos cs = ⟨0, byteLength cs⟩ := by
  induction cs with
  | nil => rfl
  | cons c cs ih =>
    simp only [List.mem_cons, not_or] at plain
    simp [endPos, ih plain.2, Ne.symm plain.1]

theorem no_feed_of_endPos {cs : List Char} (onFirst : (endPos cs).line = 0) : '\n' ∉ cs := by
  induction cs with
  | nil => simp
  | cons c cs ih =>
    by_cases feed : c = '\n'
    · simp [endPos, feed] at onFirst
    · by_cases first : (endPos cs).line = 0
      · simp [ih first, Ne.symm feed]
      · simp [endPos, feed, first] at onFirst

theorem endPos_append_of_no_feed (cs : List Char) {w : List Char} (plain : '\n' ∉ w) :
    endPos (cs ++ w) = ⟨(endPos cs).line, (endPos cs).col + byteLength w⟩ := by
  simp [endPos_append, endPos_of_no_feed plain]

theorem endPos_append_feed (cs : List Char) : endPos (cs ++ ['\n']) = ⟨(endPos cs).line + 1, 0⟩ := by
  simp [endPos_append, endPos]

/-- A character that has no part in ending a line. -/
def Solid (c : Char) : Prop := c ≠ '\n' ∧ c ≠ '\r'

/-! ## Lines -/

theorem lines_feed (cs : List Char) : lines ('\n' :: cs) = [] :: lines cs := by
  simp [lines]

/-- A carriage return before a line feed is no part of the line. -/
theorem lines_return_feed (cs : List Char) : lines ('\r' :: '\n' :: cs) = lines ('\n' :: cs) := by
  simp [lines]

/-- Any other character goes in front of the first line of what follows it. -/
theorem lines_cons {c : Char} {cs : List Char} (feed : c ≠ '\n') (ending : c = '\r' → cs.head? ≠ some '\n') :
    lines (c :: cs) = (c :: (lines cs).headD []) :: (lines cs).tail := by
  have not_ending (cs' : List Char) (h : c = '\r') (h' : cs = '\n' :: cs') : False := ending h (by simp [h'])
  rw [lines]
  · cases lines cs <;> rfl
  · exact feed
  · exact not_ending

/-- A stretch without line feeds, whose last character is solid, starts the first line if it starts the text. -/
theorem exists_first_line {w : List Char} {d : Char} (plain : '\n' ∉ w) (solid : Solid d) (behind : List Char) :
    ∃ right more, lines (w ++ d :: behind) = (w ++ d :: right) :: more := by
  induction w with
  | nil => exact ⟨_, _, lines_cons solid.1 fun h => absurd h solid.2⟩
  | cons c w ih =>
    simp only [List.mem_cons, not_or] at plain
    obtain ⟨right, more, eq⟩ := ih plain.2
    have inner : (w ++ d :: behind).head? ≠ some '\n' := by
      cases w with
      | nil => simpa using solid.1
      | cons b w => simpa using fun h => plain.2 (by simp [h])
    refine ⟨right, more, ?_⟩
    rw [List.cons_append, lines_cons (Ne.symm plain.1) fun _ => inner, eq]
    rfl

/-- Such a stretch stands anywhere in the text on the line, and at the column, where the text in front of it ends. -/
theorem exists_line_at (front : List Char) {w : List Char} {d : Char} (plain : '\n' ∉ w) (solid : Solid d)
    (behind : List Char) :
    ∃ left right, (lines (front ++ (w ++ d :: behind)))[(endPos front).line]? = some (left ++ (w ++ d :: right)) ∧
      byteLength left = (endPos front).col := by
  induction front with
  | nil =>
    obtain ⟨right, more, eq⟩ := exists_first_line plain solid behind
    exact ⟨[], right, by simp [endPos, eq], rfl⟩
  | cons c front ih =>
    obtain ⟨left, right, found, width⟩ := ih
    by_cases feed : c = '\n'
    · subst feed
      exact ⟨left, right, by simpa [endPos, lines_feed] using found, by simpa [endPos] using width⟩
    by_cases ending : c = '\r' ∧ (front ++ (w ++ d :: behind)).head? = some '\n'
    · -- The line feed cannot be the first character of the stretch, so the text in front goes on with it.
      obtain ⟨rfl, next⟩ := ending
      cases front with
      | nil =>
        cases w with
        | nil => exact absurd (by simpa using next) solid.1
        | cons b w => exact absurd (by simpa using next : b = '\n') fun h => plain (by simp [h])
      | cons b front =>
        obtain rfl : b = '\n' := by simpa using next
        refine ⟨left, right, ?_, ?_⟩
        · simpa [endPos, lines_return_feed] using found
        · simpa [endPos] using width
    · have split := lines_cons feed fun h next => ending ⟨h, next⟩
      by_cases first : (endPos front).line = 0
      · refine ⟨c :: left, right, ?_, ?_⟩
        · rw [first] at found
          have head : (lines (front ++ (w ++ d :: behind))).headD [] = left ++ (w ++ d :: right) := by
            cases h : lines (front ++ (w ++ d :: behind)) <;> simp_all
          rw [List.cons_append, split, head]
          simp [endPos, feed, first]
        · simp [endPos, feed, first, width]
      · refine ⟨left, right, ?_, by simpa [endPos, feed, first] using width⟩
        obtain ⟨n, line⟩ := Nat.exists_eq_succ_of_ne_zero first
        rw [List.cons_append, split]
        simpa [endPos, feed, first, line] using found

theorem splitAtByte_append (left right : List Char) :
    splitAtByte (byteLength left) (left ++ right) = some (left, right) := by
  induction left with
  | nil => simp [splitAtByte]
  | cons c left ih =>
    obtain ⟨n, width⟩ : ∃ n, byteLength (c :: left) = n + 1 :=
      Nat.exists_eq_succ_of_ne_zero (by have := c.utf8Size_pos; simp only [byteLength_cons]; omega)
    have rest : n + 1 - c.utf8Size = byteLength left := by
      rw [← width, byteLength_cons]
      omega
    have fits : c.utf8Size ≤ n + 1 := by
      rw [← width, byteLength_cons]
      omega
    rw [width, List.cons_append, splitAtByte, if_pos fits, rest, ih]
    rfl

end Text

namespace Span

open Text

/-- The span of the characters `i` to `k` of a text. -/
structure Covers (text : List Char) (span : Span) (i k : Nat) : Prop where
  start_eq : span.start = endPos (text.take i)
  stop_eq : span.stop = endPos (text.take (k + 1))
  le : i ≤ k
  first : ∃ c, text[i]? = some c ∧ Solid c
  last : ∃ d, text[k]? = some d ∧ Solid d

variable {text : List Char} {span other : Span} {i k j l : Nat}

/-- The span of a stretch of text whose outer characters are solid. -/
theorem covers_of_append {front w : List Char} (behind : List Char) (start_eq : span.start = endPos front)
    (stop_eq : span.stop = endPos (front ++ w)) (first : ∃ c, w.head? = some c ∧ Solid c)
    (last : ∃ d, w.getLast? = some d ∧ Solid d) :
    span.Covers (front ++ (w ++ behind)) front.length (front.length + (w.length - 1)) := by
  obtain ⟨c, head, solid⟩ := first
  obtain ⟨d, getLast, solid'⟩ := last
  obtain ⟨w, rfl⟩ := List.head?_eq_some_iff.1 head
  refine ⟨by simp [start_eq], ?_, by omega, ⟨c, by simp, solid⟩, ⟨d, ?_, solid'⟩⟩
  · rw [stop_eq, ← List.append_assoc, List.take_left' (by simp; omega)]
  · rw [List.getElem?_append_right (by omega), List.getElem?_append_left (by simp)]
    simpa [List.getLast?_eq_getElem?] using getLast

/-- The line a covering span starts on. -/
theorem Covers.exists_first_line (h : span.Covers text i k) :
    ∃ left right, (lines text)[span.start.line]? = some (left ++ right) ∧ byteLength left = span.start.col := by
  obtain ⟨c, at_i, solid⟩ := h.first
  obtain ⟨left, right, found, width⟩ := exists_line_at (text.take i) (w := []) (by simp) solid (text.drop (i + 1))
  have whole : text.take i ++ c :: text.drop (i + 1) = text := by
    obtain ⟨lt, rfl⟩ := List.getElem?_eq_some_iff.1 at_i
    rw [List.cons_getElem_drop_succ, List.take_append_drop]
  rw [List.nil_append, whole] at found
  exact ⟨left, _, by rw [h.start_eq, found], by rw [h.start_eq, width]⟩

/-- The characters of a covering span up to its last one, with the text around them. -/
theorem Covers.exists_split (h : span.Covers text i k) :
    ∃ w d behind, Solid d ∧ text = text.take i ++ (w ++ d :: behind) ∧
      text.take (k + 1) = text.take i ++ (w ++ [d]) := by
  obtain ⟨d, at_k, solid⟩ := h.last
  obtain ⟨lt, rfl⟩ := List.getElem?_eq_some_iff.1 at_k
  have upTo : text.take (k + 1) = text.take i ++ ((text.take k).drop i ++ [text[k]]) := by
    have front : (text.take k).take i = text.take i := by rw [List.take_take, Nat.min_eq_left h.le]
    rw [← List.append_assoc, ← front, List.take_append_drop, List.take_append_getElem]
  refine ⟨(text.take k).drop i, text[k], text.drop (k + 1), solid, ?_, upTo⟩
  calc text = text.take (k + 1) ++ text.drop (k + 1) := (List.take_append_drop _ _).symm
    _ = _ := by rw [upTo]; simp

/-- The line a covering span ends on, and that it does not end in front of it. -/
theorem Covers.exists_last_line (h : span.Covers text i k) :
    span.stop.col ≠ 0 ∧ span.start.line ≤ span.stop.line ∧ span.stop.line < (lines text).length := by
  obtain ⟨w, d, behind, solid, whole, upTo⟩ := h.exists_split
  have stop_eq : span.stop = endPos ((text.take i ++ w) ++ [d]) := by rw [h.stop_eq, upTo, List.append_assoc]
  rw [endPos_append_of_no_feed _ (by simpa using Ne.symm solid.1)] at stop_eq
  obtain ⟨left, right, found, -⟩ := exists_line_at (text.take i ++ w) (w := []) (by simp) solid behind
  rw [List.nil_append, List.append_assoc, ← whole] at found
  refine ⟨?_, ?_, ?_⟩
  · have := d.utf8Size_pos
    simp only [stop_eq, byteLength_cons, byteLength_nil]
    omega
  · rw [stop_eq, h.start_eq, endPos_append]
    split <;> simp
  · rw [stop_eq]
    exact (List.getElem?_eq_some_iff.1 found).1

/-- If a covering span stays on one line, all its characters stand there, at its column. -/
theorem Covers.exists_only_line (h : span.Covers text i k) (same : span.start.line = span.stop.line) :
    ∃ left inside right, (lines text)[span.start.line]? = some (left ++ (inside ++ right)) ∧
      byteLength left = span.start.col ∧ span.stop.col = span.start.col + byteLength inside := by
  obtain ⟨w, d, behind, solid, whole, upTo⟩ := h.exists_split
  have plain : '\n' ∉ w ++ [d] := by
    apply no_feed_of_endPos
    have stop_eq := h.stop_eq
    rw [upTo, endPos_append, ← h.start_eq] at stop_eq
    by_contra below
    rw [if_neg below] at stop_eq
    rw [stop_eq] at same
    simp only at same
    omega
  obtain ⟨left, right, found, width⟩ := exists_line_at (text.take i) (w := w) (fun h => plain (by simp [h])) solid behind
  rw [← whole, ← h.start_eq] at found
  refine ⟨left, w ++ [d], right, by simpa using found, by rw [width, h.start_eq], ?_⟩
  rw [h.stop_eq, upTo, endPos_append_of_no_feed _ plain, h.start_eq]

/-! ## Excerpts -/

theorem Covers.isSome_markedLine (h : span.Covers text i k) (hl : Highlight) {line : List Char}
    (found : (lines text)[span.start.line]? = some line) : (span.markedLine hl line).isSome := by
  by_cases same : span.start.line = span.stop.line
  · obtain ⟨left, inside, right, found', width, stop⟩ := h.exists_only_line same
    obtain rfl : line = left ++ (inside ++ right) := Option.some.inj (found.symm.trans found')
    have inner : span.stop.col - span.start.col = byteLength inside := by omega
    have split : splitAtByte span.start.col (left ++ (inside ++ right)) = some (left, inside ++ right) := by
      rw [← width, splitAtByte_append]
    simp [markedLine, split, same, inner, splitAtByte_append, show span.start.col ≤ span.stop.col by omega]
  · obtain ⟨left, right, found', width⟩ := h.exists_first_line
    obtain rfl : line = left ++ right := Option.some.inj (found.symm.trans found')
    simp [markedLine, ← width, splitAtByte_append, same]

theorem isSome_mapM {α β : Type} {f : α → Option β} {xs : List α} (h : ∀ x ∈ xs, (f x).isSome) :
    (xs.mapM f).isSome := by
  induction xs with
  | nil => simp
  | cons x xs ih =>
    obtain ⟨y, found⟩ := Option.isSome_iff_exists.1 (h x (by simp))
    obtain ⟨ys, more⟩ := Option.isSome_iff_exists.1 (ih fun x mem => h x (by simp [mem]))
    simp [found, more]

/-- A message can be shown under every span that covers characters of the source. -/
theorem Covers.isSome_excerpt {source : String} (h : span.Covers source.toList i k) (hl : Highlight)
    (message : String) : (span.excerpt hl source message).isSome := by
  obtain ⟨left, right, found, -⟩ := h.exists_first_line
  obtain ⟨col, ordered, below⟩ := h.exists_last_line
  have before : (lineBefore (lines source.toList) span).isSome := by
    unfold lineBefore
    split
    · rfl
    · next n line => simpa using (by omega : n < (lines source.toList).length)
  have inside : (linesBelow (lines source.toList) span).isSome := by
    refine isSome_mapM fun n mem => ?_
    have := List.mem_range.1 mem
    simpa using (by omega : span.start.line + 1 + n < (lines source.toList).length)
  obtain ⟨shown, marked⟩ := Option.isSome_iff_exists.1 (h.isSome_markedLine hl found)
  obtain ⟨_, before⟩ := Option.isSome_iff_exists.1 before
  obtain ⟨_, inside⟩ := Option.isSome_iff_exists.1 inside
  simp [excerpt, before, found, marked, inside, col]

/-! ## Spans one behind the other -/

/-- The span covers characters from the `i`-th on and in front of the `j`-th. -/
def LiesIn (text : List Char) (i : Nat) (span : Span) (j : Nat) : Prop :=
  ∃ a b, i ≤ a ∧ b < j ∧ span.Covers text a b

theorem LiesIn.lt (h : span.LiesIn text i j) : i < j := by
  obtain ⟨a, b, first, last, covers⟩ := h
  have := covers.le
  omega

theorem LiesIn.mono (h : span.LiesIn text i j) (le : k ≤ i) (le' : j ≤ l) : span.LiesIn text k l := by
  obtain ⟨a, b, first, last, covers⟩ := h
  exact ⟨a, b, by omega, by omega, covers⟩

/-- From the first character of one span to the last character of another behind it. -/
theorem LiesIn.merge (h : span.LiesIn text i k) (h' : other.LiesIn text l j) (le : k ≤ l) :
    (span.merge other).LiesIn text i j := by
  obtain ⟨a, b, first, last, covers⟩ := h
  obtain ⟨a', b', first', last', covers'⟩ := h'
  have ordered : a ≤ b' := by
    have := covers.le
    have := covers'.le
    omega
  exact ⟨a, b', first, last', covers.start_eq, covers'.stop_eq, ordered, covers.first, covers'.last⟩

end Span

end Monolet
