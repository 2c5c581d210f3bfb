import Monolet.Proofs.Span.Covering
import Monolet.Proofs.Token.Lexing

/-!
# Where tokens stand

The text of a lexeme is what reading takes for it (`Lexeme.written_of_next?`), and its outer characters are solid. As
long as no string goes over a line end, the cursor is where the text read so far ends. So the span of each token covers
its characters in the source, and the tokens come one after the other (`Token.Placed`, `Token.placed_of_lex`).
-/

namespace Monolet

open Text (Solid endPos)

namespace Lexeme

theorem text_ofWord (word : String) : (ofWord word).text = word := by
  by_cases reserved : ∃ k : Keyword, word = k.text
  · obtain ⟨k, rfl⟩ := reserved
    rw [ofWord_text]
    rfl
  · rw [ofWord_of_ne fun k eq => reserved ⟨k, eq⟩]
    rfl

/-- The rest of a string is taken up to a quote. -/
theorem stringTail_eq {cs tail rest : List Char} (h : stringTail cs = some (tail, rest)) :
    cs = tail ++ rest ∧ ∃ inside, tail = inside ++ ['"'] := by
  fun_induction stringTail cs generalizing tail with
  | case1 | case3 | case4 => cases h
  | case2 cs =>
    cases h
    exact ⟨rfl, [], rfl⟩
  | case5 c cs _ ih =>
    obtain ⟨⟨t, r⟩, found, eq⟩ := Option.map_eq_some_iff.1 h
    cases eq
    obtain ⟨rfl, inside, rfl⟩ := ih found
    exact ⟨rfl, '\\' :: c :: inside, rfl⟩
  | case6 c cs _ _ _ ih =>
    obtain ⟨⟨t, r⟩, found, eq⟩ := Option.map_eq_some_iff.1 h
    cases eq
    obtain ⟨rfl, inside, rfl⟩ := ih found
    exact ⟨rfl, c :: inside, rfl⟩

theorem solid_of_isNameRest {c : Char} (h : isNameRest c = true) : Solid c := by
  constructor
  all_goals
    rintro rfl
    revert h
    decide

/-- A lexeme is written either in solid characters only, or as a string between its quotes. -/
def Written (l : Lexeme) : Prop :=
  (l.text.toList ≠ [] ∧ ∀ c ∈ l.text.toList, Solid c) ∨ ∃ inside, l = .string (String.ofList ('"' :: (inside ++ ['"'])))

/-- A word is taken with its first character and the ones that go on with it. -/
theorem written_word {p : Char → Bool} {c : Char} {cs : List Char} {l : Lexeme} (first : isNameRest c = true)
    (more : ∀ d, p d = true → isNameRest d = true) (text : l.text = String.ofList (c :: cs.takeWhile p)) :
    c :: cs = l.text.toList ++ cs.dropWhile p ∧ l.Written := by
  rw [Written, text, String.toList_ofList]
  refine ⟨by simp [List.takeWhile_append_dropWhile], .inl ⟨by simp, fun d mem => solid_of_isNameRest ?_⟩⟩
  obtain rfl | mem := List.mem_cons.1 mem
  · exact first
  · exact more d (List.all_eq_true.1 List.all_takeWhile d mem)

/-- What reading takes for a lexeme is the text of the lexeme. -/
theorem written_of_next? {cs rest : List Char} {l : Lexeme} (h : next? cs = some (l, rest)) :
    cs = l.text.toList ++ rest ∧ l.Written := by
  fun_cases next? cs
  case case7 cs =>
    obtain ⟨⟨tail, r⟩, found, eq⟩ := Option.map_eq_some_iff.1 h
    cases eq
    obtain ⟨rfl, inside, rfl⟩ := stringTail_eq found
    exact ⟨by simp [text], .inr ⟨inside, rfl⟩⟩
  case case8 c cs _ _ _ _ _ _ start =>
    rw [next?_of_isNameRest (isNameRest_of_isIdentStart start), if_pos start] at h
    cases h
    exact written_word (isNameRest_of_isIdentStart start) (fun _ => id) (text_ofWord _)
  case case9 c cs _ _ _ _ _ _ start upper =>
    rw [next?_of_isNameRest (isNameRest_of_isUpper upper), if_neg start, if_pos upper] at h
    cases h
    exact written_word (isNameRest_of_isUpper upper) (fun _ => id) rfl
  case case10 c cs _ _ _ _ _ _ start upper digit =>
    rw [next?_of_isNameRest (isNameRest_of_isDigit digit), if_neg start, if_neg upper, if_pos digit] at h
    cases h
    exact written_word (isNameRest_of_isDigit digit) (fun _ => isNameRest_of_isDigit) rfl
  case case11 => simp_all [next?]
  case case1 => cases h
  -- What is left are the signs.
  all_goals
    cases h
    exact ⟨rfl, .inl (by simp [text, Solid])⟩

/-- The first and the last character of a lexeme are solid. -/
theorem Written.solid_outer {l : Lexeme} (h : l.Written) :
    (∃ c, l.text.toList.head? = some c ∧ Solid c) ∧ ∃ d, l.text.toList.getLast? = some d ∧ Solid d := by
  obtain ⟨ne, solid⟩ | ⟨inside, rfl⟩ := h
  · exact ⟨⟨_, List.head?_eq_some_head ne, solid _ (List.head_mem ne)⟩,
      ⟨_, List.getLast?_eq_some_getLast ne, solid _ (List.getLast_mem ne)⟩⟩
  · have quote : Solid '"' := by simp [Solid]
    exact ⟨⟨'"', by simp [text], quote⟩, ⟨'"', by simp [text, List.getLast?_cons], quote⟩⟩

/-- The lexeme is no string that goes over a line end. -/
def OnOneLine (l : Lexeme) : Prop := ∀ written, l = .string written → '\n' ∉ written.toList

theorem Written.no_feed {l : Lexeme} (h : l.Written) (oneLine : l.OnOneLine) : '\n' ∉ l.text.toList := by
  obtain ⟨-, solid⟩ | ⟨inside, rfl⟩ := h
  · exact fun mem => (solid _ mem).1 rfl
  · exact oneLine _ rfl

end Lexeme

/-- Things stand one after the other, from place `i` on and up to place `j`. -/
inductive InRow {α : Type} (Stands : Nat → α → Nat → Prop) : Nat → List α → Nat → Prop where
  | nil {i j : Nat} (le : i ≤ j) : InRow Stands i [] j
  | cons {i m j : Nat} {x : α} {xs : List α} (first : Stands i x m) (more : InRow Stands m xs j) :
      InRow Stands i (x :: xs) j

theorem InRow.of_cons {α : Type} {Stands : Nat → α → Nat → Prop} {i j : Nat} {x : α} {xs : List α}
    (h : InRow Stands i (x :: xs) j) : ∃ m, Stands i x m ∧ InRow Stands m xs j := by
  cases h with
  | cons first more => exact ⟨_, first, more⟩

/-- A row is one part behind the other. -/
theorem InRow.of_append {α : Type} {Stands : Nat → α → Nat → Prop} {i j : Nat} {xs ys : List α}
    (h : InRow Stands i (xs ++ ys) j) : ∃ m, InRow Stands i xs m ∧ InRow Stands m ys j := by
  induction xs generalizing i with
  | nil => exact ⟨i, .nil le_rfl, h⟩
  | cons x xs ih =>
    obtain ⟨_, first, more⟩ := h.of_cons
    obtain ⟨m, front, back⟩ := ih more
    exact ⟨m, .cons first front, back⟩

namespace Token

open Lexeme

/-- The tokens stand in the text one after the other, from the `i`-th character on and in front of the `j`-th. -/
def Placed (text : List Char) : Nat → List Token → Nat → Prop :=
  InRow fun i token j => token.span.LiesIn text i j

namespace Placed

variable {text : List Char} {i j k l : Nat} {token : Token} {ts us : List Token}

theorem mono (h : Placed text i ts j) (le : k ≤ i) (le' : j ≤ l) : Placed text k ts l := by
  induction h generalizing k with
  | nil h => exact .nil (by omega)
  | cons first _ ih => exact .cons (first.mono le le_rfl) (ih le_rfl le')

theorem le (h : Placed text i ts j) : i ≤ j := by
  induction h with
  | nil h => exact h
  | cons first _ ih => exact first.lt.le.trans ih

theorem of_cons (h : Placed text i (token :: ts) j) : ∃ m, token.span.LiesIn text i m ∧ Placed text m ts j :=
  InRow.of_cons h

theorem of_append (h : Placed text i (ts ++ us) j) : ∃ m, Placed text i ts m ∧ Placed text m us j :=
  InRow.of_append h

theorem tail (h : Placed text i (token :: ts) j) : Placed text i ts j := by
  obtain ⟨m, first, more⟩ := h.of_cons
  exact more.mono first.lt.le le_rfl

theorem append_left (h : Placed text i (ts ++ us) j) : Placed text i ts j := by
  obtain ⟨m, front, back⟩ := h.of_append
  exact front.mono le_rfl back.le

theorem append_right (h : Placed text i (ts ++ us) j) : Placed text i us j := by
  obtain ⟨m, front, back⟩ := h.of_append
  exact back.mono front.le le_rfl

theorem liesIn (h : Placed text i ts j) (mem : token ∈ ts) : token.span.LiesIn text i j := by
  obtain ⟨front, back, rfl⟩ := List.append_of_mem mem
  obtain ⟨m, first, more⟩ := h.append_right.of_cons
  exact first.mono le_rfl more.le

end Placed

/-- After a blank the cursor is where the text up to it ends. -/
theorem skip_pos {here : Cursor} {front : List Char} {c : Char} (pos : here.pos = endPos front)
    (blank : isBlank c = true) : (here.skip c).pos = endPos (front ++ [c]) := by
  by_cases feed : c = '\n'
  · simp [Cursor.skip, feed, pos, Text.endPos_append_feed]
  · have width : c.utf8Size = 1 := by
      simp only [isBlank, Bool.or_eq_true, decide_eq_true_eq] at blank
      obtain (((rfl | rfl) | rfl) | rfl) | rfl := blank <;> decide
    rw [Text.endPos_append_of_no_feed _ (by simpa using Ne.symm feed)]
    simp [Cursor.skip, feed, pos, width]

theorem placed_of_readAll {source : String} {here : Cursor} {front cs : List Char} {ts : List Token}
    (read : readAll source here cs = .ok ts) (pos : here.pos = endPos front)
    (oneLine : ∀ token ∈ ts, token.lexeme.OnOneLine) :
    Placed (front ++ cs) front.length ts (front ++ cs).length := by
  fun_induction readAll source here cs generalizing front ts
  case case1 =>
    cases read
    exact .nil (by simp)
  case case2 here c after blank ih =>
    have placed := ih read (skip_pos pos blank) oneLine
    rw [List.append_assoc] at placed
    exact placed.mono (by simp) le_rfl
  case case3 => cases read
  case case4 here c after _ l rest taken there ih =>
    cases later : readAll source there rest with
    | error e =>
      rw [later] at read
      cases read
    | ok us =>
      rw [later] at read
      cases read
      obtain ⟨first, others⟩ := List.forall_mem_cons.1 oneLine
      obtain ⟨eq, written⟩ := written_of_next? taken
      obtain ⟨head, last⟩ := written.solid_outer
      have pos' : there.pos = endPos (front ++ l.text.toList) := by
        rw [Text.endPos_append_of_no_feed _ (written.no_feed first), ← pos]
        rfl
      have placed := ih later pos' others
      rw [List.append_assoc, ← eq, List.length_append] at placed
      rw [eq] at placed ⊢
      have nonempty : l.text.toList.length ≠ 0 := by
        intro empty
        rw [List.length_eq_zero_iff.1 empty] at head
        simp at head
      refine .cons ⟨_, _, le_rfl, ?_, Span.covers_of_append rest pos pos' head last⟩ placed
      omega

/-- The tokens of a source text without strings over several lines. -/
theorem placed_of_lex {source : String} {ts : List Token} (read : lex source = .ok ts)
    (oneLine : ∀ token ∈ ts, token.lexeme.OnOneLine) : Placed source.toList 0 ts source.toList.length := by
  have start : ({} : Cursor).pos = endPos [] := rfl
  exact placed_of_readAll read start oneLine

end Token

end Monolet
