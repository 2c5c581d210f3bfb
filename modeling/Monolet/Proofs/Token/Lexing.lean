import Mathlib
import Monolet.Token.Lexer
import Monolet.Text.Quoted

/-!
# Lexing

Spans aside, reading tokens is a relation between a text and its lexemes: blanks are skipped and otherwise the next
lexeme is taken (`Lexes`). A lexeme that is written as it should be is taken back from its text, provided that what
follows does not go on with it (`next?_name`, `next?_keyword`, `next?_integer`, `next?_encode`). For a string that is a
pattern of pieces between quotes (`stringPattern`). In the other direction, a name that was read is written as a name
should be (`Lexes.isName`).
-/

namespace Monolet

open scoped Computability

namespace Quoted

/-! ## Quoted text -/

/-- A character is written as itself, or as a backslash and a letter that stands for it. -/
theorem escapeChar_cases (c : Char) :
    (escapeChar c = [c] ∧ c ≠ '"' ∧ c ≠ '\\') ∨ ∃ d, escapeChar c = ['\\', d] ∧ d ≠ '\n' ∧ unescapeChar d = c := by
  unfold escapeChar
  split
  · exact .inr ⟨'"', rfl, by decide, rfl⟩
  · exact .inr ⟨'\\', rfl, by decide, rfl⟩
  · exact .inr ⟨'n', rfl, by decide, rfl⟩
  · exact .inr ⟨'t', rfl, by decide, rfl⟩
  · exact .inl ⟨rfl, ‹_›, ‹_›⟩

theorem resolve_escapeChar (c : Char) (cs : List Char) : resolve (escapeChar c ++ cs) = c :: resolve cs := by
  obtain ⟨eq, -, plain⟩ | ⟨d, eq, -, rfl⟩ := escapeChar_cases c
  · rw [eq]
    simp [resolve, plain]
  · rw [eq]
    rfl

theorem resolve_flatMap_escapeChar (cs : List Char) : resolve (cs.flatMap escapeChar) = cs := by
  induction cs with
  | nil => rfl
  | cons c cs ih => rw [List.flatMap_cons, resolve_escapeChar, ih]

/-- What is written between quotes is read back. -/
theorem decode_encode (text : String) : decode (encode text) = text := by
  have inside : unwrap (encode text).toList = text.toList.flatMap escapeChar := by
    simp [encode, unwrap]
  rw [decode, inside, resolve_flatMap_escapeChar, String.ofList_toList]

end Quoted

namespace Lexeme

/-- What stands for one character between quotes: a character that is neither a quote nor a backslash, or a backslash and
a character that is no line feed. -/
def piece : Language Char := {w | (∃ c, w = [c] ∧ c ≠ '"' ∧ c ≠ '\\') ∨ ∃ c, w = ['\\', c] ∧ c ≠ '\n'}

/-- The pattern of a string: pieces between two quotes. -/
def stringPattern : Language Char := {['"']} * piece∗ * {['"']}

theorem stringTail_piece {w : List Char} (h : w ∈ piece) (cs : List Char) :
    stringTail (w ++ cs) = (stringTail cs).map fun (tail, rest) => (w ++ tail, rest) := by
  obtain ⟨c, rfl, notQuote, plain⟩ | ⟨c, rfl, notFeed⟩ := h
  · simp [stringTail, plain]
  · simp [stringTail, notFeed]

/-- The first quote behind a row of pieces ends the string. -/
theorem stringTail_pieces {w : List Char} (h : w ∈ piece∗) (rest : List Char) :
    stringTail (w ++ '"' :: rest) = some (w ++ ['"'], rest) := by
  obtain ⟨row, rfl, pieces⟩ := Language.mem_kstar.1 h
  clear h
  induction row with
  | nil => simp [stringTail]
  | cons w row ih =>
    obtain ⟨first, more⟩ := List.forall_mem_cons.1 pieces
    simp [stringTail_piece first, ih more]

/-- Whatever fits the pattern is taken as a string. -/
theorem next?_of_mem_stringPattern {w : List Char} (h : w ∈ stringPattern) (rest : List Char) :
    next? (w ++ rest) = some (string (String.ofList w), rest) := by
  obtain ⟨_, ⟨_, rfl, inside, pieces, rfl⟩, _, rfl, rfl⟩ := h
  simp [next?, stringTail_pieces pieces]

theorem escapeChar_mem_piece (c : Char) : Quoted.escapeChar c ∈ piece := by
  obtain ⟨eq, notQuote, plain⟩ | ⟨d, eq, notFeed, -⟩ := Quoted.escapeChar_cases c
  · exact .inl ⟨c, eq, notQuote, plain⟩
  · exact .inr ⟨d, eq, notFeed⟩

theorem encode_mem_stringPattern (text : String) : (Quoted.encode text).toList ∈ stringPattern := by
  have pieces : text.toList.flatMap Quoted.escapeChar ∈ piece∗ :=
    Language.join_mem_kstar (List.forall_mem_map.2 fun c _ => escapeChar_mem_piece c)
  rw [Quoted.encode, String.toList_ofList]
  exact ⟨_, ⟨_, rfl, _, pieces, rfl⟩, _, rfl, rfl⟩

theorem next?_encode (text : String) (rest : List Char) :
    next? ((Quoted.encode text).toList ++ rest) = some (string (Quoted.encode text), rest) := by
  rw [next?_of_mem_stringPattern (encode_mem_stringPattern text), String.ofList_toList]

/-! ## Words and numbers -/

/-- The text does not go on with a name or a number. -/
def Breaks (rest : List Char) : Prop := ∀ c ∈ rest.head?, isNameRest c = false

theorem breaks_nil : Breaks [] := by simp [Breaks]

theorem breaks_cons {c : Char} (h : isNameRest c = false) (cs : List Char) : Breaks (c :: cs) := by
  simpa [Breaks] using h

theorem takeWhile_append_breaks {p : Char → Bool} {cs rest : List Char} (all : ∀ c ∈ cs, p c = true)
    (stop : ∀ c ∈ rest.head?, p c = false) :
    (cs ++ rest).takeWhile p = cs ∧ (cs ++ rest).dropWhile p = rest := by
  rw [List.takeWhile_append_of_pos all, List.dropWhile_append_of_pos all]
  cases rest with
  | nil => simp
  | cons c rest => simp [stop c rfl]

/-- What a name may go on with is no sign. -/
theorem next?_of_isNameRest {c : Char} (h : isNameRest c = true) (cs : List Char) :
    next? (c :: cs) =
      if isIdentStart c then
        some (ofWord (String.ofList (c :: cs.takeWhile isNameRest)), cs.dropWhile isNameRest)
      else if c.isUpper then
        some (typeName (String.ofList (c :: cs.takeWhile isNameRest)), cs.dropWhile isNameRest)
      else if c.isDigit then
        some (integer (String.ofList (c :: cs.takeWhile Char.isDigit)), cs.dropWhile Char.isDigit)
      else none := by
  rw [next?]
  all_goals
    intros
    subst_vars
    revert h
    decide

theorem isNameRest_of_isIdentStart {c : Char} (h : isIdentStart c = true) : isNameRest c = true := by
  simp only [isIdentStart, isNameRest, Char.isAlphanum, Char.isAlpha] at *
  grind

theorem isNameRest_of_isUpper {c : Char} (h : c.isUpper = true) : isNameRest c = true := by
  simp [isNameRest, Char.isAlphanum, Char.isAlpha, h]

theorem isNameRest_of_isDigit {c : Char} (h : c.isDigit = true) : isNameRest c = true := by
  simp [isNameRest, Char.isAlphanum, h]

theorem not_isIdentStart_of_isDigit {c : Char} (h : c.isDigit = true) : isIdentStart c = false ∧ c.isUpper = false := by
  have notScore : c ≠ '_' := by
    rintro rfl
    revert h
    decide
  simp only [isIdentStart, Char.isDigit, Char.isLower, Char.isUpper] at *
  grind

theorem next?_word {c : Char} {cs rest : List Char} (start : isIdentStart c = true)
    (more : ∀ d ∈ cs, isNameRest d = true) (breaks : Breaks rest) :
    next? (c :: cs ++ rest) = some (ofWord (String.ofList (c :: cs)), rest) := by
  obtain ⟨taken, left⟩ := takeWhile_append_breaks more breaks
  rw [List.cons_append, next?_of_isNameRest (isNameRest_of_isIdentStart start), if_pos start, taken, left]

theorem next?_typeName {c : Char} {cs rest : List Char} (upper : c.isUpper = true)
    (more : ∀ d ∈ cs, isNameRest d = true) (breaks : Breaks rest) :
    next? (c :: cs ++ rest) = some (typeName (String.ofList (c :: cs)), rest) := by
  obtain ⟨taken, left⟩ := takeWhile_append_breaks more breaks
  have notStart : isIdentStart c = false := by
    have notScore : c ≠ '_' := by
      rintro rfl
      revert upper
      decide
    simp only [isIdentStart, Char.isUpper, Char.isLower] at *
    grind
  rw [List.cons_append, next?_of_isNameRest (isNameRest_of_isUpper upper), taken, left]
  simp [notStart, upper]

theorem next?_integer {digits : String} {n : Nat} {rest : List Char} (h : Decimal.read? digits.toList = some n)
    (breaks : Breaks rest) : next? (digits.toList ++ rest) = some (integer digits, rest) := by
  obtain ⟨written, -⟩ := (Option.ite_none_right_eq_some ..).1 h
  obtain ⟨c, cs, eq⟩ := List.exists_cons_of_ne_nil written.1
  rw [eq] at written
  obtain ⟨first, more⟩ := List.forall_mem_cons.1 (List.all_eq_true.1 written.2)
  have stop (d : Char) (hd : d ∈ rest.head?) : d.isDigit = false := by
    cases isDigit : d.isDigit with
    | false => rfl
    | true =>
      rw [← breaks d hd]
      exact (isNameRest_of_isDigit isDigit).symm
  obtain ⟨taken, left⟩ := takeWhile_append_breaks more stop
  obtain ⟨notStart, notUpper⟩ := not_isIdentStart_of_isDigit first
  have text : String.ofList (c :: cs) = digits := by rw [← eq, String.ofList_toList]
  rw [eq, List.cons_append, next?_of_isNameRest (isNameRest_of_isDigit first), taken, left, text]
  simp [notStart, notUpper, first]

/-! ## Names -/

/-- A name starts with a lower-case letter or an underscore, goes on with letters, digits, underscores and primes, and
is no reserved word. -/
def IsName (name : String) : Prop :=
  (∃ c cs, name = String.ofList (c :: cs) ∧ ('a' ≤ c ∧ c ≤ 'z' ∨ c = '_') ∧
    ∀ d ∈ cs, 'a' ≤ d ∧ d ≤ 'z' ∨ 'A' ≤ d ∧ d ≤ 'Z' ∨ '0' ≤ d ∧ d ≤ '9' ∨ d = '_' ∨ d = '\'') ∧
  ∀ word : Keyword, name ≠ word.text

theorem isIdentStart_iff {c : Char} : isIdentStart c = true ↔ 'a' ≤ c ∧ c ≤ 'z' ∨ c = '_' := by
  simp [isIdentStart, Char.isLower, Char.le_def]

theorem isNameRest_iff {c : Char} :
    isNameRest c = true ↔ 'a' ≤ c ∧ c ≤ 'z' ∨ 'A' ≤ c ∧ c ≤ 'Z' ∨ '0' ≤ c ∧ c ≤ '9' ∨ c = '_' ∨ c = '\'' := by
  simp only [isNameRest, Char.isAlphanum, Char.isAlpha, Char.isLower, Char.isUpper, Char.isDigit, Char.le_def,
    Bool.or_eq_true, Bool.and_eq_true, decide_eq_true_eq, ge_iff_le]
  grind

theorem ofWord_text (word : Keyword) : ofWord word.text = keyword word := by
  cases word <;> decide

theorem ofWord_of_ne {name : String} (h : ∀ word : Keyword, name ≠ word.text) : ofWord name = ident name := by
  have none : Keyword.ofText? name = none := by
    refine List.find?_eq_none.2 fun word _ => ?_
    simpa using (h word).symm
  rw [ofWord, none]

theorem eq_of_ofWord_eq_ident {text name : String} (h : ofWord text = ident name) :
    name = text ∧ ∀ word : Keyword, name ≠ word.text := by
  by_cases reserved : ∃ word : Keyword, text = word.text
  · obtain ⟨word, rfl⟩ := reserved
    rw [ofWord_text] at h
    cases h
  · have none (word : Keyword) : text ≠ word.text := fun eq => reserved ⟨word, eq⟩
    rw [ofWord_of_ne none] at h
    cases h
    exact ⟨rfl, none⟩

theorem next?_name {name : String} {rest : List Char} (h : IsName name) (breaks : Breaks rest) :
    next? (name.toList ++ rest) = some (ident name, rest) := by
  obtain ⟨⟨c, cs, rfl, start, more⟩, notWord⟩ := h
  rw [String.toList_ofList, next?_word (isIdentStart_iff.2 start) (fun d hd => isNameRest_iff.2 (more d hd)) breaks,
    ofWord_of_ne notWord]

theorem next?_keyword (word : Keyword) {rest : List Char} (breaks : Breaks rest) :
    next? (word.text.toList ++ rest) = some (keyword word, rest) := by
  obtain ⟨c, cs, eq, start, more⟩ :
      ∃ c cs, word.text = String.ofList (c :: cs) ∧ isIdentStart c = true ∧ cs.all isNameRest = true := by
    cases word <;> exact ⟨_, _, rfl, by decide, by decide⟩
  rw [← ofWord_text word, eq, String.toList_ofList, next?_word start (List.all_eq_true.1 more) breaks]

/-- A name that is taken is a name. -/
theorem isName_of_next? {cs rest : List Char} {name : String} (h : next? cs = some (ident name, rest)) :
    IsName name := by
  fun_cases next? cs
  case case8 c cs _ _ _ _ _ _ start =>
    rw [next?_of_isNameRest (isNameRest_of_isIdentStart start), if_pos start] at h
    obtain ⟨word, -⟩ := Prod.mk.inj (Option.some.inj h)
    obtain ⟨rfl, notWord⟩ := eq_of_ofWord_eq_ident word
    have more : ∀ d ∈ cs.takeWhile isNameRest, isNameRest d = true := List.all_eq_true.1 List.all_takeWhile
    exact ⟨⟨c, _, rfl, isIdentStart_iff.1 start, fun d hd => isNameRest_iff.1 (more d hd)⟩, notWord⟩
  -- No other lexeme is a name.
  all_goals simp_all [next?]

/-! ## Tokens -/

/-- The lexemes of a text. -/
inductive Lexes : List Char → List Lexeme → Prop where
  | nil : Lexes [] []
  | blank {c : Char} {cs : List Char} {ls : List Lexeme} (h : isBlank c = true) (more : Lexes cs ls) :
      Lexes (c :: cs) ls
  | next {cs rest : List Char} {l : Lexeme} {ls : List Lexeme} (taken : next? cs = some (l, rest))
      (more : Lexes rest ls) : Lexes cs (l :: ls)

theorem not_isBlank_of_next? {c : Char} {cs : List Char} {x : Lexeme × List Char} (h : next? (c :: cs) = some x) :
    isBlank c = false := by
  cases blank : isBlank c with
  | false => rfl
  | true =>
    simp only [isBlank, Bool.or_eq_true, decide_eq_true_eq] at blank
    obtain (((rfl | rfl) | rfl) | rfl) | rfl := blank <;> cases h

theorem Lexes.isName {cs : List Char} {ls : List Lexeme} (h : Lexes cs ls) {name : String} (mem : ident name ∈ ls) :
    IsName name := by
  induction h with
  | nil => cases mem
  | blank _ _ ih => exact ih mem
  | next taken _ ih =>
    cases mem with
    | head => exact isName_of_next? taken
    | tail _ later => exact ih later

end Lexeme

namespace Token

open Lexeme

theorem readAll_blank {source : String} {here : Cursor} {c : Char} (h : isBlank c = true) (cs : List Char) :
    readAll source here (c :: cs) = readAll source (here.skip c) cs := by
  rw [readAll, if_pos h]

/-- Where reading stands after a lexeme. -/
def afterLexeme (here : Cursor) (l : Lexeme) : Cursor := here.advance (Text.byteLength l.text.toList)

theorem readAll_next {source : String} {here : Cursor} {cs rest : List Char} {l : Lexeme}
    (h : next? cs = some (l, rest)) :
    readAll source here cs =
      (readAll source (afterLexeme here l) rest).map (⟨l, ⟨here.pos, (afterLexeme here l).pos⟩⟩ :: ·) := by
  cases cs with
  | nil => cases h
  | cons c cs =>
    rw [readAll, if_neg (by simp [not_isBlank_of_next? h])]
    split
    next none =>
      rw [h] at none
      cases none
    next lexeme after taken =>
      rw [h] at taken
      cases taken
      rfl

theorem exists_readAll_iff {source : String} {here : Cursor} {cs : List Char} {ls : List Lexeme} :
    (∃ ts, readAll source here cs = .ok ts ∧ ts.map (·.lexeme) = ls) ↔ Lexes cs ls := by
  constructor
  · rintro ⟨ts, read, rfl⟩
    fun_induction readAll source here cs generalizing ts with
    | case1 =>
      cases read
      exact .nil
    | case2 here c after blank ih => exact .blank blank (ih ts read)
    | case3 => cases read
    | case4 here c after _ l rest taken there ih =>
      cases later : readAll source there rest with
      | error e =>
        rw [later] at read
        cases read
      | ok us =>
        rw [later] at read
        cases read
        exact .next taken (ih us later)
  · intro h
    induction h generalizing here with
    | nil => exact ⟨[], by rw [readAll], rfl⟩
    | blank blank _ ih =>
      rw [readAll_blank blank]
      exact ih
    | next taken _ ih =>
      obtain ⟨ts, read, rfl⟩ := ih
      rw [readAll_next taken, read]
      exact ⟨_, rfl, rfl⟩

theorem exists_lex_iff {source : String} {ls : List Lexeme} :
    (∃ ts, lex source = .ok ts ∧ ts.map (·.lexeme) = ls) ↔ Lexes source.toList ls := exists_readAll_iff

end Token

end Monolet
