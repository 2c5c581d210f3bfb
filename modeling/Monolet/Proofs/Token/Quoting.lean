import Mathlib
import Monolet.Proofs.Token.Lexing

/-!
# Quoted text is one token

Three things have to fit together: how a text is quoted, which pattern a string token has, and how the escapes of the token
are resolved. Quoting writes pieces of the pattern only, so the quote behind them is the first that can end the string. The
scan for a string takes exactly what fits the pattern (`next?_eq_string_iff`), and as it takes one thing, no text has
two beginnings that fit.
-/

namespace Monolet

open scoped Computability

namespace Lexeme

variable {cs tail rest v w : List Char}

theorem append_mem_pieces (first : v ∈ piece) (more : w ∈ piece∗) : v ++ w ∈ piece∗ :=
  have le : piece * piece∗ ≤ piece∗ := mul_kstar_le_kstar
  le (Language.append_mem_mul first more)

/-- The scan for the end of a string goes over pieces, up to a quote. -/
theorem pieces_of_stringTail (h : stringTail cs = some (tail, rest)) :
    ∃ w ∈ piece∗, tail = w ++ ['"'] ∧ cs = tail ++ rest := by
  fun_induction stringTail cs generalizing tail with
  | case1 | case3 | case4 => simp at h
  | case2 cs =>
    cases h
    exact ⟨[], Language.nil_mem_kstar _, rfl, rfl⟩
  | case5 c cs notFeed ih =>
    obtain ⟨⟨t, r⟩, scanned, eq⟩ := Option.map_eq_some_iff.1 h
    cases eq
    obtain ⟨w, pieces, rfl, rfl⟩ := ih scanned
    have escaped : ['\\', c] ∈ piece := .inr ⟨c, rfl, notFeed⟩
    exact ⟨_, append_mem_pieces escaped pieces, rfl, rfl⟩
  | case6 c cs notQuote notLast notBefore ih =>
    have plain : c ≠ '\\' := by
      cases cs with
      | nil => exact fun eq => notLast eq rfl
      | cons d cs => exact fun eq => notBefore d cs eq rfl
    obtain ⟨⟨t, r⟩, scanned, eq⟩ := Option.map_eq_some_iff.1 h
    cases eq
    obtain ⟨w, pieces, rfl, rfl⟩ := ih scanned
    have itself : [c] ∈ piece := .inl ⟨c, rfl, notQuote, plain⟩
    exact ⟨_, append_mem_pieces itself pieces, rfl, rfl⟩

theorem ofWord_ne_string (word written : String) : ofWord word ≠ string written := by
  rw [ofWord]
  split <;> simp

/-- A string is taken exactly when the text starts with something that fits the pattern. -/
theorem next?_eq_string_iff {written : String} :
    next? cs = some (string written, rest) ↔ written.toList ∈ stringPattern ∧ cs = written.toList ++ rest := by
  constructor
  · intro h
    fun_cases next? cs
    case case7 cs =>
      obtain ⟨⟨tail, _⟩, scanned, eq⟩ := Option.map_eq_some_iff.1 h
      cases eq
      obtain ⟨w, pieces, rfl, rfl⟩ := pieces_of_stringTail scanned
      rw [String.toList_ofList]
      exact ⟨⟨_, ⟨_, rfl, w, pieces, rfl⟩, _, rfl, rfl⟩, rfl⟩
    -- No other lexeme is a string.
    all_goals simp_all [next?, ofWord_ne_string]
  · rintro ⟨fits, rfl⟩
    rw [next?_of_mem_stringPattern fits, String.ofList_toList]

/-- Of the beginnings of a text that fits the pattern, none but the whole text fits it. -/
theorem eq_nil_of_mem_stringPattern (h : w ++ rest ∈ stringPattern) (fits : w ∈ stringPattern) : rest = [] := by
  have whole := next?_of_mem_stringPattern h []
  rw [List.append_nil, next?_of_mem_stringPattern fits] at whole
  exact (Prod.mk.inj (Option.some.inj whole)).2

end Lexeme

/-- A text of one lexeme is read into one token. -/
theorem Token.lex_of_next? {source : String} {l : Lexeme} (h : Lexeme.next? source.toList = some (l, [])) :
    lex source = .ok [⟨l, ⟨⟨0, 0⟩, ⟨0, Text.byteLength l.text.toList⟩⟩⟩] := by
  rw [lex, readAll_next h, readAll]
  simp [afterLexeme, Cursor.advance, Except.map]

namespace Quoted

/-- **Quoted text.** A quoted text is read into one token, which is a string, is written like the whole quoted text and
reaches from its start to its end. A beginning of the quoted text is taken as a string exactly if it fits the pattern of
strings, and it does so only if it is all of the quoted text. Resolving the escapes of the token gives the text back. -/
theorem lex_encode (text : String) :
    Token.lex (encode text) =
        .ok [⟨.string (encode text), ⟨⟨0, 0⟩, ⟨0, Text.byteLength (encode text).toList⟩⟩⟩] ∧
      (∀ w rest, w ++ rest = (encode text).toList →
        (Lexeme.next? (encode text).toList = some (.string (String.ofList w), rest) ↔ w ∈ Lexeme.stringPattern) ∧
          (w ∈ Lexeme.stringPattern ↔ rest = [])) ∧
      decode (encode text) = text := by
  have fits := Lexeme.encode_mem_stringPattern text
  refine ⟨?_, fun w rest split => ⟨?_, fun beginning => ?_, ?_⟩, decode_encode text⟩
  · have taken := Lexeme.next?_encode text []
    rw [List.append_nil] at taken
    exact Token.lex_of_next? taken
  · rw [Lexeme.next?_eq_string_iff, String.toList_ofList]
    exact and_iff_left split.symm
  · exact Lexeme.eq_nil_of_mem_stringPattern (split ▸ fits) beginning
  · rintro rfl
    rwa [← split, List.append_nil] at fits

/-- A text that ends in a backslash behind a quote. -/
example : encode "a\"\\" = "\"a\\\"\\\\\"" := by decide

end Quoted

end Monolet
