import Monolet.Proofs.Token.Lexing
import Monolet.Proofs.Ty.Recognition
import Monolet.Ty.Printer

/-!
# Printing and parsing types

The printed form of a type is lexed into the lexemes of its grammar (`lexes_print`): a function type to the left of an arrow
stands in brackets, and an unknown is the name `u` with its number behind. Tokens with these lexemes have a derivation that
stands for the type (`derivable_lexemes`), as long as the grammar knows the numbers of the unknowns: they are
positive and fit 64 bits. So a type whose numbers fit is parsed back unless it has an unknown with the number 0, which is
printed as `u0` and refused.
-/

namespace Monolet

namespace Ty

open Lexeme (Lexes Breaks)

variable {t : Ty} {rest : List Char} {ls : List Lexeme}

/-! ## Lexemes of the printed form -/

/-- The lexemes of a printed type. -/
def lexemes : Ty → List Lexeme
  | int => [.typeName "Int"]
  | bool => [.typeName "Bool"]
  | string => [.typeName "String"]
  | unknown id => [.ident (unknownText id)]
  | fn arg res => (if arg.isFn then .lparen :: (arg.lexemes ++ [.rparen]) else arg.lexemes) ++ .arrow :: res.lexemes

/-- The lexemes of a type that is printed to the left of an arrow. -/
def atomLexemes (t : Ty) : List Lexeme := if t.isFn then .lparen :: (t.lexemes ++ [.rparen]) else t.lexemes

theorem unknownText_eq (id : Nat) : unknownText id = String.ofList ('u' :: Nat.toDigits 10 id) := by
  apply String.toList_injective
  simp [unknownText, Decimal.toList_ofNat]

/-- An unknown is written as a name. -/
theorem isName_unknownText (id : Nat) : Lexeme.IsName (unknownText id) := by
  refine ⟨⟨'u', Nat.toDigits 10 id, unknownText_eq id, .inl ⟨by decide, by decide⟩, fun d hd => ?_⟩, fun word eq => ?_⟩
  · have digit : d.isDigit = true := Nat.isDigit_of_mem_toDigits (by decide) (by decide) hd
    exact Lexeme.isNameRest_iff.1 (Lexeme.isNameRest_of_isDigit digit)
  · -- no reserved word starts with `u`
    have first : word.text.toList.head? = some 'u' := by
      rw [← eq, unknownText_eq, String.toList_ofList, List.head?_cons]
    revert first
    cases word <;> decide

theorem lexes_typeName {c : Char} {cs : List Char} (upper : c.isUpper = true) (inName : cs.all Lexeme.isNameRest = true)
    (breaks : Breaks rest) (more : Lexes rest ls) :
    Lexes (c :: cs ++ rest) (.typeName (String.ofList (c :: cs)) :: ls) :=
  .next (Lexeme.next?_typeName upper (List.all_eq_true.1 inName) breaks) more

/-- The printed form of a type is lexed into its lexemes, and then what comes after it is lexed. -/
theorem lexes_print (t : Ty) (breaks : Breaks rest) (more : Lexes rest ls) :
    Lexes (t.print.toList ++ rest) (t.lexemes ++ ls) := by
  induction t generalizing rest ls with
  | int | bool | string => exact lexes_typeName (by decide) (by decide) breaks more
  | unknown id => exact .next (Lexeme.next?_name (isName_unknownText id) breaks) more
  | fn arg res ihArg ihRes =>
    have afterArg : Lexes (' ' :: '-' :: '>' :: ' ' :: (res.print.toList ++ rest)) (.arrow :: (res.lexemes ++ ls)) :=
      .blank rfl (.next rfl (.blank rfl (ihRes breaks more)))
    simp only [print, lexemes, String.toList_append, List.append_assoc, List.cons_append]
    cases arg.isFn with
    | true =>
      have closed : Lexes (')' :: _) (.rparen :: _) := .next rfl afterArg
      have opened : Lexes ('(' :: _) (.lparen :: _) := .next rfl (ihArg (Lexeme.breaks_cons (by decide) _) closed)
      simpa using opened
    | false => exact ihArg (Lexeme.breaks_cons (by decide) _) afterArg

/-! ## Derivations of the printed form -/

/-- Tokens with these lexemes have a derivation that stands for the type. -/
def Derivable (c : Category) (ls : List Lexeme) (t : Ty) : Prop :=
  ∀ ts : List Token, ts.map (·.lexeme) = ls → ∃ d : Derivation c, d.tokens = ts ∧ d.denote = t

namespace Derivable

variable {arg res : Ty} {l : Lexeme} {ls' : List Lexeme}

theorem token (atom : ∀ span, ∃ d : Derivation .atom, d.tokens = [⟨l, span⟩] ∧ d.denote = t) :
    Derivable .atom [l] t := by
  intro ts same
  obtain ⟨⟨lexeme, span⟩, rfl, rfl⟩ := List.map_eq_singleton_iff.1 same
  exact atom span

theorem single (h : Derivable .atom ls t) : Derivable .type ls t := by
  intro ts same
  obtain ⟨d, tokens, denote⟩ := h ts same
  exact ⟨.single d, tokens, denote⟩

theorem bracketed (h : Derivable .type ls t) : Derivable .atom (.lparen :: (ls ++ [.rparen])) t := by
  intro ts same
  obtain ⟨⟨_, left⟩, more, rfl, rfl, moreSame⟩ := List.map_eq_cons_iff.1 same
  obtain ⟨inner, last, rfl, innerSame, lastSame⟩ := List.map_eq_append_iff.1 moreSame
  obtain ⟨⟨_, right⟩, rfl, rfl⟩ := List.map_eq_singleton_iff.1 lastSame
  obtain ⟨d, rfl, denote⟩ := h inner innerSame
  exact ⟨.bracketed left d right, rfl, denote⟩

theorem fn (hArg : Derivable .atom ls arg) (hRes : Derivable .type ls' res) :
    Derivable .type (ls ++ .arrow :: ls') (.fn arg res) := by
  intro ts same
  obtain ⟨us, more, rfl, argSame, moreSame⟩ := List.map_eq_append_iff.1 same
  obtain ⟨⟨_, arrow⟩, vs, rfl, rfl, resSame⟩ := List.map_eq_cons_iff.1 moreSame
  obtain ⟨a, rfl, rfl⟩ := hArg us argSame
  obtain ⟨d, rfl, rfl⟩ := hRes vs resSame
  exact ⟨.fn a arrow d, rfl, rfl⟩

end Derivable

theorem derivable_lexemes (known : ∀ id, t.mentions id = true → 0 < id ∧ id < UInt64.size) :
    Derivable .atom t.atomLexemes t ∧ Derivable .type t.lexemes t := by
  induction t with
  | int =>
    have atom : Derivable .atom [.typeName "Int"] int := .token fun span => ⟨.int span, rfl, rfl⟩
    exact ⟨atom, atom.single⟩
  | bool =>
    have atom : Derivable .atom [.typeName "Bool"] bool := .token fun span => ⟨.bool span, rfl, rfl⟩
    exact ⟨atom, atom.single⟩
  | string =>
    have atom : Derivable .atom [.typeName "String"] string := .token fun span => ⟨.string span, rfl, rfl⟩
    exact ⟨atom, atom.single⟩
  | unknown id =>
    obtain ⟨positive, fits⟩ := known id (by simp [mentions])
    have written := Decimal.read?_toDigits id
    have atom : Derivable .atom [.ident (unknownText id)] (unknown id) := by
      rw [unknownText_eq]
      exact .token fun span => ⟨.unknown (Nat.toDigits 10 id) id written positive fits span, rfl, rfl⟩
    exact ⟨atom, atom.single⟩
  | fn arg res ihArg ihRes =>
    have knownArg := ihArg fun id h => known id (by simp [mentions, h])
    have knownRes := ihRes fun id h => known id (by simp [mentions, h])
    -- to the left of another arrow the whole type stands in brackets
    have whole : Derivable .type (fn arg res).lexemes (fn arg res) := knownArg.1.fn knownRes.2
    exact ⟨whole.bracketed, whole⟩

/-! ## Round trip -/

theorem parse_print (known : ∀ id, t.mentions id = true → 0 < id ∧ id < UInt64.size) : parse t.print = .ok t := by
  have lexes : Lexes t.print.toList t.lexemes := by
    have whole : Lexes (t.print.toList ++ []) (t.lexemes ++ []) := lexes_print t Lexeme.breaks_nil .nil
    rwa [List.append_nil, List.append_nil] at whole
  obtain ⟨ts, lexed, same⟩ := Token.exists_lex_iff.2 lexes
  have derived := (derivable_lexemes known).2 ts same
  exact Parser.parse_eq_ok.2 ⟨ts, lexed, reads_monotype_iff.2 derived⟩

/-- All unknowns of a derived type have positive numbers. -/
theorem Derivation.positive_of_mentions {c : Category} (d : Derivation c) {id : Nat} (h : d.denote.mentions id = true) :
    0 < id := by
  induction d with
  | single t ih => exact ih h
  | fn arg arrow res ihArg ihRes => exact (Bool.or_eq_true_iff.1 h).elim ihArg ihRes
  | bracketed left inner right ih => exact ih h
  | int | bool | string => cases h
  | unknown digits n written positive fits span =>
    obtain rfl : n = id := by simpa [denote, mentions] using h
    exact positive

/-- **Round trip of types.** A type in which the numbers of unknowns fit 64 bits is parsed back from its printed form exactly
when no unknown in it has the number 0. -/
theorem parse_print_eq_ok_iff (t : Ty) (fits : ∀ id, t.mentions id = true → id < UInt64.size) :
    parse t.print = .ok t ↔ t.mentions 0 = false := by
  constructor
  · intro parsed
    obtain ⟨ts, -, read⟩ := Parser.parse_eq_ok.1 parsed
    obtain ⟨d, -, denote⟩ := reads_monotype_iff.1 read
    rw [Bool.eq_false_iff]
    intro zero
    exact absurd (d.positive_of_mentions (by rwa [denote])) (Nat.lt_irrefl 0)
  · intro noZero
    refine parse_print fun id h => ⟨Nat.pos_of_ne_zero ?_, fits id h⟩
    rintro rfl
    rw [noZero] at h
    cases h

/-- The type `(u1 -> Int) -> u18446744073709551615` is parsed back and `(u0 -> Int) -> Bool` is not. -/
theorem parse_print_eq_ok_iff_bounds :
    (parse (fn (fn (unknown 1) int) (unknown 18446744073709551615)).print =
        .ok (fn (fn (unknown 1) int) (unknown 18446744073709551615))) ∧
      parse (fn (fn (unknown 0) int) bool).print ≠ .ok (fn (fn (unknown 0) int) bool) := by
  constructor
  · refine (parse_print_eq_ok_iff _ fun id h => ?_).2 rfl
    rcases Bool.or_eq_true_iff.1 h with inArg | inRes
    · obtain rfl : 1 = id := by simpa [mentions] using inArg
      decide
    · obtain rfl : 18446744073709551615 = id := of_decide_eq_true inRes
      decide
  · intro parsed
    have none := (parse_print_eq_ok_iff _ fun id h => ?_).1 parsed
    · cases none
    · obtain rfl : 0 = id := by simpa [mentions] using h
      decide

end Ty

end Monolet
