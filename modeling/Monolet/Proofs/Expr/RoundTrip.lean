import Monolet.Proofs.Expr.Printed

/-!
# Printing and parsing

A well-formed expression is parsed back from its printed form (`exists_parse_print`), and nothing but well-formed
expressions is ever parsed, from whatever source (`wellFormed_of_parse`). So an expression is parsed back exactly when
it is well formed.
-/

namespace Monolet

namespace Expr

open Monolet.Parser

theorem wellFormed_erase {e : Expr} : e.erase.WellFormed ↔ e.WellFormed := by
  induction e <;> simp_all [erase, WellFormed, freeVars_erase]

/-! ## Well-formed expressions are parsed back -/

theorem exists_parse_print {e : Expr} (h : e.WellFormed) : ∃ e', parse e.print = .ok e' ∧ e'.erase = e.erase := by
  have lexes : Lexeme.Lexes e.print.toList e.row.lexemes := by
    have whole := writes_print h [] [] nofun .nil
    rwa [List.append_nil, List.append_nil] at whole
  obtain ⟨ts, lexed, same⟩ := Token.exists_lex_iff.2 lexes
  -- The tokens have spans of their own, and so has their derivation.
  obtain ⟨d, rfl, sameD⟩ := e.row.expression.exists_tokens_eq same
  have greedy : d.Greedy := by
    rw [← d.greedy_erase, sameD, Derivation.greedy_erase]
    exact e.greedy_row.1
  have fit : ∀ token ∈ d.tokens, fits token.lexeme = true := by
    have lexemes := fits_row h
    rw [← same] at lexemes
    exact List.forall_mem_map.1 lexemes
  refine ⟨d.denote, parse_eq_ok.2 ⟨_, lexed, reads_expression_iff.2 ⟨⟨d, greedy, rfl, rfl⟩, fit⟩⟩, ?_⟩
  calc Expr.erase d.denote
    _ = Expr.erase d.erase.denote := d.denote_erase.symm
    _ = Expr.erase e.row.expression.erase.denote := by rw [sameD]
    _ = Expr.erase e.row.expression.denote := e.row.expression.denote_erase
    _ = e.erase := denote_row h

/-! ## Parsed expressions are well formed -/

theorem wellFormed_applyAll {f : Expr} {args : List Expr} (h : f.WellFormed) (h' : ∀ a ∈ args, a.WellFormed) :
    (f.applyAll args).WellFormed := by
  induction args generalizing f with
  | nil => exact h
  | cons a args ih =>
    obtain ⟨first, more⟩ := List.forall_mem_cons.1 h'
    exact ih ⟨h, first⟩ more

/-- All that a derivation stands for is well formed. -/
def AllWellFormed : {c : Category} → Derivation.Meaning c → Prop
  | .expression, e | .atom, e => WellFormed e
  | .atoms, args => ∀ a ∈ args, WellFormed a

/-- A lexeme as the lexer takes it, and in range. -/
def Sound (l : Lexeme) : Prop := fits l = true ∧ ∀ name, l = .ident name → Lexeme.IsName name

theorem nonneg_of_fits {digits : String} (h : fits (.integer digits) = true) :
    0 ≤ Int64.ofNat ((Decimal.read? digits.toList).getD 0) := by
  obtain ⟨n, written, le⟩ := fits_integer.1 h
  rw [maxInt] at le
  rw [written, Option.getD_some, Int64.le_iff_toInt_le, Int64.toInt_ofNat_of_lt (by omega)]
  exact Int.natCast_nonneg n

theorem Derivation.wellFormed_denote {c : Category} (d : Derivation c)
    (sound : ∀ token ∈ d.tokens, Sound token.lexeme) : AllWellFormed d.denote := by
  induction d with
  | spine head args ihHead ihArgs =>
    rw [tokens, List.forall_mem_append] at sound
    exact wellFormed_applyAll (ihHead sound.1) (ihArgs sound.2)
  | nil => exact List.forall_mem_nil _
  | cons first more ihFirst ihMore =>
    rw [tokens, List.forall_mem_append] at sound
    exact List.forall_mem_cons.2 ⟨ihFirst sound.1, ihMore sound.2⟩
  | bracketed left inner right ih =>
    simp only [tokens, List.forall_mem_cons, List.forall_mem_append] at sound
    exact ih sound.2.1
  | lambda start x arrow body ih =>
    simp only [tokens, List.forall_mem_cons] at sound
    exact ⟨sound.2.1.2 x.name rfl, ih sound.2.2.2⟩
  | letIn start marked x equals value inSpan body ihValue ihBody =>
    simp only [tokens, List.forall_mem_cons, List.forall_mem_append] at sound
    obtain ⟨-, -, isName, -, inValue, -, inBody⟩ := sound
    refine ⟨isName.2 x.name rfl, fun plain => ?_, ihValue inValue, ihBody inBody⟩
    rw [Bool.or_eq_false_iff, decide_eq_false_iff_not] at plain
    exact plain.2
  | cond start c thenSpan t elseSpan e ihC ihT ihE =>
    simp only [tokens, List.forall_mem_cons, List.forall_mem_append] at sound
    obtain ⟨-, inCondition, -, inThen, -, inElse⟩ := sound
    exact ⟨ihC inCondition, ihT inThen, ihE inElse⟩
  | var x => exact (List.forall_mem_singleton.1 sound).2 x.name rfl
  | int digits span => exact nonneg_of_fits (List.forall_mem_singleton.1 sound).1
  | bool | string => exact trivial

theorem wellFormed_of_parse {source : String} {e : Expr} (h : parse source = .ok e) : e.WellFormed := by
  obtain ⟨ts, lexed, read⟩ := parse_eq_ok.1 h
  obtain ⟨⟨d, -, rfl, rfl⟩, fit⟩ := reads_expression_iff.1 read
  have lexes := Token.exists_lex_iff.1 ⟨_, lexed, rfl⟩
  refine d.wellFormed_denote fun token mem => ⟨fit token mem, fun name isIdent => lexes.isName ?_⟩
  rw [← isIdent]
  exact List.mem_map_of_mem mem

/-- **Round trip.** Printing an expression and parsing the text gives the expression back, up to spans, exactly when
the expression is well formed. -/
theorem parse_print_iff (e : Expr) : (∃ e', parse e.print = .ok e' ∧ e'.same e = true) ↔ e.WellFormed := by
  simp only [same, decide_eq_true_eq]
  constructor
  · rintro ⟨e', parsed, eq⟩
    rw [← wellFormed_erase, ← eq, wellFormed_erase]
    exact wellFormed_of_parse parsed
  · exact exists_parse_print

-- Printed as `let x = x in 1`, which is read as a recursive `let`.
example : ¬ (letIn false ⟨"x", {}⟩ (var ⟨"x", {}⟩) (int 1 {}) {}).WellFormed := by
  simp [WellFormed, freeVars]

end Expr

end Monolet
