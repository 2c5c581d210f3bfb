import Monolet.Proofs.Expr.Recognition
import Monolet.Proofs.Ty.Recognition

/-!
# What the parsers accept

A parser that has to read all tokens succeeds exactly on the token sequences of its grammar. Of an expression it
returns the tree of the one derivation in which every lambda, `let` and `if` without brackets reaches as far as it can.
Of a type there is one derivation only.
-/

namespace Monolet

namespace Parser

/-- **Acceptance.** Expressions are accepted when they are derivable and no integer is too large, and types when they
are derivable. What is returned is what the derivation stands for, the greedy one in the case of an expression. -/
theorem complete_iff_derivable (ts : List Token) :
    ((∃ e s, Expr.expression.complete (.ofList ts) = .ok e s) ↔
      (∃ d : Expr.Derivation .expression, d.tokens = ts) ∧ ∀ token ∈ ts, Expr.fits token.lexeme = true) ∧
    (∀ e, (∃ s, Expr.expression.complete (.ofList ts) = .ok e s) ↔
      (∃ d : Expr.Derivation .expression, (∀ d', d'.Greedy ∧ d'.tokens = ts ↔ d' = d) ∧ d.denote = e) ∧
        ∀ token ∈ ts, Expr.fits token.lexeme = true) ∧
    ((∃ t s, Ty.monotype.complete (.ofList ts) = .ok t s) ↔ ∃ d : Ty.Derivation .type, d.tokens = ts) ∧
    (∀ t, (∃ s, Ty.monotype.complete (.ofList ts) = .ok t s) ↔
      ∃ d : Ty.Derivation .type, (∀ d', d'.tokens = ts ↔ d' = d) ∧ d.denote = t) := by
  simp only [complete_eq_ok]
  refine ⟨Expr.exists_reads_iff, fun e => ?_, ?_, fun t => ?_⟩
  · rw [Expr.reads_expression_iff]
    refine and_congr_left' (exists_congr fun d => ?_)
    constructor
    · rintro ⟨greedy, rfl, denote⟩
      refine ⟨fun d' => ⟨fun ⟨greedy', eq⟩ => Expr.Derivation.eq_of_tokens_eq greedy' greedy eq, ?_⟩, denote⟩
      rintro rfl
      exact ⟨greedy, rfl⟩
    · rintro ⟨unique, denote⟩
      obtain ⟨greedy, eq⟩ := (unique d).2 rfl
      exact ⟨greedy, eq, denote⟩
  · constructor
    · rintro ⟨t, read⟩
      obtain ⟨d, eq, -⟩ := Ty.reads_monotype_iff.1 read
      exact ⟨d, eq⟩
    · rintro ⟨d, eq⟩
      exact ⟨d.denote, Ty.reads_monotype_iff.2 ⟨d, eq, rfl⟩⟩
  · rw [Ty.reads_monotype_iff]
    refine exists_congr fun d => and_congr_left fun _ => ⟨?_, fun unique => (unique d).2 rfl⟩
    rintro rfl d'
    exact ⟨Ty.Derivation.eq_of_tokens_eq, fun eq => by rw [eq]⟩

end Parser

end Monolet
