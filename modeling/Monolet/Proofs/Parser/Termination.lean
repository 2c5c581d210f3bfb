import Mathlib
import Monolet.Proofs.Parser.ErrorPosition
import Monolet.Proofs.Parser.Recursion

/-!
# Parsing ends

The parsers for expressions and types recurse on a bound for the tokens left, and a repetition tries at most once more than
there are tokens left. Here the same grammar is a recursion without any bounds (`Expr.round`, `Ty.round`). Every call of it
comes after a token, be it a bracket, a keyword or an atom of the loop, so the recursion ends on every stream, with what the
bounded parsers return.

That the loop over atoms gets ahead rests on two facts about a single run. A successful run has moved the index forward,
though not past the end (`Advances`). A failing atom leaves the index where it was (`Restores`), even if a number that is
too large was read before it was refused: the last alternative goes back first and reads one token or none.
-/

namespace Monolet

namespace Parser

variable {α β : Type} {p q : Parser α} {f : α → Parser β}

/-! ## Moving forward and going back -/

/-- A successful run has read a token at least, and none that is not there. -/
def Advances (p : Parser α) : Prop :=
  ∀ s a s', p s = .ok a s' → s.index < s'.index ∧ s'.index ≤ s.tokens.size ∧ s'.tokens = s.tokens

theorem Progresses.advances [p.Local] (progress : p.Progresses) {refused : Token → Prop} {L : Language Token}
    (traced : ∀ s, Traced refused L q s (p s)) : p.Advances := by
  intro s a s' ran
  have trace := traced s
  rw [ran] at trace
  have tokens := trace.moves.tokens
  have less := progress.remaining_lt ran
  rw [TokenStream.remaining, TokenStream.remaining, tokens] at less
  -- A stream that is past its end has no token to read.
  have start : s.Inside := show s.index ≤ s.tokens.size by omega
  have stop := trace.moves.inside start
  rw [TokenStream.Inside, tokens] at stop
  exact ⟨by omega, stop, tokens⟩

theorem Progresses.bind [p.Local] [∀ a, (f a).Local] (h : p.Progresses) : (p >>= f).Progresses := by
  intro ts b vs read
  obtain ⟨a, us, first, second⟩ := reads_bind_eq_some.1 read
  exact (length_le_of_reads second).trans_lt (h first)

/-- A failing run ends at the index it has started from. -/
def Restores (p : Parser α) : Prop := ∀ s e s', p s = .error e s' → s'.index = s.index

theorem restores_select (expected : String) (accept : Token → Option α) : (select expected accept).Restores := by
  intro s e s' failed
  cases taken : s.peek.bind accept with
  | none =>
    obtain ⟨_, -, rejected⟩ := select_eq_reject expected taken
    rw [rejected] at failed
    cases failed
    exact s.index_record _
  | some a =>
    obtain ⟨token, next, accepted⟩ := Option.bind_eq_some_iff.1 taken
    simp [select, next, accepted] at failed

/-- The second part of an alternative starts at the index of the first, so the first part need not go back itself. -/
theorem Restores.orElse (p : Parser α) (h : q.Restores) : (p <|> q).Restores := by
  intro s e s' failed
  change EStateM.orElse p (fun _ => q) s = .error e s' at failed
  rw [EStateM.orElse] at failed
  cases ran : p s with
  | ok a s₁ =>
    rw [ran] at failed
    cases failed
  | error e₁ s₁ =>
    rw [ran] at failed
    exact h (s₁.restore s.index) e s' failed

theorem Restores.label (name : String) (h : p.Restores) : (p.label name).Restores := by
  intro s e s' failed
  rw [Parser.label] at failed
  cases ran : p s with
  | ok a s₁ =>
    rw [ran] at failed
    cases failed
  | error e₁ s₁ =>
    have back := h s e₁ s₁ ran
    rw [ran] at failed
    simp only [back, Nat.lt_irrefl, if_false] at failed
    cases failed
    rw [TokenStream.index_record, back]

theorem exists_optional_eq_ok (p : Parser α) (s : TokenStream) : ∃ tried s', p.optional s = .ok tried s' := by
  rw [optional]
  simp only [HOrElse.hOrElse, OrElse.orElse, EStateM.orElse, Functor.map, EStateM.map]
  cases p s with
  | ok a s' => exact ⟨some a, s', rfl⟩
  | error e s' => exact ⟨none, s'.restore s.index, rfl⟩

/-- The loop does not fail: an element that fails is its end. -/
theorem exists_atMost_eq_ok (p : Parser α) (k : Nat) (s : TokenStream) : ∃ l s', p.atMost k s = .ok l s' := by
  induction k generalizing s with
  | zero => exact ⟨[], s, rfl⟩
  | succ k ih =>
    rw [atMost_succ]
    obtain ⟨tried, s₁, first⟩ := exists_optional_eq_ok p s
    simp only [Bind.bind, EStateM.bind, first]
    cases tried with
    | none => exact ⟨[], s₁, rfl⟩
    | some a =>
      obtain ⟨l, s₂, more⟩ := ih s₁
      exact ⟨a :: l, s₂, by simp only [goOn, Functor.map, EStateM.map, more]⟩

end Parser

open Monolet.Parser

/-! ## Expressions -/

namespace Expr

/-- The parsers that call each other: for an expression, and for the atoms behind its first one. -/
inductive Rule where
  | expression
  | atoms

/-- What a parser yields. -/
abbrev Rule.Value : Rule → Type
  | expression => Expr
  | atoms => List Expr

/-- One round of each. An expression is an atom and what the loop over the following atoms yields. The loop tries an atom and
goes on behind it, or goes back and stops. -/
def round (call : (rule : Rule) → Parser rule.Value) : (rule : Rule) → Parser rule.Value
  | .expression => do
    let f ← atom (call .expression)
    return f.applyAll (← call .atoms)
  | .atoms => loop (atom (call .expression)) (call .atoms)

section

variable {parsers : (rule : Rule) → Parser rule.Value} [Local (parsers .expression)] {n : Nat}

theorem settles_lambda : Settles parsers (n + 1) n fun f => lambda (f .expression) :=
  .after_symbol .backslash fun _ => .bind (.const ident) fun _ => .bind (.const (symbol .arrow)) fun _ =>
    .bind (.call Rule.expression) fun _ => .const _

theorem settles_letExpr : Settles parsers (n + 1) n fun f => letExpr (f .expression) :=
  .after_symbol _ fun _ => .bind (.const (symbol _).optional) fun _ => .bind (.const ident) fun _ =>
    .bind (.const (symbol _)) fun _ => .bind (.call Rule.expression) fun _ => .bind (.const (symbol _)) fun _ =>
    .bind (.call Rule.expression) fun _ => .const _

theorem settles_ifExpr : Settles parsers (n + 1) n fun f => ifExpr (f .expression) :=
  .after_symbol _ fun _ => .bind (.call Rule.expression) fun _ => .bind (.const (symbol _)) fun _ =>
    .bind (.call Rule.expression) fun _ => .bind (.const (symbol _)) fun _ => .bind (.call Rule.expression) fun _ =>
    .const _

theorem settles_atom : Settles parsers (n + 1) n fun f => atom (f .expression) :=
  .label "expression" (.orElse (.bracketed (.call Rule.expression)) (.orElse settles_lambda (.orElse settles_letExpr
    (.orElse settles_ifExpr (.const _)))))

/-- Every call of a round comes after a token. -/
theorem settles_round (rule : Rule) : Settles parsers (n + 1) n fun f => round f rule := by
  cases rule with
  | expression => exact settles_atom.bind_of_progresses progresses_atom fun f => .bind_pure f.applyAll (.call Rule.atoms)
  | atoms =>
    refine fun s few => (settles_atom.optional s few).bind fun tried s' ran => ?_
    cases tried with
    | none => exact Settles.const (pure []) s' (Nat.lt_succ_self _)
    | some a =>
      obtain ⟨_, -, read⟩ | ⟨_, _, no, -⟩ := optional_eq_ok ran
      · have less := progresses_atom.remaining_lt read
        exact Settles.bind_pure (a :: ·) (.call Rule.atoms) s' (by omega)
      · cases no

end

/-- A parser for expressions and one for rows of atoms. -/
def parsers (inner : Parser Expr) (more : Parser (List Expr)) : (rule : Rule) → Parser rule.Value
  | .expression => inner
  | .atoms => more

instance (inner : Parser Expr) (more : Parser (List Expr)) [inner.Local] : Local (parsers inner more .expression) :=
  inferInstanceAs inner.Local

/-- The loop ends where the expressions inside its atoms do, and before its tries are used up. -/
theorem finishes_atMost {inner : Parser Expr} [inner.Local] {n : Nat}
    (nested : ∀ s, s.remaining < n → Finishes round .expression s (inner s)) (k : Nat) (s : TokenStream)
    (few : s.remaining < n + 1) (enough : s.remaining < k) : Finishes round .atoms s ((atom inner).atMost k s) := by
  induction k generalizing s with
  | zero => cases enough
  | succ k ih =>
    have settled : SettledAt (parsers inner ((atom inner).atMost k)) s.remaining (fun f => round f .atoms) s :=
      settles_round .atoms s (Nat.lt_succ_self _)
    refine settled.finishes fun rule t fewer => ?_
    cases rule with
    | expression => exact nested t (by omega)
    | atoms => exact ih t (by omega) (by omega)

theorem finishes_within (n : Nat) (s : TokenStream) (few : s.remaining < n) : Finishes round .expression s (within n s) := by
  induction n generalizing s with
  | zero => cases few
  | succ n ih =>
    have settled : SettledAt (parsers (within n) (atom (within n)).many) n (fun f => round f .expression) s :=
      settles_round .expression s few
    refine settled.finishes fun rule t fewer => ?_
    cases rule with
    | expression => exact ih t fewer
    | atoms => exact finishes_atMost ih _ t (by omega) (Nat.lt_succ_self _)

theorem finishes_expression (s : TokenStream) : Finishes round .expression s (expression s) :=
  finishes_within _ s (Nat.lt_succ_self _)

theorem finishes_atoms (s : TokenStream) : Finishes round .atoms s ((atom expression).many s) :=
  finishes_atMost (fun t _ => finishes_expression t) _ s (Nat.lt_succ_self _) (Nat.lt_succ_self _)

theorem traced_expression (s : TokenStream) : Traced Unfit (sentences .expression) expression s (expression s) :=
  tracks_within (s.remaining + 1) s (Nat.lt_succ_self _)

theorem progresses_expression : expression.Progresses := by
  intro ts e us read
  rw [reads_expression_eq] at read
  exact progresses_atom.bind read

theorem advances_expression : expression.Advances := progresses_expression.advances traced_expression

theorem advances_atom : (atom expression).Advances :=
  progresses_atom.advances fun s => tracks_atom (fun t _ => traced_expression t) s (Nat.lt_succ_self _)

/-- Only the last alternative of an atom matters for this, and it reads one token or none. -/
theorem restores_atom (inner : Parser Expr) : (atom inner).Restores := by
  have last : stringLiteral.Restores := restores_select _ _
  exact .label "expression" (.orElse _ (.orElse _ (.orElse _ (.orElse _ (.orElse _ (.orElse _ (.orElse _ last)))))))

-- A number is read before it is found too large.
example : (match integer (.ofList [⟨.integer "9223372036854775808", {}⟩]) with
    | .ok _ _ => none
    | .error _ s => some s.index) = some 1 := by decide

example : (match atom expression (.ofList [⟨.integer "9223372036854775808", {}⟩]) with
    | .ok _ _ => none
    | .error _ s => some s.index) = some 0 := by decide

end Expr

/-! ## Types -/

namespace Ty

/-- One round: an atom, and its result behind an arrow. -/
def round (call : Unit → Parser Ty) : Unit → Parser Ty := fun _ => arrow (call ())

section

variable {parsers : Unit → Parser Ty} [Local (parsers ())] {n : Nat}

theorem settles_atom : Settles parsers (n + 1) n fun f => atom (f ()) :=
  .orElse (.bracketed (.call ())) (.const named)

theorem settles_round : Settles parsers (n + 1) n fun f => round f () := by
  have results : Settles parsers (n + 1) n fun f => result (f ()) := .after_symbol .arrow fun _ => .call ()
  simp only [round, arrow_eq]
  exact settles_atom.bind fun _ => results.optional.bind_pure _

end

theorem finishes_within (n : Nat) (s : TokenStream) (few : s.remaining < n) : Finishes round () s (within n s) := by
  induction n generalizing s with
  | zero => cases few
  | succ n ih =>
    have settled : SettledAt (fun _ => within n) n (fun f => round f ()) s := settles_round s few
    exact settled.finishes fun _ t fewer => ih t fewer

theorem finishes_monotype (s : TokenStream) : Finishes round () s (monotype s) := finishes_within _ s (Nat.lt_succ_self _)

theorem traced_monotype (s : TokenStream) : Traced Unfit (sentences .type) monotype s (monotype s) :=
  tracks_within (s.remaining + 1) s (Nat.lt_succ_self _)

theorem progresses_atom : (atom monotype).Progresses := by
  intro ts t us read
  obtain ⟨left, right, vs, rfl, between⟩ | ⟨token, rfl, -⟩ := reads_atom.1 read
  · have shorter := length_le_of_reads between
    simp only [List.length_cons] at shorter ⊢
    omega
  · exact Nat.lt_succ_self _

theorem progresses_monotype : monotype.Progresses := by
  intro ts t us read
  rw [reads_monotype_eq, arrow_eq] at read
  exact progresses_atom.bind read

theorem advances_atom : (atom monotype).Advances :=
  progresses_atom.advances fun s => tracks_atom (fun t _ => traced_monotype t) s (Nat.lt_succ_self _)

theorem advances_monotype : monotype.Advances := progresses_monotype.advances traced_monotype

end Ty

/-- **Parsing ends.** The grammar for expressions, with its loop over atoms, and the grammar for types end on every stream
and come to one result, which the parsers return. The loop does not fail. An atom or an expression, and likewise one of
a type, that is read moves the index forward and not past the tokens. An atom that cannot be read leaves it in place. -/
theorem parsing_terminates :
    (∀ s r, Finishes Expr.round .expression s r ↔ r = Expr.expression s) ∧
    (∀ s r, Finishes Ty.round () s r ↔ r = Ty.monotype s) ∧
    (∀ s, ∃ args s', (Expr.atom Expr.expression).many s = .ok args s' ∧
      ∀ r, Finishes Expr.round .atoms s r ↔ r = .ok args s') ∧
    (Expr.atom Expr.expression).Advances ∧ Expr.expression.Advances ∧
    (Ty.atom Ty.monotype).Advances ∧ Ty.monotype.Advances ∧
    (Expr.atom Expr.expression).Restores := by
  refine ⟨fun s _ => (Expr.finishes_expression s).iff_eq, fun s _ => (Ty.finishes_monotype s).iff_eq, fun s => ?_,
    Expr.advances_atom, Expr.advances_expression, Ty.advances_atom, Ty.advances_monotype, Expr.restores_atom _⟩
  obtain ⟨args, s', ran⟩ := exists_atMost_eq_ok (Expr.atom Expr.expression) (s.remaining + 1) s
  have ended := Expr.finishes_atoms s
  rw [many, ran] at ended
  exact ⟨args, s', ran, fun _ => ended.iff_eq⟩

end Monolet
