import Monolet.Expr.Parser

/-!
# The grammar of expressions

An expression is a row of atoms, the first applied to the others. A derivation is a tree of the grammar together with
the spans of its tokens, so that it fixes the tokens it derives (`tokens`) and the expression it stands for (`denote`).

A lambda, a `let` and an `if` without brackets are open: they end with an expression, and nothing marks where that
expression ends. So the grammar is ambiguous: in `\x -> f y`, `y` may be an argument of `f` or of the lambda. A
derivation is greedy when an open atom is always the last of its row, which means that its body has taken all atoms that
follow. Greedy derivations are unambiguous (`Derivation.eq_of_tokens_eq`).
-/

namespace Monolet

namespace Expr

/-- What the grammar derives: an expression, one atom, or the atoms that a function is applied to. -/
inductive Category where
  | expression
  | atom
  | atoms

/-- The reserved word for a truth value. -/
def keywordOf (b : Bool) : Keyword := if b then .trueKw else .falseKw

/-- The token of a `rec`, if there is one. -/
def recTokens (marked : Option Span) : List Token := marked.toList.map fun span => ⟨.keyword .recKw, span⟩

/-- Derivations of the grammar, with the spans of the tokens. -/
inductive Derivation : Category → Type where
  | spine (head : Derivation .atom) (args : Derivation .atoms) : Derivation .expression
  | nil : Derivation .atoms
  | cons (first : Derivation .atom) (more : Derivation .atoms) : Derivation .atoms
  | bracketed (left : Span) (inner : Derivation .expression) (right : Span) : Derivation .atom
  | lambda (start : Span) (x : Ident) (arrow : Span) (body : Derivation .expression) : Derivation .atom
  | letIn (start : Span) (marked : Option Span) (x : Ident) (equals : Span) (value : Derivation .expression)
      (inSpan : Span) (body : Derivation .expression) : Derivation .atom
  | cond (start : Span) (c : Derivation .expression) (thenSpan : Span) (t : Derivation .expression) (elseSpan : Span)
      (e : Derivation .expression) : Derivation .atom
  | var (x : Ident) : Derivation .atom
  | int (digits : String) (span : Span) : Derivation .atom
  | bool (b : Bool) (span : Span) : Derivation .atom
  | string (written : String) (span : Span) : Derivation .atom

namespace Derivation

/-- The tokens that are derived. -/
def tokens : {c : Category} → Derivation c → List Token
  | _, spine head args => head.tokens ++ args.tokens
  | _, nil => []
  | _, cons first more => first.tokens ++ more.tokens
  | _, bracketed left inner right => ⟨.lparen, left⟩ :: (inner.tokens ++ [⟨.rparen, right⟩])
  | _, lambda start x arrow body =>
    ⟨.backslash, start⟩ :: ⟨.ident x.name, x.span⟩ :: ⟨.arrow, arrow⟩ :: body.tokens
  | _, letIn start marked x equals value inSpan body =>
    ⟨.keyword .letKw, start⟩ :: (recTokens marked ++ ⟨.ident x.name, x.span⟩ :: ⟨.equals, equals⟩ ::
      (value.tokens ++ ⟨.keyword .inKw, inSpan⟩ :: body.tokens))
  | _, cond start c thenSpan t elseSpan e =>
    ⟨.keyword .ifKw, start⟩ :: (c.tokens ++ ⟨.keyword .thenKw, thenSpan⟩ ::
      (t.tokens ++ ⟨.keyword .elseKw, elseSpan⟩ :: e.tokens))
  | _, var x => [⟨.ident x.name, x.span⟩]
  | _, int digits span => [⟨.integer digits, span⟩]
  | _, bool b span => [⟨.keyword (keywordOf b), span⟩]
  | _, string written span => [⟨.string written, span⟩]

/-- What a derivation stands for. -/
abbrev Meaning : Category → Type
  | .expression | .atom => Expr
  | .atoms => List Expr

/-- The expression, or the arguments, that a derivation stands for. A `let` is recursive when it says so or when its
value mentions its name. -/
def denote : {c : Category} → Derivation c → Meaning c
  | _, spine head args => Expr.applyAll head.denote args.denote
  | _, nil => []
  | _, cons first more => first.denote :: more.denote
  | _, bracketed _ inner _ => inner.denote
  | _, lambda start x _ body => .lam x body.denote (start.merge (Expr.span body.denote))
  | _, letIn start marked x _ value _ body =>
    .letIn (marked.isSome || x.name ∈ Expr.freeVars value.denote) x value.denote body.denote
      (start.merge (Expr.span body.denote))
  | _, cond start c _ t _ e => .cond c.denote t.denote e.denote (start.merge (Expr.span e.denote))
  | _, var x => .var x
  | _, int digits span => .int (Int64.ofNat ((Decimal.read? digits.toList).getD 0)) span
  | _, bool b span => .bool b span
  | _, string written span => .string (Quoted.decode written) span

/-- Lambdas, `let` and `if` without brackets. -/
def isOpen : Derivation .atom → Bool
  | lambda .. | letIn .. | cond .. => true
  | bracketed .. | var .. | int .. | bool .. | string .. => false

/-- An open atom is the last of its row. -/
def Greedy : {c : Category} → Derivation c → Prop
  | _, spine head args => head.Greedy ∧ args.Greedy ∧ (head.isOpen = true → args = nil)
  | _, cons first more => first.Greedy ∧ more.Greedy ∧ (first.isOpen = true → more = nil)
  | _, bracketed _ inner _ => inner.Greedy
  | _, lambda _ _ _ body => body.Greedy
  | _, letIn _ _ _ _ value _ body => value.Greedy ∧ body.Greedy
  | _, cond _ c _ t _ e => c.Greedy ∧ t.Greedy ∧ e.Greedy
  | _, nil | _, var _ | _, int .. | _, bool .. | _, string .. => True

end Derivation

/-- An integer is at most the largest literal. -/
def fits : Lexeme → Bool
  | .integer digits => (Decimal.read? digits.toList).any (· ≤ maxInt)
  | _ => true

/-! ## Where an expression ends -/

/-- Lexemes that an atom may start with. -/
def startsAtom : Lexeme → Bool
  | .lparen | .backslash | .ident _ | .integer _ | .string _ => true
  | .keyword word => word ∈ [.letKw, .ifKw, .trueKw, .falseKw]
  | .typeName _ | .equals | .arrow | .rparen => false

/-- No atom starts here. -/
def Ends (ts : List Token) : Prop := ∀ token ∈ ts.head?, startsAtom token.lexeme = false

theorem ends_cons {token : Token} (h : startsAtom token.lexeme = false) (ts : List Token) : Ends (token :: ts) := by
  simpa [Ends] using h

theorem recTokens_append_inj {marked marked' : Option Span} {x x' : Ident} {ts ts' : List Token}
    (eq : recTokens marked ++ ⟨.ident x.name, x.span⟩ :: ts = recTokens marked' ++ ⟨.ident x'.name, x'.span⟩ :: ts') :
    marked = marked' ∧ x = x' ∧ ts = ts' := by
  obtain ⟨name, span⟩ := x
  obtain ⟨name', span'⟩ := x'
  cases marked <;> cases marked' <;> simp_all [recTokens]

theorem keywordOf_ne (b : Bool) {word : Keyword} (h : word = .letKw ∨ word = .ifKw) : word ≠ keywordOf b := by
  cases b <;> rcases h with rfl | rfl <;> simp [keywordOf]

theorem keywordOf_inj {b b' : Bool} (h : keywordOf b = keywordOf b') : b = b' := by
  cases b <;> cases b' <;> simp_all [keywordOf]

namespace Derivation

theorem not_ends_atom (a : Derivation .atom) (rest : List Token) : ¬ Ends (a.tokens ++ rest) := by
  cases a with
  | bool b => cases b <;> simp [Ends, tokens, startsAtom, keywordOf]
  | _ => simp [Ends, tokens, startsAtom]

theorem not_ends_expression (d : Derivation .expression) (rest : List Token) : ¬ Ends (d.tokens ++ rest) := by
  cases d with
  | spine head args =>
    rw [tokens, List.append_assoc]
    exact not_ends_atom head _

/-- A closed atom says itself where it ends; an open one and a row of atoms end where no atom starts. -/
def EndsBefore : {c : Category} → Derivation c → List Token → Prop
  | .atom, a, rest => a.isOpen = true → Ends rest
  | .expression, _, rest | .atoms, _, rest => Ends rest

/-! ## Greedy derivations are unambiguous -/

/-- The derivation can be told from the front of what it is followed by. -/
def Determined {c : Category} (d : Derivation c) : Prop :=
  ∀ {d' : Derivation c} {rest rest' : List Token}, d.Greedy → d'.Greedy → d.EndsBefore rest → d'.EndsBefore rest' →
    d.tokens ++ rest = d'.tokens ++ rest' → d = d' ∧ rest = rest'

/-- The first atom of a row is told first. It is open only when it is the last one too. -/
theorem Determined.row {a a' : Derivation .atom} {m m' : Derivation .atoms} {rest rest' : List Token}
    (first : a.Determined) (more : m.Determined) (greedy : a.Greedy ∧ m.Greedy ∧ (a.isOpen = true → m = nil))
    (greedy' : a'.Greedy ∧ m'.Greedy ∧ (a'.isOpen = true → m' = nil)) (ends : Ends rest) (ends' : Ends rest')
    (eq : a.tokens ++ m.tokens ++ rest = a'.tokens ++ m'.tokens ++ rest') : a = a' ∧ m = m' ∧ rest = rest' := by
  obtain ⟨greedyA, greedyM, last⟩ := greedy
  obtain ⟨greedyA', greedyM', last'⟩ := greedy'
  rw [List.append_assoc, List.append_assoc] at eq
  have before : a.EndsBefore (m.tokens ++ rest) := fun isOpen => by
    rw [last isOpen]
    exact ends
  have before' : a'.EndsBefore (m'.tokens ++ rest') := fun isOpen => by
    rw [last' isOpen]
    exact ends'
  obtain ⟨rfl, later⟩ := first greedyA greedyA' before before' eq
  obtain ⟨rfl, rfl⟩ := more greedyM greedyM' ends ends' later
  exact ⟨rfl, rfl, rfl⟩

/-- An expression is told from what follows up to the token that marks its end. -/
theorem Determined.upTo {d d' : Derivation .expression} {mark mark' : Token} {rest rest' : List Token}
    (h : d.Determined) (greedy : d.Greedy) (greedy' : d'.Greedy) (hm : startsAtom mark.lexeme = false)
    (hm' : startsAtom mark'.lexeme = false) (eq : d.tokens ++ mark :: rest = d'.tokens ++ mark' :: rest') :
    d = d' ∧ mark = mark' ∧ rest = rest' := by
  obtain ⟨rfl, later⟩ := h greedy greedy' (ends_cons hm rest) (ends_cons hm' rest') eq
  exact ⟨rfl, List.cons.inj later⟩

theorem Determined.bracketed {left right : Span} {inner : Derivation .expression} (h : inner.Determined) :
    (Derivation.bracketed left inner right).Determined := by
  intro d' rest rest' greedy greedy' _ _ eq
  cases d' with
  | bracketed left' inner' right' =>
    simp only [tokens, List.cons_append, List.append_assoc, List.nil_append, List.cons.injEq, Token.mk.injEq] at eq
    obtain ⟨⟨-, rfl⟩, afterLeft⟩ := eq
    obtain ⟨rfl, mark, rfl⟩ := h.upTo greedy greedy' rfl rfl afterLeft
    cases mark
    exact ⟨rfl, rfl⟩
  | _ => simp [tokens] at eq

theorem Determined.lambda {start arrow : Span} {x : Ident} {body : Derivation .expression} (h : body.Determined) :
    (Derivation.lambda start x arrow body).Determined := by
  intro d' rest rest' greedy greedy' ends ends' eq
  cases d' with
  | lambda start' x' arrow' body' =>
    obtain ⟨name, span⟩ := x
    obtain ⟨name', span'⟩ := x'
    simp only [tokens, List.cons_append, List.cons.injEq, Token.mk.injEq, Lexeme.ident.injEq] at eq
    obtain ⟨⟨-, rfl⟩, ⟨rfl, rfl⟩, ⟨-, rfl⟩, afterArrow⟩ := eq
    obtain ⟨rfl, rfl⟩ := h greedy greedy' (ends rfl) (ends' rfl) afterArrow
    exact ⟨rfl, rfl⟩
  | _ => simp [tokens] at eq

theorem Determined.letIn {start equals inSpan : Span} {marked : Option Span} {x : Ident}
    {value body : Derivation .expression} (hv : value.Determined) (hb : body.Determined) :
    (Derivation.letIn start marked x equals value inSpan body).Determined := by
  intro d' rest rest' greedy greedy' ends ends' eq
  cases d' with
  | letIn start' marked' x' equals' value' inSpan' body' =>
    simp only [tokens, List.cons_append, List.append_assoc, List.cons.injEq, Token.mk.injEq] at eq
    obtain ⟨⟨-, rfl⟩, afterLet⟩ := eq
    obtain ⟨rfl, rfl, afterName⟩ := recTokens_append_inj afterLet
    simp only [List.cons.injEq, Token.mk.injEq] at afterName
    obtain ⟨⟨-, rfl⟩, afterEquals⟩ := afterName
    obtain ⟨rfl, mark, afterIn⟩ := hv.upTo greedy.1 greedy'.1 rfl rfl afterEquals
    obtain ⟨rfl, rfl⟩ := hb greedy.2 greedy'.2 (ends rfl) (ends' rfl) afterIn
    cases mark
    exact ⟨rfl, rfl⟩
  | bool b => simp [tokens, keywordOf_ne b (.inl rfl)] at eq
  | _ => simp [tokens] at eq

theorem Determined.cond {start thenSpan elseSpan : Span} {c t e : Derivation .expression} (hc : c.Determined)
    (ht : t.Determined) (he : e.Determined) : (Derivation.cond start c thenSpan t elseSpan e).Determined := by
  intro d' rest rest' greedy greedy' ends ends' eq
  cases d' with
  | cond start' c' thenSpan' t' elseSpan' e' =>
    simp only [tokens, List.cons_append, List.append_assoc, List.cons.injEq, Token.mk.injEq] at eq
    obtain ⟨⟨-, rfl⟩, afterIf⟩ := eq
    obtain ⟨rfl, thenMark, afterThen⟩ := hc.upTo greedy.1 greedy'.1 rfl rfl afterIf
    obtain ⟨rfl, elseMark, afterElse⟩ := ht.upTo greedy.2.1 greedy'.2.1 rfl rfl afterThen
    obtain ⟨rfl, rfl⟩ := he greedy.2.2 greedy'.2.2 (ends rfl) (ends' rfl) afterElse
    cases thenMark
    cases elseMark
    exact ⟨rfl, rfl⟩
  | bool b => simp [tokens, keywordOf_ne b (.inr rfl)] at eq
  | _ => simp [tokens] at eq

theorem determined_var (x : Ident) : (var x).Determined := by
  intro d' rest rest' _ _ _ _ eq
  cases d' with
  | var x' =>
    obtain ⟨name, span⟩ := x
    obtain ⟨name', span'⟩ := x'
    simpa [tokens, and_assoc] using eq
  | _ => simp [tokens] at eq

theorem determined_int (digits : String) (span : Span) : (int digits span).Determined := by
  intro d' rest rest' _ _ _ _ eq
  cases d' with
  | int digits' span' => simpa [tokens, and_assoc] using eq
  | _ => simp [tokens] at eq

theorem determined_bool (b : Bool) (span : Span) : (bool b span).Determined := by
  intro d' rest rest' _ _ _ _ eq
  cases d' with
  | bool b' span' =>
    simp only [tokens, List.cons_append, List.nil_append, List.cons.injEq, Token.mk.injEq, Lexeme.keyword.injEq] at eq
    obtain ⟨⟨same, rfl⟩, rfl⟩ := eq
    obtain rfl := keywordOf_inj same
    exact ⟨rfl, rfl⟩
  | letIn => simp [tokens, (keywordOf_ne b (.inl rfl)).symm] at eq
  | cond => simp [tokens, (keywordOf_ne b (.inr rfl)).symm] at eq
  | _ => simp [tokens] at eq

theorem determined_string (written : String) (span : Span) : (string written span).Determined := by
  intro d' rest rest' _ _ _ _ eq
  cases d' with
  | string written' span' => simpa [tokens, and_assoc] using eq
  | _ => simp [tokens] at eq

theorem determined {c : Category} (d : Derivation c) : d.Determined := by
  induction d with
  | spine head args ihHead ihArgs =>
    intro d' rest rest' greedy greedy' ends ends' eq
    cases d' with
    | spine head' args' =>
      obtain ⟨rfl, rfl, rfl⟩ := ihHead.row ihArgs greedy greedy' ends ends' eq
      exact ⟨rfl, rfl⟩
  | nil =>
    intro d' rest rest' _ _ ends _ eq
    cases d' with
    | nil => exact ⟨rfl, eq⟩
    | cons first more =>
      -- One row ends where the other has an atom.
      rw [tokens, tokens, List.nil_append, List.append_assoc] at eq
      exact absurd (eq ▸ ends) (not_ends_atom first _)
  | cons first more ihFirst ihMore =>
    intro d' rest rest' greedy greedy' ends ends' eq
    cases d' with
    | nil =>
      rw [tokens, tokens, List.nil_append, List.append_assoc] at eq
      exact absurd (eq ▸ ends') (not_ends_atom first _)
    | cons first' more' =>
      obtain ⟨rfl, rfl, rfl⟩ := ihFirst.row ihMore greedy greedy' ends ends' eq
      exact ⟨rfl, rfl⟩
  | bracketed _ _ _ ih => exact ih.bracketed
  | lambda _ _ _ _ ih => exact ih.lambda
  | letIn _ _ _ _ _ _ _ ihValue ihBody => exact ihValue.letIn ihBody
  | cond _ _ _ _ _ _ ihC ihT ihE => exact ihC.cond ihT ihE
  | var x => exact determined_var x
  | int digits span => exact determined_int digits span
  | bool b span => exact determined_bool b span
  | string written span => exact determined_string written span

/-- No tokens have two greedy derivations. -/
theorem eq_of_tokens_eq {d d' : Derivation .expression} (greedy : d.Greedy) (greedy' : d'.Greedy)
    (eq : d.tokens = d'.tokens) : d = d' := by
  have atEnd : Ends [] := nofun
  exact (d.determined greedy greedy' atEnd atEnd (by rw [eq])).1

-- `\x -> f y`, with `y` as an argument of `f` and as an argument of the lambda.
example :
    let inside := spine (lambda {} ⟨"x", {}⟩ {} (spine (var ⟨"f", {}⟩) (cons (var ⟨"y", {}⟩) nil))) nil
    let behind := spine (lambda {} ⟨"x", {}⟩ {} (spine (var ⟨"f", {}⟩) nil)) (cons (var ⟨"y", {}⟩) nil)
    inside.tokens = behind.tokens ∧ inside.Greedy ∧ ¬ behind.Greedy := by
  simp [tokens, Greedy, isOpen]

end Derivation

end Expr

end Monolet
