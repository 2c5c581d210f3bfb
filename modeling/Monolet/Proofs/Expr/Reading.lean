import Monolet.Proofs.Expr.Grammar
import Monolet.Proofs.Parser.Reading

/-!
# What the expression parsers read

One rule for each alternative of an atom says which tokens it reads and what it makes of them, given what is read inside
it (`ReadsAtom`). The alternatives start with different tokens, so that their order plays no part, and an atom is
read exactly when one of the rules applies (`reads_atom`). Expressions are read from atoms (`reads_expression`), as
many as there are, and the bound on nesting has gone.
-/

namespace Monolet

namespace Expr

open Monolet.Parser

variable {inner : Parser Expr} {ts us : List Token} {e : Expr}

/-! ## Names and literals -/

instance : ident.Local := local_select ..

instance : boolean.Local := local_select ..

instance : stringLiteral.Local := local_select ..

theorem reads_ident {x : Ident} : ident.reads ts = some (x, us) ↔ ts = ⟨.ident x.name, x.span⟩ :: us := by
  rw [ident, reads_select]
  constructor
  · rintro ⟨⟨lexeme, span⟩, rfl, accepted⟩
    cases lexeme with
    | ident name =>
      cases accepted
      rfl
    | _ => cases accepted
  · rintro rfl
    exact ⟨_, rfl, rfl⟩

theorem reads_boolean :
    boolean.reads ts = some (e, us) ↔ ∃ b span, ts = ⟨.keyword (keywordOf b), span⟩ :: us ∧ e = bool b span := by
  rw [boolean, reads_select]
  constructor
  · rintro ⟨⟨lexeme, span⟩, rfl, accepted⟩
    cases lexeme with
    | keyword word =>
      cases word with
      | trueKw =>
        cases accepted
        exact ⟨true, span, rfl, rfl⟩
      | falseKw =>
        cases accepted
        exact ⟨false, span, rfl, rfl⟩
      | _ => cases accepted
    | _ => cases accepted
  · rintro ⟨b, span, rfl, rfl⟩
    refine ⟨_, rfl, ?_⟩
    cases b <;> rfl

theorem reads_stringLiteral :
    stringLiteral.reads ts = some (e, us) ↔
      ∃ written span, ts = ⟨.string written, span⟩ :: us ∧ e = string (Quoted.decode written) span := by
  rw [stringLiteral, reads_select]
  constructor
  · rintro ⟨⟨lexeme, span⟩, rfl, accepted⟩
    cases lexeme with
    | string written =>
      cases accepted
      exact ⟨written, span, rfl, rfl⟩
    | _ => cases accepted
  · rintro ⟨written, span, rfl, rfl⟩
    exact ⟨_, rfl, rfl⟩

theorem ofDigits_eq_ok {digits : String} {span : Span} :
    ofDigits digits span = .ok e ↔
      ∃ n, Decimal.read? digits.toList = some n ∧ n ≤ maxInt ∧ e = int (Int64.ofNat n) span := by
  rw [ofDigits]
  cases h : Decimal.read? digits.toList with
  | none => simp
  | some n =>
    by_cases fits : n ≤ maxInt
    · simp [Option.filter, fits, eq_comm]
    · simp [Option.filter, fits]

/-- Read a run of digits. -/
def digits : Parser (String × Span) :=
  select "integer" fun token =>
    match token.lexeme with
    | .integer digits => some (digits, token.span)
    | _ => none

instance : digits.Local := local_select ..

theorem integer_eq : integer = digits.refine fun (digits, span) => ofDigits digits span := rfl

instance : integer.Local := inferInstanceAs (Local (digits.refine _))

theorem reads_integer :
    integer.reads ts = some (e, us) ↔
      ∃ digits span n, ts = ⟨.integer digits, span⟩ :: us ∧ Decimal.read? digits.toList = some n ∧ n ≤ maxInt ∧
        e = int (Int64.ofNat n) span := by
  rw [integer_eq, reads_refine_eq_some]
  constructor
  · rintro ⟨⟨text, span⟩, taken, ok⟩
    obtain ⟨n, read, fits, rfl⟩ := ofDigits_eq_ok.1 ok
    obtain ⟨⟨lexeme, _⟩, rfl, accepted⟩ := reads_select.1 taken
    cases lexeme with
    | integer =>
      cases accepted
      exact ⟨text, _, n, rfl, read, fits, rfl⟩
    | _ => cases accepted
  · rintro ⟨text, span, n, rfl, read, fits, rfl⟩
    exact ⟨(text, span), reads_select.2 ⟨_, rfl, rfl⟩, ofDigits_eq_ok.2 ⟨n, read, fits, rfl⟩⟩

/-! ## Lambda, `let` and `if` -/

section

variable [inner.Local]

instance : (lambda inner).Local := by
  unfold lambda
  infer_instance

instance : (letExpr inner).Local := by
  unfold letExpr
  infer_instance

instance : (ifExpr inner).Local := by
  unfold ifExpr
  infer_instance

theorem reads_lambda :
    (lambda inner).reads ts = some (e, us) ↔
      ∃ start x arrow vs body, ts = ⟨.backslash, start⟩ :: ⟨.ident x.name, x.span⟩ :: ⟨.arrow, arrow⟩ :: vs ∧
        inner.reads vs = some (body, us) ∧ e = lam x body (start.merge body.span) := by
  simp only [lambda, reads_bind_eq_some, reads_symbol, reads_ident, reads_pure]
  constructor
  · rintro ⟨⟨_, start⟩, _, ⟨rfl, rfl⟩, x, _, rfl, ⟨_, arrow⟩, vs, ⟨rfl, rfl⟩, body, ws, read, eq⟩
    cases eq
    exact ⟨start, x, arrow, vs, body, rfl, read, rfl⟩
  · rintro ⟨start, x, arrow, vs, body, rfl, read, rfl⟩
    exact ⟨⟨.backslash, start⟩, _, ⟨rfl, rfl⟩, x, _, rfl, ⟨.arrow, arrow⟩, vs, ⟨rfl, rfl⟩, body, us, read, rfl⟩

theorem reads_letExpr :
    (letExpr inner).reads ts = some (e, us) ↔
      ∃ start marked x equals vs value inSpan ws body,
        ts = ⟨.keyword .letKw, start⟩ :: (recTokens marked ++ ⟨.ident x.name, x.span⟩ :: ⟨.equals, equals⟩ :: vs) ∧
        inner.reads vs = some (value, ⟨.keyword .inKw, inSpan⟩ :: ws) ∧ inner.reads ws = some (body, us) ∧
        e = letIn (marked.isSome || x.name ∈ value.freeVars) x value body (start.merge body.span) := by
  simp only [letExpr, reads_bind_eq_some, reads_symbol, reads_ident, reads_pure, reads_optional_eq_some]
  constructor
  · rintro ⟨⟨_, start⟩, as, ⟨rfl, rfl⟩, marked, bs, tried, x, _, rfl, ⟨_, equals⟩, vs, ⟨rfl, rfl⟩, value, _, readV,
      ⟨_, inSpan⟩, ws, ⟨rfl, rfl⟩, body, _, readB, eq⟩
    cases eq
    obtain ⟨⟨_, span⟩, rfl, rfl, rfl⟩ | ⟨rfl, rfl, -⟩ := tried
    · exact ⟨start, some span, x, equals, vs, value, inSpan, ws, body, rfl, readV, readB, rfl⟩
    · exact ⟨start, none, x, equals, vs, value, inSpan, ws, body, rfl, readV, readB, rfl⟩
  · rintro ⟨start, marked, x, equals, vs, value, inSpan, ws, body, rfl, readV, readB, rfl⟩
    refine ⟨⟨.keyword .letKw, start⟩, _, ⟨rfl, rfl⟩, marked.map (⟨.keyword .recKw, ·⟩),
      ⟨.ident x.name, x.span⟩ :: ⟨.equals, equals⟩ :: vs, ?_, x, _, rfl, ⟨.equals, equals⟩, vs, ⟨rfl, rfl⟩, value, _,
      readV, ⟨.keyword .inKw, inSpan⟩, ws, ⟨rfl, rfl⟩, body, us, readB, ?_⟩
    · cases marked with
      | none =>
        have other : (⟨.ident x.name, x.span⟩ : Token).lexeme ≠ .keyword .recKw := nofun
        exact .inr ⟨rfl, rfl, reads_symbol_of_ne other _⟩
      | some span => exact .inl ⟨_, rfl, rfl, rfl⟩
    · rw [Option.isSome_map]

theorem reads_ifExpr :
    (ifExpr inner).reads ts = some (e, us) ↔
      ∃ start vs c thenSpan ws t elseSpan xs f, ts = ⟨.keyword .ifKw, start⟩ :: vs ∧
        inner.reads vs = some (c, ⟨.keyword .thenKw, thenSpan⟩ :: ws) ∧
        inner.reads ws = some (t, ⟨.keyword .elseKw, elseSpan⟩ :: xs) ∧ inner.reads xs = some (f, us) ∧
        e = cond c t f (start.merge f.span) := by
  simp only [ifExpr, reads_bind_eq_some, reads_symbol, reads_pure]
  constructor
  · rintro ⟨⟨_, start⟩, vs, ⟨rfl, rfl⟩, c, _, readC, ⟨_, thenSpan⟩, ws, ⟨rfl, rfl⟩, t, _, readT, ⟨_, elseSpan⟩, xs,
      ⟨rfl, rfl⟩, f, _, readF, eq⟩
    cases eq
    exact ⟨start, vs, c, thenSpan, ws, t, elseSpan, xs, f, rfl, readC, readT, readF, rfl⟩
  · rintro ⟨start, vs, c, thenSpan, ws, t, elseSpan, xs, f, rfl, readC, readT, readF, rfl⟩
    exact ⟨⟨.keyword .ifKw, start⟩, vs, ⟨rfl, rfl⟩, c, _, readC, ⟨.keyword .thenKw, thenSpan⟩, ws, ⟨rfl, rfl⟩, t, _,
      readT, ⟨.keyword .elseKw, elseSpan⟩, xs, ⟨rfl, rfl⟩, f, us, readF, rfl⟩

/-! ## Atoms -/

/-- What an atom is read from, given what `inner` reads. -/
inductive ReadsAtom (inner : Parser Expr) : List Token → Expr → List Token → Prop where
  | bracketed {ts us : List Token} {e : Expr} (left right : Span)
      (read : inner.reads ts = some (e, ⟨.rparen, right⟩ :: us)) :
      ReadsAtom inner (⟨.lparen, left⟩ :: ts) e us
  | lambda {ts us : List Token} {body : Expr} (start : Span) (x : Ident) (arrow : Span)
      (read : inner.reads ts = some (body, us)) :
      ReadsAtom inner (⟨.backslash, start⟩ :: ⟨.ident x.name, x.span⟩ :: ⟨.arrow, arrow⟩ :: ts)
        (lam x body (start.merge body.span)) us
  | letIn {ts us vs : List Token} {value body : Expr} (start : Span) (marked : Option Span) (x : Ident)
      (equals inSpan : Span)
      (readValue : inner.reads ts = some (value, ⟨.keyword .inKw, inSpan⟩ :: us))
      (readBody : inner.reads us = some (body, vs)) :
      ReadsAtom inner
        (⟨.keyword .letKw, start⟩ :: (recTokens marked ++ ⟨.ident x.name, x.span⟩ :: ⟨.equals, equals⟩ :: ts))
        (letIn (marked.isSome || x.name ∈ value.freeVars) x value body (start.merge body.span)) vs
  | cond {ts us vs ws : List Token} {c t e : Expr} (start thenSpan elseSpan : Span)
      (readCondition : inner.reads ts = some (c, ⟨.keyword .thenKw, thenSpan⟩ :: us))
      (readThen : inner.reads us = some (t, ⟨.keyword .elseKw, elseSpan⟩ :: vs))
      (readElse : inner.reads vs = some (e, ws)) :
      ReadsAtom inner (⟨.keyword .ifKw, start⟩ :: ts) (cond c t e (start.merge e.span)) ws
  | var {ts : List Token} (x : Ident) : ReadsAtom inner (⟨.ident x.name, x.span⟩ :: ts) (var x) ts
  | int {ts : List Token} (digits : String) (span : Span) {n : Nat}
      (written : Decimal.read? digits.toList = some n) (fits : n ≤ maxInt) :
      ReadsAtom inner (⟨.integer digits, span⟩ :: ts) (int (Int64.ofNat n) span) ts
  | bool {ts : List Token} (b : Bool) (span : Span) :
      ReadsAtom inner (⟨.keyword (keywordOf b), span⟩ :: ts) (bool b span) ts
  | string {ts : List Token} (written : String) (span : Span) :
      ReadsAtom inner (⟨.string written, span⟩ :: ts) (string (Quoted.decode written) span) ts

/-- Which of the alternatives of an atom starts with the lexeme, or 8 if none does. -/
def alternative : Lexeme → Nat
  | .lparen => 0
  | .backslash => 1
  | .keyword .letKw => 2
  | .keyword .ifKw => 3
  | .ident _ => 4
  | .integer _ => 5
  | .keyword .trueKw | .keyword .falseKw => 6
  | .string _ => 7
  | _ => 8

/-- The first token of what `p` reads belongs to an alternative that `S` holds for. -/
def Opens (p : Parser Expr) (S : Nat → Prop) : Prop :=
  ∀ ts x, p.reads ts = some x → ∃ token us, ts = token :: us ∧ S (alternative token.lexeme)

theorem Opens.mono {p : Parser Expr} {S T : Nat → Prop} (h : Opens p S) (le : ∀ n, S n → T n) : Opens p T := by
  intro ts x read
  obtain ⟨token, us, eq, hn⟩ := h ts x read
  exact ⟨token, us, eq, le _ hn⟩

/-- Alternatives that start with different tokens may be tried in any order. -/
theorem Opens.orElse {p q : Parser Expr} [p.Local] [q.Local] {n : Nat} (hp : Opens p (· = n)) (hq : Opens q (n < ·)) :
    (p <|> q).reads ts = some (e, us) ↔ p.reads ts = some (e, us) ∨ q.reads ts = some (e, us) := by
  refine reads_orElse_eq_some ?_
  cases readP : p.reads ts with
  | none => exact .inl rfl
  | some x =>
    cases readQ : q.reads ts with
    | none => exact .inr rfl
    | some y =>
      obtain ⟨token, _, rfl, first⟩ := hp ts x readP
      obtain ⟨_, _, eq, second⟩ := hq _ y readQ
      cases eq
      omega

theorem Opens.orElse_after {p q : Parser Expr} [p.Local] [q.Local] {n : Nat} (hp : Opens p (· = n + 1))
    (hq : Opens q (n + 1 < ·)) : Opens (p <|> q) (n < ·) := by
  intro ts x read
  obtain first | second := hp.orElse hq |>.1 read
  · exact hp.mono (fun _ eq => by omega) ts x first
  · exact hq.mono (fun _ lt => by omega) ts x second

instance : (atom inner).Local := by
  unfold atom
  infer_instance

theorem reads_var : (var <$> ident).reads ts = some (e, us) ↔ ∃ x, ts = ⟨.ident x.name, x.span⟩ :: us ∧ e = var x := by
  rw [reads_map, Option.map_eq_some_iff]
  constructor
  · rintro ⟨⟨x, vs⟩, read, eq⟩
    cases eq
    exact ⟨x, reads_ident.1 read, rfl⟩
  · rintro ⟨x, rfl, rfl⟩
    exact ⟨(x, us), reads_ident.2 rfl, rfl⟩

/-- The alternatives of an atom are tried in the order of their numbers, but any order would do. -/
theorem reads_atom_eq_some :
    (atom inner).reads ts = some (e, us) ↔
      (bracketed inner).reads ts = some (e, us) ∨ (lambda inner).reads ts = some (e, us) ∨
      (letExpr inner).reads ts = some (e, us) ∨ (ifExpr inner).reads ts = some (e, us) ∨
      (var <$> ident).reads ts = some (e, us) ∨ integer.reads ts = some (e, us) ∨
      boolean.reads ts = some (e, us) ∨ stringLiteral.reads ts = some (e, us) := by
  have bracketedAt : Opens (bracketed inner) (· = 0) := fun _ _ read => by
    obtain ⟨left, _, vs, rfl, -⟩ := reads_bracketed_eq_some.1 read
    exact ⟨_, _, rfl, rfl⟩
  have lambdaAt : Opens (lambda inner) (· = 1) := fun _ _ read => by
    obtain ⟨_, _, _, _, _, rfl, -⟩ := reads_lambda.1 read
    exact ⟨_, _, rfl, rfl⟩
  have letAt : Opens (letExpr inner) (· = 2) := fun _ _ read => by
    obtain ⟨_, _, _, _, _, _, _, _, _, rfl, -⟩ := reads_letExpr.1 read
    exact ⟨_, _, rfl, rfl⟩
  have ifAt : Opens (ifExpr inner) (· = 3) := fun _ _ read => by
    obtain ⟨_, _, _, _, _, _, _, _, _, rfl, -⟩ := reads_ifExpr.1 read
    exact ⟨_, _, rfl, rfl⟩
  have varAt : Opens (var <$> ident) (· = 4) := fun _ _ read => by
    obtain ⟨_, rfl, -⟩ := reads_var.1 read
    exact ⟨_, _, rfl, rfl⟩
  have integerAt : Opens integer (· = 5) := fun _ _ read => by
    obtain ⟨_, _, _, rfl, -⟩ := reads_integer.1 read
    exact ⟨_, _, rfl, rfl⟩
  have booleanAt : Opens boolean (· = 6) := fun _ _ read => by
    obtain ⟨b, _, rfl, -⟩ := reads_boolean.1 read
    exact ⟨_, _, rfl, by cases b <;> rfl⟩
  have stringAfter : Opens stringLiteral (6 < ·) := fun _ _ read => by
    obtain ⟨_, _, rfl, -⟩ := reads_stringLiteral.1 read
    exact ⟨_, _, rfl, Nat.lt_succ_self 6⟩
  have after5 := booleanAt.orElse_after stringAfter
  have after4 := integerAt.orElse_after after5
  have after3 := varAt.orElse_after after4
  have after2 := ifAt.orElse_after after3
  have after1 := letAt.orElse_after after2
  have after0 := lambdaAt.orElse_after after1
  rw [atom, reads_label, bracketedAt.orElse after0, lambdaAt.orElse after1, letAt.orElse after2, ifAt.orElse after3,
    varAt.orElse after4, integerAt.orElse after5, booleanAt.orElse stringAfter]

/-- An atom is read exactly by the rules. -/
theorem reads_atom : (atom inner).reads ts = some (e, us) ↔ ReadsAtom inner ts e us := by
  rw [reads_atom_eq_some, reads_bracketed_eq_some, reads_lambda, reads_letExpr, reads_ifExpr, reads_var, reads_integer,
    reads_boolean, reads_stringLiteral]
  constructor
  · rintro (⟨left, right, vs, rfl, read⟩ | ⟨start, x, arrow, vs, body, rfl, read, rfl⟩ |
      ⟨start, marked, x, equals, vs, value, inSpan, ws, body, rfl, readV, readB, rfl⟩ |
      ⟨start, vs, c, thenSpan, ws, t, elseSpan, xs, f, rfl, readC, readT, readF, rfl⟩ | ⟨x, rfl, rfl⟩ |
      ⟨digits, span, n, rfl, written, fits, rfl⟩ | ⟨b, span, rfl, rfl⟩ | ⟨written, span, rfl, rfl⟩)
    · exact .bracketed left right read
    · exact .lambda start x arrow read
    · exact .letIn start marked x equals inSpan readV readB
    · exact .cond start thenSpan elseSpan readC readT readF
    · exact .var x
    · exact .int digits span written fits
    · exact .bool b span
    · exact .string written span
  · intro h
    cases h with
    | bracketed left right read => exact .inl ⟨left, right, _, rfl, read⟩
    | lambda start x arrow read => exact .inr (.inl ⟨start, x, arrow, _, _, rfl, read, rfl⟩)
    | letIn start marked x equals inSpan readV readB =>
      exact .inr (.inr (.inl ⟨start, marked, x, equals, _, _, inSpan, _, _, rfl, readV, readB, rfl⟩))
    | cond start thenSpan elseSpan readC readT readF =>
      exact .inr (.inr (.inr (.inl ⟨start, _, _, thenSpan, _, _, elseSpan, _, _, rfl, readC, readT, readF, rfl⟩)))
    | var x => exact .inr (.inr (.inr (.inr (.inl ⟨x, rfl, rfl⟩))))
    | int digits span written fits =>
      exact .inr (.inr (.inr (.inr (.inr (.inl ⟨digits, span, _, rfl, written, fits, rfl⟩)))))
    | bool b span => exact .inr (.inr (.inr (.inr (.inr (.inr (.inl ⟨b, span, rfl, rfl⟩))))))
    | string written span => exact .inr (.inr (.inr (.inr (.inr (.inr (.inr ⟨written, span, rfl, rfl⟩))))))

theorem ReadsAtom.length_lt (h : ReadsAtom inner ts e us) : us.length < ts.length := by
  cases h with
  | bracketed left right read =>
    have shorter := length_le_of_reads read
    simp only [List.length_cons] at *
    omega
  | lambda start x arrow read =>
    have shorter := length_le_of_reads read
    simp only [List.length_cons] at *
    omega
  | letIn start marked x equals inSpan readV readB =>
    have shorter := length_le_of_reads readV
    have shorter' := length_le_of_reads readB
    simp only [List.length_cons, List.length_append] at *
    omega
  | cond start thenSpan elseSpan readC readT readF =>
    have shorter := length_le_of_reads readC
    have shorter' := length_le_of_reads readT
    have shorter'' := length_le_of_reads readF
    simp only [List.length_cons] at *
    omega
  | var | int | bool | string => simp

theorem progresses_atom : (atom inner).Progresses := fun read => (reads_atom.1 read).length_lt

/-! ## Nesting -/

/-- What is read inside an atom comes after a token of the atom. -/
theorem ReadsAtom.of_agreeBelow {other : Parser Expr} {n : Nat} (agree : AgreeBelow n inner other)
    (less : ts.length < n + 1) (h : ReadsAtom inner ts e us) : ReadsAtom other ts e us := by
  cases h with
  | bracketed left right read =>
    simp only [List.length_cons] at less
    rw [agree _ (by omega)] at read
    exact .bracketed left right read
  | lambda start x arrow read =>
    simp only [List.length_cons] at less
    rw [agree _ (by omega)] at read
    exact .lambda start x arrow read
  | letIn start marked x equals inSpan readV readB =>
    have shorter := length_le_of_reads readV
    simp only [List.length_cons, List.length_append] at less shorter
    rw [agree _ (by omega)] at readV readB
    exact .letIn start marked x equals inSpan readV readB
  | cond start thenSpan elseSpan readC readT readF =>
    have shorter := length_le_of_reads readC
    have shorter' := length_le_of_reads readT
    simp only [List.length_cons] at less shorter shorter'
    rw [agree _ (by omega)] at readC readT readF
    exact .cond start thenSpan elseSpan readC readT readF
  | var x => exact .var x
  | int digits span written fits => exact .int digits span written fits
  | bool b span => exact .bool b span
  | string written span => exact .string written span

theorem agreeBelow_atom {other : Parser Expr} [other.Local] {n : Nat} (agree : AgreeBelow n inner other) :
    AgreeBelow (n + 1) (atom inner) (atom other) := by
  intro ts less
  refine Option.ext fun (e, us) => ?_
  rw [reads_atom, reads_atom]
  exact ⟨.of_agreeBelow agree less, .of_agreeBelow agree.symm less⟩

end

section

variable {p q : Parser Expr} [p.Local] [q.Local]

instance : (spine p).Local := by
  unfold spine
  infer_instance

theorem reads_spine (ts : List Token) :
    (spine p).reads ts =
      (p.reads ts).bind fun (f, us) => (p.many.reads us).bind fun (args, vs) => some (f.applyAll args, vs) := by
  simp only [spine, reads_bind, reads_pure]

theorem agreeBelow_spine {n : Nat} (agree : AgreeBelow n p q) : AgreeBelow n (spine p) (spine q) := by
  intro ts less
  rw [reads_spine, reads_spine, agree ts less]
  cases h : q.reads ts with
  | none => rfl
  | some x =>
    obtain ⟨f, us⟩ := x
    have shorter := length_le_of_reads h
    simp only [Option.bind_some, agree.many us (by omega)]

end

instance (n : Nat) : (within n).Local := by
  induction n with
  | zero => exact local_of_readsAt (g := fun _ => none) (fun _ => rfl) (fun _ => rfl) fun _ _ _ h => by cases h
  | succ n ih => exact inferInstanceAs (Local (spine (atom (within n))))

instance : expression.Local := inferInstanceAs (Local (sized within))

theorem reads_expression_eq (ts : List Token) : expression.reads ts = (spine (atom expression)).reads ts :=
  reads_sized_eq (F := fun p => spine (atom p)) (fun _ => rfl)
    (fun agree => agreeBelow_spine (agreeBelow_atom agree)) ts

/-- An expression is a row of atoms, as many as there are. -/
theorem reads_expression :
    expression.reads ts = some (e, us) ↔
      ∃ f args, Repeats (atom expression) ts (f :: args) us ∧ e = f.applyAll args := by
  rw [reads_expression_eq, reads_spine, Option.bind_eq_some_iff]
  constructor
  · rintro ⟨⟨f, vs⟩, first, h⟩
    obtain ⟨⟨args, ws⟩, more, eq⟩ := Option.bind_eq_some_iff.1 h
    cases eq
    exact ⟨f, args, .cons first (progresses_atom.reads_many_eq_some.1 more), rfl⟩
  · rintro ⟨f, args, row, rfl⟩
    cases row with
    | cons first more =>
      refine ⟨(f, _), first, Option.bind_eq_some_iff.2 ⟨(args, us), ?_, rfl⟩⟩
      exact progresses_atom.reads_many_eq_some.2 more

end Expr

end Monolet
