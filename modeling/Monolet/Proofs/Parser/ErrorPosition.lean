import Mathlib
import Monolet.Proofs.Expr.Recognition
import Monolet.Proofs.Parser.Furthest
import Monolet.Proofs.Ty.Recognition

/-!
# Parse errors point at the first offending token

The parsers for expressions and types are traced in the languages of their grammars. So the failure that is reported is
about the first token that cannot stand where it does, or about the end of the tokens if there is no such token. For
expressions the refused tokens are the integers that are too large. No expression contains one, wherever it stands.
-/

namespace Monolet

open Monolet.Parser

open scoped Computability

/-! ## Expressions -/

namespace Expr

/-- What the grammar derives with integers in range. -/
def sentences (c : Category) : Language Token :=
  {w | ∃ d : Derivation c, d.tokens = w ∧ ∀ token ∈ w, fits token.lexeme = true}

/-- An integer that is too large. -/
def Unfit (token : Token) : Prop := fits token.lexeme = false

/-- The tokens that are a name. -/
def names : Language Token := {w | ∃ x : Ident, w = [⟨.ident x.name, x.span⟩]}

instance : Possible names := ⟨_, ⟨"x", default⟩, rfl⟩

instance : Possible (sentences .atom) := by
  refine ⟨_, .var ⟨"x", default⟩, rfl, ?_⟩
  simp [Derivation.tokens, fits]

theorem row_le : sentences .atom * (sentences .atom)∗ ≤ sentences .expression := by
  have one : 1 ≤ sentences .atoms := by
    rintro _ rfl
    exact ⟨.nil, rfl, List.forall_mem_nil _⟩
  have cons : sentences .atom * sentences .atoms ≤ sentences .atoms := by
    rintro _ ⟨_, ⟨a, rfl, fitsA⟩, _, ⟨row, rfl, fitsRow⟩, rfl⟩
    exact ⟨.cons a row, rfl, List.forall_mem_append.2 ⟨fitsA, fitsRow⟩⟩
  have atoms : (sentences .atom)∗ ≤ sentences .atoms := kstar_le_of_mul_le_right one cons
  rintro _ ⟨_, ⟨a, rfl, fitsA⟩, _, more, rfl⟩
  obtain ⟨row, rfl, fitsRow⟩ := atoms more
  exact ⟨.spine a row, rfl, List.forall_mem_append.2 ⟨fitsA, fitsRow⟩⟩

instance : Possible (sentences .expression) := by
  obtain ⟨w, hw⟩ := Possible.word (L := sentences .atom * (sentences .atom)∗)
  exact ⟨w, row_le hw⟩

theorem bracketed_le : just .lparen * sentences .expression * just .rparen ≤ sentences .atom := by
  rintro _ ⟨_, ⟨_, ⟨left, rfl⟩, _, ⟨d, rfl, fit⟩, rfl⟩, _, ⟨right, rfl⟩, rfl⟩
  refine ⟨.bracketed left d right, rfl, ?_⟩
  simp only [List.forall_mem_append, List.forall_mem_singleton]
  exact ⟨⟨rfl, fit⟩, rfl⟩

theorem lambda_le :
    just .backslash * (names * (just .arrow * sentences .expression)) ≤ sentences .atom := by
  rintro _ ⟨_, ⟨start, rfl⟩, _, ⟨_, ⟨x, rfl⟩, _, ⟨_, ⟨arrow, rfl⟩, _, ⟨d, rfl, fit⟩, rfl⟩, rfl⟩, rfl⟩
  refine ⟨.lambda start x arrow d, rfl, ?_⟩
  simp only [List.forall_mem_append, List.forall_mem_singleton]
  exact ⟨rfl, rfl, rfl, fit⟩

theorem letExpr_le :
    just (.keyword .letKw) * ((just (.keyword .recKw) + 1) * (names * (just .equals * (sentences .expression *
      (just (.keyword .inKw) * sentences .expression))))) ≤ sentences .atom := by
  rintro _ ⟨_, ⟨start, rfl⟩, _, ⟨mark, isMark, _, ⟨_, ⟨x, rfl⟩, _, ⟨_, ⟨equals, rfl⟩, _, ⟨_, ⟨value, rfl, fitsV⟩, _,
    ⟨_, ⟨inSpan, rfl⟩, _, ⟨body, rfl, fitsB⟩, rfl⟩, rfl⟩, rfl⟩, rfl⟩, rfl⟩, rfl⟩
  obtain ⟨marked, rfl⟩ : ∃ marked, mark = recTokens marked := by
    obtain ⟨span, rfl⟩ | rfl := isMark
    · exact ⟨some span, rfl⟩
    · exact ⟨none, rfl⟩
  refine ⟨.letIn start marked x equals value inSpan body, rfl, ?_⟩
  simp only [List.forall_mem_append, List.forall_mem_singleton]
  exact ⟨rfl, fits_recTokens marked, rfl, rfl, fitsV, rfl, fitsB⟩

theorem ifExpr_le :
    just (.keyword .ifKw) * (sentences .expression * (just (.keyword .thenKw) * (sentences .expression *
      (just (.keyword .elseKw) * sentences .expression)))) ≤ sentences .atom := by
  rintro _ ⟨_, ⟨start, rfl⟩, _, ⟨_, ⟨c, rfl, fitsC⟩, _, ⟨_, ⟨thenSpan, rfl⟩, _, ⟨_, ⟨t, rfl, fitsT⟩, _,
    ⟨_, ⟨elseSpan, rfl⟩, _, ⟨e, rfl, fitsE⟩, rfl⟩, rfl⟩, rfl⟩, rfl⟩, rfl⟩
  refine ⟨.cond start c thenSpan t elseSpan e, rfl, ?_⟩
  simp only [List.forall_mem_append, List.forall_mem_singleton]
  exact ⟨rfl, fitsC, rfl, fitsT, rfl, fitsE⟩

theorem tracks_ident {n : Nat} : Tracks Unfit n names ident ident := by
  refine fun s _ => .select (fun token x taken => ?_) s
  have read : ident.reads [token] = some (x, []) := reads_select.2 ⟨token, rfl, taken⟩
  exact ⟨x, reads_ident.1 read⟩

theorem tracks_boolean {n : Nat} : Tracks Unfit n (sentences .atom) boolean boolean := by
  refine fun s _ => .select (fun token e taken => ?_) s
  have read : boolean.reads [token] = some (e, []) := reads_select.2 ⟨token, rfl, taken⟩
  obtain ⟨b, span, eq, -⟩ := reads_boolean.1 read
  rw [eq]
  exact ⟨.bool b span, rfl, List.forall_mem_singleton.2 rfl⟩

theorem tracks_stringLiteral {n : Nat} : Tracks Unfit n (sentences .atom) stringLiteral stringLiteral := by
  refine fun s _ => .select (fun token e taken => ?_) s
  have read : stringLiteral.reads [token] = some (e, []) := reads_select.2 ⟨token, rfl, taken⟩
  obtain ⟨written, span, eq, -⟩ := reads_stringLiteral.1 read
  rw [eq]
  exact ⟨.string written span, rfl, List.forall_mem_singleton.2 rfl⟩

theorem tracks_var {n : Nat} : Tracks Unfit n (sentences .atom) (var <$> ident) (var <$> ident) := by
  refine (tracks_ident.map var).mono ?_
  rintro _ ⟨x, rfl⟩
  exact ⟨.var x, rfl, List.forall_mem_singleton.2 rfl⟩

theorem ofDigits_eq_error {text : String} {span : Span} {e : ParseError} (h : ofDigits text span = .error e) :
    e.span = some span ∧ fits (.integer text) = false := by
  rw [ofDigits] at h
  split at h
  next => cases h
  next none =>
    cases h
    refine ⟨rfl, Bool.eq_false_iff.2 fun fit => ?_⟩
    obtain ⟨n, written, le⟩ := fits_integer.1 fit
    simp [written, Option.filter, le] at none

/-- An integer is the one literal that can be refused after its token has been read. -/
theorem tracks_integer {n : Nat} : Tracks Unfit n (sentences .atom) integer integer := by
  intro s _
  have fails {ts : List Token} (other : ∀ text span, ts.head? ≠ some ⟨.integer text, span⟩) :
      integer.reads ts = none := by
    refine reads_eq_none fun e us read => ?_
    obtain ⟨text, span, _, rfl, -⟩ := reads_integer.1 read
    exact other text span rfl
  by_cases isInteger : ∃ text span, s.peek = some ⟨.integer text, span⟩
  · obtain ⟨text, span, next⟩ := isInteger
    cases judged : ofDigits text span with
    | ok e =>
      have ran : integer s = .ok e s.advance := by
        simp only [integer_eq, refine_eq, bind, EStateM.bind, digits, select, next, judge, judged]
        rfl
      obtain ⟨m, written, le, rfl⟩ := ofDigits_eq_ok.1 judged
      have fit : fits (.integer text) = true := fits_integer.2 ⟨m, written, le⟩
      have mem : [⟨.integer text, span⟩] ∈ sentences .atom :=
        ⟨.int text span, rfl, List.forall_mem_singleton.2 fit⟩
      rw [ran]
      exact .take next mem fun ts => reads_integer.2 ⟨text, span, m, rfl, written, le, rfl⟩
    | error e =>
      have ran : integer s = reject e s.advance := by
        simp only [integer_eq, refine_eq, bind, EStateM.bind, digits, select, next, judge, judged]
      obtain ⟨place, unfit⟩ := ofDigits_eq_error judged
      rw [ran]
      refine .refuse next place unfit fun ts => reads_eq_none fun e us read => ?_
      obtain ⟨_, _, m, eq, written, le, -⟩ := reads_integer.1 read
      cases eq
      rw [fits_integer.2 ⟨m, written, le⟩] at unfit
      cases unfit
  · obtain ⟨e, about, rejected⟩ : ∃ e : ParseError, e.About s.all s.index ∧ digits s = reject e s := by
      refine select_eq_reject "integer" (Option.bind_eq_none_iff.2 fun token next => ?_)
      obtain ⟨lexeme, span⟩ := token
      cases lexeme with
      | integer text => exact absurd ⟨text, span, next⟩ isInteger
      | _ => rfl
    have ran : integer s = reject e s := by
      simp only [integer_eq, refine_eq, bind, EStateM.bind, rejected]
      rfl
    rw [ran]
    exact .reject about fun ts head => fails fun text span eq => isInteger ⟨text, span, head ▸ eq⟩

section

variable {inner : Parser Expr} {n : Nat} (h : Tracks Unfit n (sentences .expression) inner expression)

include h

theorem tracks_lambda : Tracks Unfit (n + 1) (sentences .atom) (lambda inner) (lambda expression) :=
  .mono (.after_symbol .backslash fun _ => tracks_ident.bind fun _ => (Tracks.symbol .arrow).bind fun _ =>
    h.bind_pure _) lambda_le

theorem tracks_letExpr : Tracks Unfit (n + 1) (sentences .atom) (letExpr inner) (letExpr expression) :=
  .mono (.after_symbol _ fun _ => (Tracks.symbol _).optional.bind fun _ => tracks_ident.bind fun _ =>
    (Tracks.symbol _).bind fun _ => h.bind fun _ => (Tracks.symbol _).bind fun _ => h.bind_pure _) letExpr_le

theorem tracks_ifExpr : Tracks Unfit (n + 1) (sentences .atom) (ifExpr inner) (ifExpr expression) :=
  .mono (.after_symbol _ fun _ => h.bind fun _ => (Tracks.symbol _).bind fun _ => h.bind fun _ =>
    (Tracks.symbol _).bind fun _ => h.bind_pure _) ifExpr_le

theorem tracks_atom : Tracks Unfit (n + 1) (sentences .atom) (atom inner) (atom expression) := by
  refine .label "expression" ((h.bracketed.mono bracketed_le).orElse ((tracks_lambda h).orElse
    ((tracks_letExpr h).orElse ((tracks_ifExpr h).orElse (tracks_var.orElse (tracks_integer.orElse
    (tracks_boolean.orElse tracks_stringLiteral)))))))

theorem tracks_spine [inner.Local] :
    Tracks Unfit (n + 1) (sentences .expression) (spine (atom inner)) (spine (atom expression)) :=
  have atoms := tracks_atom h
  .mono (atoms.bind fun _ => (atoms.many progresses_atom progresses_atom).bind_pure _) row_le

end

/-- Nested expressions come after a token of their own, so the bound on nesting falls with the tokens left. -/
theorem tracks_within (n : Nat) : Tracks Unfit n (sentences .expression) (within n) expression := by
  induction n with
  | zero => exact fun s lt => absurd lt (Nat.not_lt_zero _)
  | succ n ih => exact (tracks_spine ih).congr reads_expression_eq

/-- An expression ends where no further atom can be read. -/
theorem halts_within (n : Nat) : Halts n (within n) := by
  cases n with
  | zero => exact fun s _ _ lt => absurd lt (Nat.not_lt_zero _)
  | succ n =>
    intro s e s' lt ran
    have atoms := tracks_atom (tracks_within n)
    obtain ⟨f, s₁, first, more⟩ := bind_eq_ok ran
    obtain ⟨args, s₂, repeated, eq⟩ := bind_eq_ok more
    cases eq
    have less := progresses_atom.remaining_lt first
    exact Halts.many progresses_atom atoms s₁ args _ (less.trans lt) repeated

end Expr

/-! ## Types -/

namespace Ty

/-- What the grammar derives. -/
def sentences (c : Category) : Language Token := {w | ∃ d : Derivation c, d.tokens = w}

/-- No token is refused after it has been read. -/
def Unfit (_ : Token) : Prop := False

instance : Possible (sentences .atom) := ⟨_, .int default, rfl⟩

instance : Possible (sentences .type) := ⟨_, .single (.int default), rfl⟩

theorem bracketed_le : just .lparen * sentences .type * just .rparen ≤ sentences .atom := by
  rintro _ ⟨_, ⟨_, ⟨left, rfl⟩, _, ⟨d, rfl⟩, rfl⟩, _, ⟨right, rfl⟩, rfl⟩
  exact ⟨.bracketed left d right, rfl⟩

theorem arrow_le : sentences .atom * (just .arrow * sentences .type + 1) ≤ sentences .type := by
  rintro _ ⟨_, ⟨a, rfl⟩, _, ⟨_, ⟨arrow, rfl⟩, _, ⟨d, rfl⟩, rfl⟩ | rfl, rfl⟩
  · exact ⟨.fn a arrow d, rfl⟩
  · exact ⟨.single a, (List.append_nil _).symm⟩

theorem span_of_ofToken_eq_error {token : Token} {e : ParseError} (h : ofToken token = .error e) :
    e.span = some token.span := by
  rw [ofToken] at h
  split at h
  · cases h
  · cases h
  · cases h
  · cases h
    rfl
  · split at h
    · cases h
    · cases h
      rfl
  · cases h
    rfl

theorem tracks_named {n : Nat} : Tracks Unfit n (sentences .atom) named named := by
  intro s _
  have fails {ts : List Token} (other : ∀ token t, ts.head? = some token → ofToken token ≠ .ok t) :
      named.reads ts = none := by
    refine reads_eq_none fun t us read => ?_
    obtain ⟨token, rfl, ok⟩ := reads_named.1 read
    exact other token t rfl ok
  rw [named]
  cases next : s.peek with
  | none =>
    have atEnd := next
    rw [TokenStream.peek_eq_all] at atEnd
    refine .reject ⟨by rw [atEnd]; rfl, fun _ => rfl⟩ fun ts head => fails fun token t eq => ?_
    rw [head, next] at eq
    cases eq
  | some token =>
    cases judged : ofToken token with
    | ok t =>
      obtain ⟨a, tokens, -⟩ := exists_derivation_of_ofToken judged
      simp only [judged]
      exact .take next ⟨a, tokens⟩ fun ts => reads_named.2 ⟨token, rfl, judged⟩
    | error e =>
      have here := next
      rw [TokenStream.peek_eq_all] at here
      have about : e.About s.all s.index := by
        refine ⟨?_, fun none => ?_⟩
        · rw [here]
          exact span_of_ofToken_eq_error judged
        · rw [here] at none
          cases none
      simp only [judged]
      refine .reject about fun ts head => fails fun token' t eq ok => ?_
      rw [head, next] at eq
      cases eq
      rw [judged] at ok
      cases ok

section

variable {inner : Parser Ty} {n : Nat} (h : Tracks Unfit n (sentences .type) inner monotype)

include h

theorem tracks_atom : Tracks Unfit (n + 1) (sentences .atom) (atom inner) (atom monotype) :=
  (h.bracketed.mono bracketed_le).orElse tracks_named

theorem tracks_result : Tracks Unfit (n + 1) (just .arrow * sentences .type) (result inner) (result monotype) :=
  .after_symbol .arrow fun _ => h

theorem tracks_arrow : Tracks Unfit (n + 1) (sentences .type) (arrow inner) (arrow monotype) := by
  rw [arrow_eq, arrow_eq]
  exact .mono ((tracks_atom h).bind fun _ => (tracks_result h).optional.bind_pure _) arrow_le

end

theorem tracks_within (n : Nat) : Tracks Unfit n (sentences .type) (within n) monotype := by
  induction n with
  | zero => exact fun s lt => absurd lt (Nat.not_lt_zero _)
  | succ n ih => exact (tracks_arrow ih).congr reads_monotype_eq

/-- A type ends where no arrow can be read, or the result behind it could not be. -/
theorem halts_within (n : Nat) : Halts n (within n) := by
  induction n with
  | zero => exact fun s _ _ lt => absurd lt (Nat.not_lt_zero _)
  | succ n ih =>
    intro s t s' lt ran
    have inner := tracks_within n
    rw [within, arrow_eq] at ran
    obtain ⟨arg, s₁, first, more⟩ := bind_eq_ok ran
    obtain ⟨res, s₂, tried, eq⟩ := bind_eq_ok more
    cases eq
    have atoms := tracks_atom inner s lt
    rw [first] at atoms
    have lt₁ := atoms.moves.remaining.trans_lt lt
    obtain ⟨res, rfl, read⟩ | ⟨e, s₃, rfl, failed, rfl⟩ := optional_eq_ok tried
    · obtain ⟨token, s₃, isArrow, later⟩ := bind_eq_ok read
      have less := Progresses.remaining_lt (progresses_symbol .arrow) isArrow
      exact ih s₃ res _ (by omega) later
    · have results := tracks_result inner s₁ lt₁
      rw [failed] at results
      exact results.index_lt_reach

end Ty

/-! ## The error of a whole text -/

namespace Parser

variable {α : Type} {p : Parser α} {ts : List Token} {e : ParseError}

/-- The tokens are the beginning of some that the parser accepts. -/
def Viable (p : Parser α) (ts : List Token) : Prop := ∃ rest a s, p.complete (.ofList (ts ++ rest)) = .ok a s

/-- The place of the error is the first token that no accepted tokens have there. If there is no such token, then the
error is that the tokens end too early, and more of them would have been accepted. -/
structure PointsAtFirst (p : Parser α) (ts : List Token) (e : ParseError) : Prop where
  offending : ∀ k token, ts[k]? = some token → ¬ p.Viable (ts.take (k + 1)) →
    (∀ j < k, p.Viable (ts.take (j + 1))) → e.span = some token.span
  early : (∀ k < ts.length, p.Viable (ts.take (k + 1))) →
    e.cause = .endOfInput ∧ e.span = none ∧ ∃ rest ≠ [], ∃ a s, p.complete (.ofList (ts ++ rest)) = .ok a s

theorem viable_iff : p.Viable ts ↔ ∃ rest a, p.reads (ts ++ rest) = some (a, []) := by
  simp only [Viable, complete_eq_ok]

theorem Viable.take {k j : Nat} (h : p.Viable (ts.take k)) (le : j ≤ k) : p.Viable (ts.take j) := by
  obtain ⟨rest, accepted⟩ := h
  have split : ts.take k = ts.take j ++ (ts.take k).drop j := by
    rw [← Nat.min_eq_left le, ← List.take_take, Nat.min_eq_left le, List.take_append_drop]
  rw [split, List.append_assoc] at accepted
  exact ⟨_, accepted⟩

/-- If the reported error is about token `k` and the tokens before it are viable, but not with it, then it is about the
first offending token. -/
theorem PointsAtFirst.of_about {k : Nat} (about : e.About ts k) (viable : p.Viable (ts.take k))
    (stuck : ∀ token, ts[k]? = some token → ¬ p.Viable (ts.take (k + 1)))
    (rejected : ¬ ∃ a s, p.complete (.ofList ts) = .ok a s) : PointsAtFirst p ts e := by
  constructor
  · intro i token here offends before
    obtain lt | eq | gt := Nat.lt_trichotomy i k
    · exact absurd (viable.take lt) offends
    · rw [about.span, ← eq, here]
      rfl
    · have inside : k < ts.length := gt.trans (List.getElem?_eq_some_iff.1 here).1
      exact absurd (before k gt) (stuck _ (List.getElem?_eq_getElem inside))
  · intro all
    cases here : ts[k]? with
    | some token => exact absurd (all k (List.getElem?_eq_some_iff.1 here).1) (stuck token here)
    | none =>
      rw [List.take_of_length_le (List.getElem?_eq_none_iff.1 here)] at viable
      obtain ⟨rest, accepted⟩ := viable
      refine ⟨about.cause here, by rw [about.span, here]; rfl, rest, ?_, accepted⟩
      rintro rfl
      rw [List.append_nil] at accepted
      exact rejected accepted

/-- A parser that is traced in a language, reads all its words and reads no refused token reports the first offending
token. -/
theorem Traced.pointsAtFirst {refused : Token → Prop} {L : Language Token} {s : TokenStream}
    (traced : Traced refused L p (.ofList ts) (p (.ofList ts)))
    (halts : ∀ a s, p (.ofList ts) = .ok a s → s.index < s.reach) (reads : ∀ w ∈ L, ∃ a, p.reads w = some (a, []))
    (refuses : ∀ w token, token ∈ w → refused token → ∀ a, p.reads w ≠ some (a, []))
    (h : p.complete (.ofList ts) = .error e s) : PointsAtFirst p ts e := by
  obtain ⟨k, about, ⟨w, mem⟩, stuck⟩ := complete_eq_error traced halts h
  refine .of_about about (viable_iff.2 ⟨w, reads _ mem⟩) (fun token here viable => ?_) ?_
  · obtain ⟨rest, a, read⟩ := viable_iff.1 viable
    obtain isRefused | fails := stuck token here
    · have inside : token ∈ ts.take (k + 1) ++ rest := by
        rw [List.take_add_one, here]
        simp
      exact refuses _ token inside isRefused a read
    · exact fails rest a read
  · rintro ⟨a, s', ok⟩
    rw [h] at ok
    cases ok

theorem parse_eq_error {source : String} (lexed : Token.lex source = .ok ts) (h : p.parse source = .error e) :
    ∃ s, p.complete (.ofList ts) = .error e s := by
  rw [parse, lexed] at h
  simp only at h
  split at h
  next => cases h
  next s eq =>
    cases h
    exact ⟨s, eq⟩

/-- **Error positions.** The error of a text that is read into tokens but is no expression points at the first token
that no expression has there, and says that the text ends too early if there is none. The same holds of types. -/
theorem parse_error_pointsAtFirst {source : String} (lexed : Token.lex source = .ok ts) :
    (∀ e, Expr.parse source = .error e → PointsAtFirst Expr.expression ts e) ∧
      ∀ e, Ty.parse source = .error e → PointsAtFirst Ty.monotype ts e := by
  constructor
  · intro e h
    obtain ⟨s, failed⟩ := parse_eq_error lexed h
    refine (Expr.tracks_within _ (.ofList ts) (Nat.lt_succ_self _)).pointsAtFirst
      (fun a s ran => Expr.halts_within _ (.ofList ts) a s (Nat.lt_succ_self _) ran) ?_ ?_ failed
    · rintro _ ⟨d, rfl, fit⟩
      exact Expr.reads_of_derivation d fit
    · intro w token mem unfit a read
      have fit := (Expr.exists_reads_iff.1 ⟨a, read⟩).2 token mem
      rw [unfit] at fit
      cases fit
  · intro e h
    obtain ⟨s, failed⟩ := parse_eq_error lexed h
    refine (Ty.tracks_within _ (.ofList ts) (Nat.lt_succ_self _)).pointsAtFirst
      (fun a s ran => Ty.halts_within _ (.ofList ts) a s (Nat.lt_succ_self _) ran) ?_ ?_ failed
    · rintro _ ⟨d, rfl⟩
      exact ⟨_, Ty.reads_monotype_iff.2 ⟨d, rfl, rfl⟩⟩
    · exact fun _ _ _ unfit => unfit.elim

/-- An open bracket, an unknown, an arrow and a type name. An expression cannot have the arrow. A type can, and then
its bracket has to be closed. -/
theorem parse_error_pointsAtFirst_openBracket : ∃ ts e e',
    Token.lex "(u1 -> Int" = .ok ts ∧
    (Expr.parse "(u1 -> Int" = .error e ∧ e.span = some ⟨⟨0, 4⟩, ⟨0, 6⟩⟩ ∧ PointsAtFirst Expr.expression ts e) ∧
    (Ty.parse "(u1 -> Int" = .error e' ∧ e'.cause = .endOfInput ∧ PointsAtFirst Ty.monotype ts e') := by
  have lexed : Token.lex "(u1 -> Int" = .ok [⟨.lparen, ⟨⟨0, 0⟩, ⟨0, 1⟩⟩⟩, ⟨.ident "u1", ⟨⟨0, 1⟩, ⟨0, 3⟩⟩⟩,
      ⟨.arrow, ⟨⟨0, 4⟩, ⟨0, 6⟩⟩⟩, ⟨.typeName "Int", ⟨⟨0, 7⟩, ⟨0, 10⟩⟩⟩] := by cbv
  have noExpr : Expr.parse "(u1 -> Int" = .error
      ⟨.unexpectedToken, ["')'"], some "'->'", some ⟨⟨0, 4⟩, ⟨0, 6⟩⟩⟩ := by cbv
  have noType : Ty.parse "(u1 -> Int" = .error ⟨.endOfInput, ["')'"], none, none⟩ := by cbv
  obtain ⟨expr, type⟩ := parse_error_pointsAtFirst lexed
  exact ⟨_, _, _, lexed, ⟨noExpr, rfl, expr _ noExpr⟩, noType, rfl, type _ noType⟩

end Parser

end Monolet
