import Monolet.Proofs.Parser.ErrorPosition
import Monolet.Proofs.Token.Placement
import Monolet.Proofs.Typing.Derivation

/-!
# Errors can be shown

Each node of a parsed expression spans the characters from the start of one token to the end of a later one
(`Expr.Derivation.stands`). A type error carries the span of a node (`Check.infer_failsAt`) and a parse error that of a
token. So both have a text, whatever the source looks like, as long as no string goes over a line end.
-/

namespace Monolet

namespace Expr

/-- The spans of all nodes. -/
def spans : Expr → List Span
  | int _ s | bool _ s | string _ s => [s]
  | var x => [x.span]
  | lam _ body s => s :: body.spans
  | app f a s => s :: (f.spans ++ a.spans)
  | letIn _ _ value body s => s :: (value.spans ++ body.spans)
  | cond c t e s => s :: (c.spans ++ (t.spans ++ e.spans))

theorem span_mem_spans (e : Expr) : e.span ∈ e.spans := by
  cases e <;> simp [span, spans]

/-! ## The nodes of a parsed expression -/

/-- All nodes of the expression cover characters of the text, from the `i`-th on and in front of the `j`-th. -/
def Stands (text : List Char) (i : Nat) (e : Expr) (j : Nat) : Prop := ∀ s ∈ e.spans, s.LiesIn text i j

section Stands

variable {text : List Char} {i j k l m : Nat} {e f : Expr} {es : List Expr}

theorem Stands.span (h : e.Stands text i j) : e.span.LiesIn text i j := h _ e.span_mem_spans

theorem Stands.lt (h : e.Stands text i j) : i < j := h.span.lt

theorem Stands.mono (h : e.Stands text i j) (le : k ≤ i) (le' : j ≤ l) : e.Stands text k l :=
  fun s mem => (h s mem).mono le le'

/-- A function and its arguments stand from the start of the function to the end of the last argument. -/
theorem Stands.applyAll (h : f.Stands text i m) (args : InRow (Stands text) m es j) :
    (f.applyAll es).Stands text i j := by
  induction args generalizing f with
  | nil le => exact h.mono le_rfl le
  | cons first _ ih =>
    refine ih ?_
    simp only [Stands, spans, List.forall_mem_cons, List.forall_mem_append]
    exact ⟨h.span.merge first.span le_rfl, h.mono le_rfl first.lt.le, first.mono h.lt.le le_rfl⟩

namespace Derivation

/-- What a derivation stands for does so in a stretch of the text. -/
def MeaningStands (text : List Char) (i j : Nat) : {c : Category} → Meaning c → Prop
  | .expression, e | .atom, e => Expr.Stands text i e j
  | .atoms, es => InRow (Expr.Stands text) i es j

/-- Where the tokens of a derivation are, there its expression stands. -/
theorem stands {c : Category} (d : Derivation c) (placed : Token.Placed text i d.tokens j) :
    MeaningStands text i j d.denote := by
  induction d generalizing i j with
  | spine head args ihHead ihArgs =>
    obtain ⟨m, first, more⟩ := placed.of_append
    exact Stands.applyAll (ihHead first) (ihArgs more)
  | nil => exact .nil placed.le
  | cons first more ihFirst ihMore =>
    obtain ⟨m, front, back⟩ := placed.of_append
    exact .cons (ihFirst front) (ihMore back)
  | bracketed left inner right ih => exact ih placed.tail.append_left
  | lambda start x arrow body ih =>
    obtain ⟨m, first, placed⟩ := placed.of_cons
    have inner : body.denote.Stands text m j := ih placed.tail.tail
    simp only [MeaningStands, denote, Stands, spans, List.forall_mem_cons]
    exact ⟨first.merge inner.span le_rfl, inner.mono first.lt.le le_rfl⟩
  | letIn start marked x equals value inSpan body ihValue ihBody =>
    obtain ⟨m, first, placed⟩ := placed.of_cons
    have placed := placed.append_right.tail.tail
    have bound : value.denote.Stands text m j := ihValue placed.append_left
    have inner : body.denote.Stands text m j := ihBody placed.append_right.tail
    simp only [MeaningStands, denote, Stands, spans, List.forall_mem_cons, List.forall_mem_append]
    exact ⟨first.merge inner.span le_rfl, bound.mono first.lt.le le_rfl, inner.mono first.lt.le le_rfl⟩
  | cond start c thenSpan t elseSpan e ihC ihT ihE =>
    obtain ⟨m, first, placed⟩ := placed.of_cons
    have test : c.denote.Stands text m j := ihC placed.append_left
    have placed := placed.append_right.tail
    have yes : t.denote.Stands text m j := ihT placed.append_left
    have no : e.denote.Stands text m j := ihE placed.append_right.tail
    simp only [MeaningStands, denote, Stands, spans, List.forall_mem_cons, List.forall_mem_append]
    exact ⟨first.merge no.span le_rfl, test.mono first.lt.le le_rfl, yes.mono first.lt.le le_rfl,
      no.mono first.lt.le le_rfl⟩
  | var x | int digits span | bool b span | string written span =>
    obtain ⟨m, only, placed⟩ := placed.of_cons
    simpa [MeaningStands, denote, Stands, spans] using only.mono le_rfl placed.le

end Derivation

end Stands

/-- The nodes of a parsed expression lie in its source. -/
theorem stands_of_reads {source : String} {ts : List Token} {e : Expr}
    (placed : Token.Placed source.toList 0 ts source.toList.length) (read : expression.reads ts = some (e, [])) :
    e.Stands source.toList 0 source.toList.length := by
  obtain ⟨d, rfl, rfl, -⟩ := exists_derivation read
  exact d.stands placed.append_left

end Expr

/-! ## Where type errors point -/

namespace Check

/-- Inference fails at a node of the expression. -/
theorem infer_failsAt (e : Expr) (Γ : TypeEnv) {places : List Span} (sub : e.spans ⊆ places) :
    (infer Γ e).FailsWith (·.span ∈ places) := by
  induction e generalizing Γ with
  | int | bool | string => exact failsWith_pure _
  | var x =>
    rw [infer]
    split
    · exact failsWith_pure _
    · exact failsWith_throw (sub (by simp [Expr.spans, TypeError.span]))
  | lam x body _ ih =>
    simp only [Expr.spans, List.cons_subset] at sub
    exact failsWith_fresh.bind fun arg => (ih _ sub.2).bind fun _ => failsWith_pure _
  | app f a span ihf iha =>
    simp only [Expr.spans, List.cons_subset, List.append_subset] at sub
    refine (ihf Γ sub.2.1).bind fun fnTy => (iha Γ sub.2.2).bind fun arg => failsWith_fresh.bind fun res => ?_
    exact (failsWith_unifyAt _ _ fun _ => sub.1).bind fun _ => failsWith_pure _
  | letIn recursive x value body span ihv ihb =>
    simp only [Expr.spans, List.cons_subset, List.append_subset] at sub
    cases recursive with
    | false => exact (ihv Γ sub.2.1).bind fun _ => (failsWith_zonk _).bind fun _ => ihb _ sub.2.2
    | true =>
      refine failsWith_fresh.bind fun placeholder => (ihv _ sub.2.1).bind fun ty => ?_
      exact (failsWith_unifyAt _ _ fun _ => sub.1).bind fun _ => (failsWith_zonk _).bind fun _ => ihb _ sub.2.2
  | cond c t e span ihc iht ihe =>
    simp only [Expr.spans, List.cons_subset, List.append_subset] at sub
    refine (ihc Γ sub.2.1).bind fun _ => (failsWith_unifyAt _ _ fun _ => sub.2.1 c.span_mem_spans).bind fun _ => ?_
    refine (iht Γ sub.2.2.1).bind fun ty => (ihe Γ sub.2.2.2).bind fun _ => ?_
    exact (failsWith_unifyAt _ _ fun _ => sub.1).bind fun _ => failsWith_zonk _

end Check

namespace Expr

theorem span_mem_of_infer_error {Γ : TypeEnv} {e : Expr} {err : TypeError} (h : e.infer Γ = .error err) :
    err.span ∈ e.spans := by
  obtain ⟨s, failed⟩ := infer_eq_error_iff.1 h
  exact Check.infer_failsAt e Γ (List.Subset.refl _) {} err s failed

/-- The error of a failed parse has the span of a token, if it has one. -/
theorem span_mem_of_parse_error {source : String} {ts : List Token} {e : ParseError} {span : Span}
    (lexed : Token.lex source = .ok ts) (h : parse source = .error e) (placed : e.span = some span) :
    ∃ token ∈ ts, token.span = span := by
  obtain ⟨s, failed⟩ := Parser.parse_eq_error lexed h
  obtain ⟨k, about, -⟩ := Parser.complete_eq_error (p := expression)
    (tracks_within _ (.ofList ts) (Nat.lt_succ_self _))
    (fun a s ran => halts_within _ (.ofList ts) a s (Nat.lt_succ_self _) ran) failed
  rw [about.span] at placed
  obtain ⟨token, found, eq⟩ := Option.map_eq_some_iff.1 placed
  exact ⟨token, List.mem_of_getElem? found, eq⟩

/-- **Errors can be shown.** Let no string of the source go over a line end. If the source is no expression, the error
has a text; if it is one, every error in its types has. -/
theorem isSome_render (source : String)
    (oneLine : ∀ ts, Token.lex source = .ok ts → ∀ token ∈ ts, token.lexeme.OnOneLine) (h : Highlight) :
    (∀ err, parse source = .error err → (err.render h source).isSome) ∧
    ∀ e, parse source = .ok e → ∀ Γ err, e.infer Γ = .error err → (err.render h (some source)).isSome := by
  refine ⟨fun err failed => ?_, fun e parsed Γ err failed => ?_⟩
  · unfold ParseError.render
    split
    next span at_span =>
      cases lexed : Token.lex source with
      | error e =>
        -- An error of the lexer has no span.
        rw [parse, Parser.parse, lexed] at failed
        cases failed
        cases at_span
      | ok ts =>
        obtain ⟨token, mem, rfl⟩ := span_mem_of_parse_error lexed failed at_span
        obtain ⟨_, _, -, -, covers⟩ := (Token.placed_of_lex lexed (oneLine ts lexed)).liesIn mem
        exact covers.isSome_excerpt h _
    next => rfl
  · obtain ⟨ts, lexed, read⟩ := Parser.parse_eq_ok.1 parsed
    have stands := stands_of_reads (Token.placed_of_lex lexed (oneLine ts lexed)) read
    obtain ⟨_, _, -, -, covers⟩ := stands _ (span_mem_of_infer_error failed)
    exact covers.isSome_excerpt h _

/-- A bracket closed too early, one line down, and an argument of the wrong type in brackets on the next line. Both
sources have a character of two bytes. -/
theorem isSome_render_brackets : ∃ err e err',
    parse "\"é\" (\r\n  )" = .error err ∧ (err.render .plain "\"é\" (\r\n  )").isSome ∧
    parse "add\r\n (\"é\")" = .ok e ∧ e.infer TypeEnv.prelude = .error err' ∧
    (err'.render .red (some "add\r\n (\"é\")")).isSome := by
  have unopened : Token.lex "\"é\" (\r\n  )" = .ok [⟨.string "\"é\"", ⟨⟨0, 0⟩, ⟨0, 4⟩⟩⟩,
      ⟨.lparen, ⟨⟨0, 5⟩, ⟨0, 6⟩⟩⟩, ⟨.rparen, ⟨⟨1, 2⟩, ⟨1, 3⟩⟩⟩] := by cbv
  have ill : Token.lex "add\r\n (\"é\")" = .ok [⟨.ident "add", ⟨⟨0, 0⟩, ⟨0, 3⟩⟩⟩, ⟨.lparen, ⟨⟨1, 1⟩, ⟨1, 2⟩⟩⟩,
      ⟨.string "\"é\"", ⟨⟨1, 2⟩, ⟨1, 6⟩⟩⟩, ⟨.rparen, ⟨⟨1, 6⟩, ⟨1, 7⟩⟩⟩] := by cbv
  have noExpr : parse "\"é\" (\r\n  )" = .error
      ⟨.unexpectedToken, ["expression"], some "')'", some ⟨⟨1, 2⟩, ⟨1, 3⟩⟩⟩ := by cbv
  have expr : parse "add\r\n (\"é\")" = .ok
      (.app (.var ⟨"add", ⟨⟨0, 0⟩, ⟨0, 3⟩⟩⟩) (.string "é" ⟨⟨1, 2⟩, ⟨1, 6⟩⟩) ⟨⟨0, 0⟩, ⟨1, 6⟩⟩) := by cbv
  have noType : infer TypeEnv.prelude
      (.app (.var ⟨"add", ⟨⟨0, 0⟩, ⟨0, 3⟩⟩⟩) (.string "é" ⟨⟨1, 2⟩, ⟨1, 6⟩⟩) ⟨⟨0, 0⟩, ⟨1, 6⟩⟩) = .error
        (.unification (.mismatch .int .string) ⟨⟨0, 0⟩, ⟨1, 6⟩⟩) := by cbv
  refine ⟨_, _, _, noExpr, (isSome_render _ (fun ts h => ?_) .plain).1 _ noExpr, expr, noType,
    (isSome_render _ (fun ts h => ?_) .red).2 _ expr _ _ noType⟩
  · rw [unopened] at h
    cases h
    simp [Lexeme.OnOneLine]
  · rw [ill] at h
    cases h
    simp [Lexeme.OnOneLine]

end Expr

end Monolet
