import Monolet.Expr.Printer
import Monolet.Proofs.Expr.Recognition
import Monolet.Proofs.Expr.Spans
import Monolet.Proofs.Token.Lexing

/-!
# The printed form of an expression

An expression is well formed when its names and integers can be written and a `let` that mentions its own name says that
it is recursive. The printed form of a well-formed expression is read as a row of atoms (`row`): its text has the
lexemes of the row (`writes_print`), the row is greedy since whatever is applied is closed or in brackets
(`greedy_row`), and it stands for the expression (`denote_row`).
-/

namespace Monolet

namespace Expr

/-- Names are names, integers are not negative, and a `let` whose value mentions its name is recursive. -/
def WellFormed : Expr → Prop
  | int n _ => 0 ≤ n
  | bool .. | string .. => True
  | var x => Lexeme.IsName x.name
  | lam x body _ => Lexeme.IsName x.name ∧ body.WellFormed
  | app f a _ => f.WellFormed ∧ a.WellFormed
  | letIn r x value body _ =>
    Lexeme.IsName x.name ∧ (r = false → x.name ∉ value.freeVars) ∧ value.WellFormed ∧ body.WellFormed
  | cond c t e _ => c.WellFormed ∧ t.WellFormed ∧ e.WellFormed

/-! ## Rows -/

/-- An atom and the atoms that it is applied to. -/
structure Row where
  head : Derivation .atom
  args : List (Derivation .atom)

namespace Row

/-- The derivation of a list of arguments. -/
def ofList : List (Derivation .atom) → Derivation .atoms
  | [] => .nil
  | a :: l => .cons a (ofList l)

/-- The derivation of a row. -/
def expression (r : Row) : Derivation .expression := .spine r.head (ofList r.args)

/-- A row with nothing applied. -/
def single (a : Derivation .atom) : Row := ⟨a, []⟩

/-- One row behind the other. -/
def append (r r' : Row) : Row := ⟨r.head, r.args ++ r'.head :: r'.args⟩

/-- A row, in brackets unless it may stand bare. -/
def bracketUnless (bare : Bool) (r : Row) : Row := if bare then r else single (.bracketed {} r.expression {})

/-- The lexemes of a row. -/
def lexemes (r : Row) : List Lexeme := r.expression.tokens.map (·.lexeme)

/-- No atom of the row is open. -/
def Closed (r : Row) : Prop := ∀ a ∈ r.head :: r.args, a.isOpen = false

theorem tokens_ofList_append (l l' : List (Derivation .atom)) :
    (ofList (l ++ l')).tokens = (ofList l).tokens ++ (ofList l').tokens := by
  induction l with
  | nil => rfl
  | cons a l ih => simp [ofList, Derivation.tokens, ih]

theorem denote_ofList (l : List (Derivation .atom)) : (ofList l).denote = l.map Derivation.denote := by
  induction l with
  | nil => rfl
  | cons a l ih => rw [ofList, Derivation.denote, ih, List.map_cons]

theorem greedy_ofList_append {l l' : List (Derivation .atom)} (h : (ofList l).Greedy)
    (closed : ∀ a ∈ l, a.isOpen = false) (h' : (ofList l').Greedy) : (ofList (l ++ l')).Greedy := by
  induction l with
  | nil => exact h'
  | cons a l ih =>
    obtain ⟨first, more⟩ := List.forall_mem_cons.1 closed
    refine ⟨h.1, ih h.2.1 more, fun isOpen => ?_⟩
    cases first.symm.trans isOpen

theorem tokens_append (r r' : Row) : (r.append r').expression.tokens = r.expression.tokens ++ r'.expression.tokens := by
  simp [append, expression, Derivation.tokens, tokens_ofList_append, ofList]

theorem lexemes_append (r r' : Row) : (r.append r').lexemes = r.lexemes ++ r'.lexemes := by
  rw [lexemes, tokens_append, List.map_append]
  rfl

theorem lexemes_single (a : Derivation .atom) : (single a).lexemes = a.tokens.map (·.lexeme) := by
  simp [lexemes, single, expression, ofList, Derivation.tokens]

theorem lexemes_bracketed (r : Row) : (r.bracketUnless false).lexemes = .lparen :: (r.lexemes ++ [.rparen]) := by
  show (single _).lexemes = _
  rw [lexemes_single]
  simp [lexemes, Derivation.tokens]

theorem greedy_append {r r' : Row} (h : r.expression.Greedy) (closed : r.Closed) (h' : r'.expression.Greedy) :
    (r.append r').expression.Greedy := by
  obtain ⟨first, more⟩ := List.forall_mem_cons.1 closed
  refine ⟨h.1, greedy_ofList_append h.2.1 more h', fun isOpen => ?_⟩
  cases first.symm.trans isOpen

theorem closed_append {r r' : Row} (h : r.Closed) (h' : r'.Closed) : (r.append r').Closed := by
  simp only [Closed, append, List.forall_mem_cons, List.forall_mem_append] at *
  exact ⟨h.1, h.2, h'⟩

/-- A row applied to one more atom. -/
theorem denote_append_single (r : Row) (a : Derivation .atom) :
    Expr.erase (r.append (single a)).expression.denote =
      .app (Expr.erase r.expression.denote) (Expr.erase a.denote) {} := by
  simp only [append, single, expression, Derivation.denote, denote_ofList, List.map_append, applyAll, List.foldl_append]
  rfl

theorem greedy_bracketUnless {r : Row} (bare : Bool) (h : r.expression.Greedy) :
    (r.bracketUnless bare).expression.Greedy := by
  cases bare with
  | true => exact h
  | false => exact ⟨h, trivial, nofun⟩

theorem closed_bracketUnless {r : Row} {bare : Bool} (h : bare = true → r.Closed) : (r.bracketUnless bare).Closed := by
  cases bare with
  | true => exact h rfl
  | false => simp [bracketUnless, Closed, single, Derivation.isOpen]

theorem denote_bracketUnless (bare : Bool) (r : Row) :
    (r.bracketUnless bare).expression.denote = r.expression.denote := by
  cases bare <;> rfl

end Row

/-- The row that is printed for an expression. -/
def row : Expr → Row
  | int n _ => .single (.int (Decimal.ofInt n.toInt) {})
  | bool b _ => .single (.bool b {})
  | string s _ => .single (.string (Quoted.encode s) {})
  | var x => .single (.var x)
  | lam x body _ => .single (.lambda {} x {} body.row.expression)
  | app f a _ => (f.row.bracketUnless f.isFunctionForm).append (a.row.bracketUnless a.isAtomic)
  | letIn r x value body _ =>
    .single (.letIn {} (if r then some {} else none) x {} value.row.expression {} body.row.expression)
  | cond c t e _ => .single (.cond {} c.row.expression {} t.row.expression {} e.row.expression)

theorem lexemes_lam (x : Ident) (body : Expr) (s : Span) :
    (lam x body s).row.lexemes = .backslash :: .ident x.name :: .arrow :: body.row.lexemes := by
  rw [row, Row.lexemes_single]
  simp [Row.lexemes, Derivation.tokens]

theorem lexemes_letIn (r : Bool) (x : Ident) (value body : Expr) (s : Span) :
    (letIn r x value body s).row.lexemes =
      .keyword .letKw :: ((if r then [.keyword .recKw] else []) ++ .ident x.name :: .equals ::
        (value.row.lexemes ++ .keyword .inKw :: body.row.lexemes)) := by
  rw [row, Row.lexemes_single]
  cases r <;> simp [Row.lexemes, Derivation.tokens, recTokens]

theorem lexemes_cond (c t e : Expr) (s : Span) :
    (cond c t e s).row.lexemes =
      .keyword .ifKw :: (c.row.lexemes ++ .keyword .thenKw ::
        (t.row.lexemes ++ .keyword .elseKw :: e.row.lexemes)) := by
  rw [row, Row.lexemes_single]
  simp [Row.lexemes, Derivation.tokens]

/-! ## The row is greedy -/

theorem isFunctionForm_of_isAtomic {e : Expr} (h : e.isAtomic = true) : e.isFunctionForm = true := by
  cases e with
  | app => rfl
  | _ => exact h

theorem greedy_row (e : Expr) : e.row.expression.Greedy ∧ (e.isFunctionForm = true → e.row.Closed) := by
  induction e with
  | int | bool | string | var =>
    exact ⟨⟨trivial, trivial, nofun⟩, fun _ => by simp [row, Row.Closed, Row.single, Derivation.isOpen]⟩
  | lam x body _ ih => exact ⟨⟨ih.1, trivial, fun _ => rfl⟩, nofun⟩
  | app f a _ ihF ihA =>
    have closedF := Row.closed_bracketUnless ihF.2
    have closedA : (a.row.bracketUnless a.isAtomic).Closed :=
      Row.closed_bracketUnless fun atomic => ihA.2 (isFunctionForm_of_isAtomic atomic)
    have greedyF := Row.greedy_bracketUnless f.isFunctionForm ihF.1
    have greedyA := Row.greedy_bracketUnless a.isAtomic ihA.1
    exact ⟨Row.greedy_append greedyF closedF greedyA, fun _ => Row.closed_append closedF closedA⟩
  | letIn r x value body _ ihV ihB => exact ⟨⟨⟨ihV.1, ihB.1⟩, trivial, fun _ => rfl⟩, nofun⟩
  | cond c t e _ ihC ihT ihE => exact ⟨⟨⟨ihC.1, ihT.1, ihE.1⟩, trivial, fun _ => rfl⟩, nofun⟩

/-! ## The row stands for the expression -/

/-- An argument is one atom. -/
theorem exists_eq_single (a : Expr) : ∃ b, a.row.bracketUnless a.isAtomic = .single b := by
  cases a with
  | int | bool | string | var => exact ⟨_, rfl⟩
  | lam | app | letIn | cond => exact ⟨_, rfl⟩

/-- An integer that is not negative is a number that can be written. -/
theorem exists_toInt_eq {n : Int64} (h : 0 ≤ n) : ∃ k : Nat, n.toInt = k ∧ k ≤ maxInt ∧ Int64.ofNat k = n := by
  obtain ⟨k, eq⟩ := Int.eq_ofNat_of_zero_le (Int64.le_iff_toInt_le.1 h)
  refine ⟨k, eq, ?_, ?_⟩
  · have less := Int64.toInt_lt n
    rw [maxInt]
    omega
  · rw [← Int64.ofInt_eq_ofNat, ← eq, Int64.ofInt_toInt]

theorem read?_ofInt (k : Nat) : Decimal.read? (Decimal.ofInt k).toList = some k := by
  rw [show Decimal.ofInt k = Decimal.ofNat k from rfl, Decimal.toList_ofNat, Decimal.read?_toDigits]

theorem denote_row {e : Expr} (h : e.WellFormed) : Expr.erase e.row.expression.denote = e.erase := by
  induction e with
  | int n =>
    obtain ⟨k, eq, -, same⟩ := exists_toInt_eq h
    show Expr.int (Int64.ofNat ((Decimal.read? (Decimal.ofInt n.toInt).toList).getD 0)) {} = _
    rw [eq, read?_ofInt, Option.getD_some, same, erase]
  | bool | var => rfl
  | string s =>
    show Expr.string (Quoted.decode (Quoted.encode s)) {} = _
    rw [Quoted.decode_encode, erase]
  | lam x body _ ih =>
    show Expr.lam ⟨x.name, {}⟩ (Expr.erase body.row.expression.denote) {} = _
    rw [ih h.2, erase]
  | app f a _ ihF ihA =>
    obtain ⟨b, eq⟩ := exists_eq_single a
    have arg : Expr.erase b.denote = a.erase := by
      rw [← ihA h.2, ← Row.denote_bracketUnless a.isAtomic, eq]
      rfl
    rw [row, eq, Row.denote_append_single, Row.denote_bracketUnless, ihF h.1, arg, erase]
  | letIn r x value body _ ihV ihB =>
    obtain ⟨-, marked, wfV, wfB⟩ := h
    have recursive : ((if r then some ({} : Span) else none).isSome ||
        decide (x.name ∈ freeVars value.row.expression.denote)) = r := by
      rw [freeVars_congr (ihV wfV)]
      cases r with
      | true => rfl
      | false => simpa using marked rfl
    show Expr.letIn _ ⟨x.name, {}⟩ (Expr.erase value.row.expression.denote)
      (Expr.erase body.row.expression.denote) {} = _
    rw [recursive, ihV wfV, ihB wfB, erase]
  | cond c t e _ ihC ihT ihE =>
    show Expr.cond (Expr.erase c.row.expression.denote) (Expr.erase t.row.expression.denote)
      (Expr.erase e.row.expression.denote) {} = _
    rw [ihC h.1, ihT h.2.1, ihE h.2.2, erase]

theorem fits_bracketUnless {r : Row} (bare : Bool) (h : ∀ l ∈ r.lexemes, fits l = true) :
    ∀ l ∈ (r.bracketUnless bare).lexemes, fits l = true := by
  cases bare with
  | true => exact h
  | false =>
    simp only [Row.lexemes_bracketed, List.forall_mem_cons, List.forall_mem_append]
    exact ⟨rfl, h, rfl, List.forall_mem_nil _⟩

theorem fits_row {e : Expr} (h : e.WellFormed) : ∀ l ∈ e.row.lexemes, fits l = true := by
  induction e with
  | int n =>
    obtain ⟨k, eq, le, -⟩ := exists_toInt_eq h
    refine List.forall_mem_singleton.2 (fits_integer.2 ⟨k, ?_, le⟩)
    rw [eq, read?_ofInt]
  | bool | string | var => exact List.forall_mem_singleton.2 rfl
  | lam x body _ ih =>
    simp only [lexemes_lam, List.forall_mem_cons]
    exact ⟨rfl, rfl, rfl, ih h.2⟩
  | app f a _ ihF ihA =>
    rw [row, Row.lexemes_append, List.forall_mem_append]
    exact ⟨fits_bracketUnless _ (ihF h.1), fits_bracketUnless _ (ihA h.2)⟩
  | letIn r x value body _ ihV ihB =>
    simp only [lexemes_letIn, List.forall_mem_cons, List.forall_mem_append]
    exact ⟨rfl, by cases r <;> simp [fits], rfl, rfl, ihV h.2.2.1, rfl, ihB h.2.2.2⟩
  | cond c t e _ ihC ihT ihE =>
    simp only [lexemes_cond, List.forall_mem_cons, List.forall_mem_append]
    exact ⟨rfl, ihC h.1, rfl, ihT h.2.1, rfl, ihE h.2.2⟩

/-! ## The text has the lexemes of the row -/

section

open Lexeme

variable {rest : List Char} {ls : List Lexeme}

/-- The text is read as these lexemes before whatever does not go on with the last of them. -/
def Writes (text : String) (lexemes : List Lexeme) : Prop :=
  ∀ rest ls, Breaks rest → Lexes rest ls → Lexes (text.toList ++ rest) (lexemes ++ ls)

theorem Writes.of_next? {text : String} {l : Lexeme}
    (taken : ∀ {rest}, Breaks rest → next? (text.toList ++ rest) = some (l, rest)) : Writes text [l] :=
  fun _ _ breaks more => .next (taken breaks) more

theorem Writes.bracketUnless {text : String} {r : Row} (bare : Bool) (h : Writes text r.lexemes) :
    Writes (Expr.bracketUnless bare text) (r.bracketUnless bare).lexemes := by
  cases bare with
  | true => exact h
  | false =>
    intro rest ls _ more
    have inside : Lexes (text.toList ++ ')' :: rest) (r.lexemes ++ .rparen :: ls) :=
      h _ _ (breaks_cons (by decide) rest) (.next rfl more)
    simp only [Row.lexemes_bracketed, Expr.bracketUnless, Bool.false_eq_true, if_false, String.toList_append,
      List.cons_append, List.append_assoc]
    exact .next rfl inside

theorem breaks_blank (cs : List Char) : Breaks (' ' :: cs) := breaks_cons (by decide) cs

theorem lexes_blank (more : Lexes rest ls) : Lexes (' ' :: rest) ls := .blank rfl more

/-- A reserved word and the blank after it. -/
theorem lexes_keyword (word : Keyword) (more : Lexes rest ls) :
    Lexes (word.text.toList ++ ' ' :: rest) (.keyword word :: ls) :=
  .next (next?_keyword word (breaks_blank rest)) (lexes_blank more)

/-- A name and the blank after it. -/
theorem lexes_name {name : String} (h : IsName name) (more : Lexes rest ls) :
    Lexes (name.toList ++ ' ' :: rest) (.ident name :: ls) :=
  .next (next?_name h (breaks_blank rest)) (lexes_blank more)

theorem writes_print {e : Expr} (h : e.WellFormed) : Writes e.print e.row.lexemes := by
  induction e with
  | int n =>
    obtain ⟨k, eq, -, -⟩ := exists_toInt_eq h
    have written : Decimal.read? (Decimal.ofInt n.toInt).toList = some k := by rw [eq, read?_ofInt]
    exact .of_next? (next?_integer written)
  | bool b =>
    cases b with
    | true => exact .of_next? (next?_keyword .trueKw)
    | false => exact .of_next? (next?_keyword .falseKw)
  | string s => exact .of_next? fun {rest} _ => next?_encode s rest
  | var x => exact .of_next? (next?_name h)
  | lam x body _ ih =>
    intro rest ls breaks more
    simp only [lexemes_lam, print, String.toList_append, List.append_assoc]
    have afterName : Lexes ('-' :: '>' :: ' ' :: (body.print.toList ++ rest)) (.arrow :: (body.row.lexemes ++ ls)) :=
      .next rfl (lexes_blank (ih h.2 rest ls breaks more))
    exact .next rfl (lexes_name h.1 afterName)
  | app f a _ ihF ihA =>
    intro rest ls breaks more
    have arg := (ihA h.2).bracketUnless a.isAtomic rest ls breaks more
    rw [row, Row.lexemes_append, List.append_assoc]
    simp only [print, String.toList_append, List.append_assoc]
    exact (ihF h.1).bracketUnless f.isFunctionForm _ _ (breaks_blank _) (lexes_blank arg)
  | letIn r x value body _ ihV ihB =>
    intro rest ls breaks more
    obtain ⟨isName, -, wfV, wfB⟩ := h
    have afterIn := lexes_blank (lexes_keyword .inKw (ihB wfB rest ls breaks more))
    have afterEquals := ihV wfV _ _ (breaks_blank _) afterIn
    have afterName : Lexes ('=' :: ' ' :: _) (.equals :: _) := .next rfl (lexes_blank afterEquals)
    have afterLet := lexes_name isName afterName
    simp only [lexemes_letIn, print, String.toList_append, List.cons_append, List.append_assoc]
    cases r with
    | true => exact lexes_keyword .letKw (lexes_keyword .recKw afterLet)
    | false => exact lexes_keyword .letKw afterLet
  | cond c t e _ ihC ihT ihE =>
    intro rest ls breaks more
    have afterElse := lexes_blank (lexes_keyword .elseKw (ihE h.2.2 rest ls breaks more))
    have afterThen := lexes_blank (lexes_keyword .thenKw (ihT h.2.1 _ _ (breaks_blank _) afterElse))
    simp only [lexemes_cond, print, String.toList_append, List.cons_append, List.append_assoc]
    exact lexes_keyword .ifKw (ihC h.1 _ _ (breaks_blank _) afterThen)

end

end Expr

end Monolet
