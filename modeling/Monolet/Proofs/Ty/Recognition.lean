import Monolet.Proofs.Parser.Reading
import Monolet.Ty.Parser

/-!
# The type parser recognises the grammar of types

A type is an atom, or an atom, an arrow and a type. Arrows group to the right and a bracketed type is marked at
both ends, so the grammar of types is unambiguous (`Derivation.eq_of_tokens_eq`). The parser reads exactly what has a
derivation and returns the type that the derivation stands for (`reads_monotype_iff`).
-/

namespace Monolet

namespace Ty

open Monolet.Parser

/-! ## The grammar -/

/-- What the grammar derives: a type, or one that may stand to the left of an arrow. -/
inductive Category where
  | type
  | atom

/-- Derivations of the grammar, with the spans of the tokens. An unknown is a `u` and digits, and its number is positive
and fits 64 bits. -/
inductive Derivation : Category → Type where
  | single (t : Derivation .atom) : Derivation .type
  | fn (arg : Derivation .atom) (arrow : Span) (res : Derivation .type) : Derivation .type
  | bracketed (left : Span) (inner : Derivation .type) (right : Span) : Derivation .atom
  | int (span : Span) : Derivation .atom
  | bool (span : Span) : Derivation .atom
  | string (span : Span) : Derivation .atom
  | unknown (digits : List Char) (id : Nat) (written : Decimal.read? digits = some id) (positive : 0 < id)
      (fits : id < UInt64.size) (span : Span) : Derivation .atom

namespace Derivation

/-- The tokens that are derived. -/
def tokens : {c : Category} → Derivation c → List Token
  | _, single t => t.tokens
  | _, fn arg arrow res => arg.tokens ++ ⟨.arrow, arrow⟩ :: res.tokens
  | _, bracketed left inner right => ⟨.lparen, left⟩ :: (inner.tokens ++ [⟨.rparen, right⟩])
  | _, int span => [⟨.typeName "Int", span⟩]
  | _, bool span => [⟨.typeName "Bool", span⟩]
  | _, string span => [⟨.typeName "String", span⟩]
  | _, unknown digits _ _ _ _ span => [⟨.ident (String.ofList ('u' :: digits)), span⟩]

/-- The type that a derivation stands for. -/
def denote : {c : Category} → Derivation c → Ty
  | _, single t => t.denote
  | _, fn arg _ res => .fn arg.denote res.denote
  | _, bracketed _ inner _ => inner.denote
  | _, int _ => .int
  | _, bool _ => .bool
  | _, string _ => .string
  | _, unknown _ id _ _ _ _ => .unknown id

end Derivation

/-- No arrow stands here. -/
def Ends (ts : List Token) : Prop := ∀ token ∈ ts.head?, token.lexeme ≠ .arrow

namespace Derivation

/-- An atom says itself where it ends; a type ends where no arrow stands. -/
theorem eq_of_append_eq {c : Category} (d : Derivation c) {d' : Derivation c} {rest rest' : List Token}
    (ends : c = .type → Ends rest ∧ Ends rest') (eq : d.tokens ++ rest = d'.tokens ++ rest') :
    d = d' ∧ rest = rest' := by
  induction d generalizing rest rest' with
  | single t ih =>
    cases d' with
    | single t' =>
      obtain ⟨rfl, rfl⟩ := ih nofun eq
      exact ⟨rfl, rfl⟩
    | fn arg' arrow' res' =>
      rw [tokens, tokens, List.append_assoc] at eq
      obtain ⟨-, rfl⟩ := ih nofun eq
      exact absurd rfl ((ends rfl).1 _ rfl)
  | fn arg arrow res ihArg ihRes =>
    cases d' with
    | single t' =>
      rw [tokens, tokens, List.append_assoc] at eq
      obtain ⟨-, rfl⟩ := ihArg nofun eq
      exact absurd rfl ((ends rfl).2 _ rfl)
    | fn arg' arrow' res' =>
      rw [tokens, tokens, List.append_assoc, List.append_assoc] at eq
      obtain ⟨rfl, later⟩ := ihArg nofun eq
      obtain ⟨mark, afterArrow⟩ := List.cons.inj later
      obtain ⟨rfl, rfl⟩ := ihRes (fun _ => ends rfl) afterArrow
      cases mark
      exact ⟨rfl, rfl⟩
  | bracketed left inner right ih =>
    cases d' with
    | bracketed left' inner' right' =>
      simp only [tokens, List.cons_append, List.append_assoc, List.nil_append, List.cons.injEq, Token.mk.injEq] at eq
      obtain ⟨⟨-, rfl⟩, eq⟩ := eq
      obtain ⟨rfl, later⟩ := ih (fun _ => ⟨by simp [Ends], by simp [Ends]⟩) eq
      cases later
      exact ⟨rfl, rfl⟩
    | _ => simp [tokens] at eq
  | unknown digits id written =>
    cases d' with
    | unknown digits' id' written' =>
      simp only [tokens, List.cons_append, List.nil_append, List.cons.injEq, Token.mk.injEq, Lexeme.ident.injEq,
        String.ofList_inj, true_and] at eq
      obtain ⟨⟨rfl, rfl⟩, rfl⟩ := eq
      rw [written] at written'
      cases written'
      exact ⟨rfl, rfl⟩
    | _ => simp [tokens] at eq
  | int | bool | string => cases d' <;> simp_all [tokens]

/-- No tokens have two derivations. -/
theorem eq_of_tokens_eq {d d' : Derivation .type} (eq : d.tokens = d'.tokens) : d = d' := by
  have atEnd : Ends [] := nofun
  exact (d.eq_of_append_eq (fun _ => ⟨atEnd, atEnd⟩) (by rw [eq])).1

end Derivation

/-! ## What the parsers read -/

variable {inner : Parser Ty} {ts us : List Token} {t : Ty}

theorem readsAt_named (s : TokenStream) :
    named.readsAt s = takeFirst (fun token => (ofToken token).toOption) s.rest := by
  rw [readsAt, named, TokenStream.peek_eq]
  cases h : s.rest with
  | nil => rfl
  | cons token ts =>
    cases ht : ofToken token with
    | error e => simp [takeFirst, ht, reject, Except.toOption]
    | ok t => simp [takeFirst, ht, Except.toOption, TokenStream.rest_advance h]

instance : named.Local := by
  refine local_of_readsAt (fun s => ?_) readsAt_named fun ts t us h => ?_
  · rw [after, named]
    cases s.peek with
    | none => simp [reject]
    | some token => cases h : ofToken token <;> simp [h, reject]
  · obtain ⟨token, rfl, -⟩ := takeFirst_eq_some.1 h
    exact List.suffix_cons token us

theorem reads_named : named.reads ts = some (t, us) ↔ ∃ token, ts = token :: us ∧ ofToken token = .ok t := by
  rw [reads, readsAt_named, TokenStream.rest_ofList, takeFirst_eq_some]
  have ok (token : Token) : (ofToken token).toOption = some t ↔ ofToken token = .ok t := by
    cases ofToken token <;> simp [Except.toOption]
  simp only [ok]

section

variable [inner.Local]

instance : (atom inner).Local := inferInstanceAs (Local (bracketed inner <|> named))

theorem reads_atom :
    (atom inner).reads ts = some (t, us) ↔
      (∃ left right vs, ts = ⟨.lparen, left⟩ :: vs ∧ inner.reads vs = some (t, ⟨.rparen, right⟩ :: us)) ∨
      ∃ token, ts = token :: us ∧ ofToken token = .ok t := by
  rw [atom, reads_orElse_eq_some, reads_bracketed_eq_some, reads_named]
  cases read : (bracketed inner).reads ts with
  | none => exact .inl rfl
  | some x =>
    obtain ⟨left, _, vs, rfl, -⟩ := reads_bracketed_eq_some.1 read
    refine .inr (Option.eq_none_iff_forall_ne_some.2 fun (_, _) other => ?_)
    obtain ⟨token, eq, ok⟩ := reads_named.1 other
    cases eq
    cases ok

/-- Read an arrow and the type after it. -/
def result (inner : Parser Ty) : Parser Ty := symbol .arrow >>= fun _ => inner

instance : (result inner).Local := inferInstanceAs (Local (symbol .arrow >>= fun _ => inner))

theorem reads_result :
    (result inner).reads ts = some (t, us) ↔ ∃ span vs, ts = ⟨.arrow, span⟩ :: vs ∧ inner.reads vs = some (t, us) := by
  rw [result, reads_bind_eq_some]
  constructor
  · rintro ⟨⟨_, span⟩, vs, isArrow, read⟩
    obtain ⟨rfl, rfl⟩ := reads_symbol.1 isArrow
    exact ⟨span, vs, rfl, read⟩
  · rintro ⟨span, vs, rfl, read⟩
    exact ⟨⟨.arrow, span⟩, vs, reads_symbol.2 ⟨rfl, rfl⟩, read⟩

/-- The type that an atom and the result after it make up. -/
def withResult (arg : Ty) (res : Option Ty) : Ty := res.elim arg (fn arg)

theorem arrow_eq (inner : Parser Ty) :
    arrow inner = atom inner >>= fun arg => (result inner).optional >>= fun res => pure (withResult arg res) := by
  refine congrArg (atom inner >>= ·) (funext fun arg => congrArg ((result inner).optional >>= ·) (funext fun res => ?_))
  cases res <;> rfl

instance : (arrow inner).Local := by
  rw [arrow_eq]
  infer_instance

/-- What is read inside a type comes after a bracket or an arrow. -/
theorem agreeBelow_arrow {other : Parser Ty} [other.Local] {n : Nat} (agree : AgreeBelow n inner other) :
    AgreeBelow (n + 1) (arrow inner) (arrow other) := by
  have atoms : AgreeBelow (n + 1) (atom inner) (atom other) := by
    rw [atom, atom, bracketed_eq, bracketed_eq]
    exact ((agree.after_symbol .lparen).bind fun _ => .refl _ _).orElse (.refl _ named)
  have results : AgreeBelow (n + 1) (result inner) (result other) := agree.after_symbol .arrow
  rw [arrow_eq, arrow_eq]
  exact atoms.bind fun _ => results.optional.bind fun _ => .refl _ _

end

instance (n : Nat) : (within n).Local := by
  induction n with
  | zero => exact local_of_readsAt (g := fun _ => none) (fun _ => rfl) (fun _ => rfl) fun _ _ _ h => by cases h
  | succ n ih => exact inferInstanceAs (Local (arrow (within n)))

instance : monotype.Local := inferInstanceAs (Local (sized within))

theorem reads_monotype_eq (ts : List Token) : monotype.reads ts = (arrow monotype).reads ts :=
  reads_sized_eq (fun _ => rfl) agreeBelow_arrow ts

/-- A type is an atom, and after an arrow its result if that can be read. -/
theorem reads_monotype :
    monotype.reads ts = some (t, us) ↔
      ∃ arg vs, (atom monotype).reads ts = some (arg, vs) ∧
        ((∃ res, (result monotype).reads vs = some (res, us) ∧ t = fn arg res) ∨
          (result monotype).reads vs = none ∧ us = vs ∧ t = arg) := by
  rw [reads_monotype_eq]
  simp only [arrow_eq, reads_bind_eq_some, reads_optional_eq_some, reads_pure]
  constructor
  · rintro ⟨arg, vs, first, res, ws, ⟨r, rfl, read⟩ | ⟨rfl, rfl, fails⟩, eq⟩
    · cases eq
      exact ⟨arg, vs, first, .inl ⟨r, read, rfl⟩⟩
    · cases eq
      exact ⟨arg, _, first, .inr ⟨fails, rfl, rfl⟩⟩
  · rintro ⟨arg, vs, first, ⟨r, read, rfl⟩ | ⟨fails, rfl, rfl⟩⟩
    · exact ⟨arg, vs, first, some r, us, .inl ⟨r, rfl, read⟩, rfl⟩
    · exact ⟨_, _, first, none, _, .inr ⟨rfl, rfl, fails⟩, rfl⟩

/-! ## Recognition -/

theorem unknownOfName?_eq_some {name : String} {id : Nat} :
    unknownOfName? name = some id ↔
      ∃ digits, name = String.ofList ('u' :: digits) ∧ Decimal.read? digits = some id ∧ 0 < id ∧ id < UInt64.size := by
  constructor
  · intro h
    rw [unknownOfName?] at h
    split at h
    next digits eq =>
      obtain ⟨written, range⟩ := Option.filter_eq_some_iff.1 h
      refine ⟨digits, ?_, written, of_decide_eq_true range⟩
      rw [← eq, String.ofList_toList]
    next => cases h
  · rintro ⟨digits, rfl, written, positive, fits⟩
    simp [unknownOfName?, written, Option.filter, positive, fits]

/-- A token that stands for a type is an atom. -/
theorem exists_derivation_of_ofToken {token : Token} (h : ofToken token = .ok t) :
    ∃ a : Derivation .atom, a.tokens = [token] ∧ a.denote = t := by
  obtain ⟨lexeme, span⟩ := token
  unfold ofToken at h
  split at h
  next eq =>
    cases eq
    cases h
    exact ⟨.int span, rfl, rfl⟩
  next eq =>
    cases eq
    cases h
    exact ⟨.bool span, rfl, rfl⟩
  next eq =>
    cases eq
    cases h
    exact ⟨.string span, rfl, rfl⟩
  next => cases h
  next name eq =>
    cases eq
    cases found : unknownOfName? name with
    | none =>
      rw [found] at h
      cases h
    | some id =>
      rw [found] at h
      cases h
      obtain ⟨digits, rfl, written, positive, fits⟩ := unknownOfName?_eq_some.1 found
      exact ⟨.unknown digits id written positive fits span, rfl, rfl⟩
  next => cases h

theorem exists_derivation (h : monotype.reads ts = some (t, us)) :
    ∃ d : Derivation .type, ts = d.tokens ++ us ∧ d.denote = t := by
  -- On the number of tokens: a type in brackets or after an arrow has fewer of them ahead.
  induction hn : ts.length using Nat.strongRecOn generalizing ts t us with
  | ind n ih =>
    obtain ⟨arg, vs, first, more⟩ := reads_monotype.1 h
    obtain ⟨a, rfl, rfl⟩ : ∃ a : Derivation .atom, ts = a.tokens ++ vs ∧ a.denote = arg := by
      obtain ⟨left, right, ws, rfl, read⟩ | ⟨token, rfl, ok⟩ := reads_atom.1 first
      · obtain ⟨d, rfl, denote⟩ := ih _ (by simp [← hn]) read rfl
        exact ⟨.bracketed left d right, by simp [Derivation.tokens], denote⟩
      · obtain ⟨a, tokens, denote⟩ := exists_derivation_of_ofToken ok
        exact ⟨a, by rw [tokens]; rfl, denote⟩
    obtain ⟨res, later, rfl⟩ | ⟨-, rfl, rfl⟩ := more
    · obtain ⟨span, ws, rfl, read⟩ := reads_result.1 later
      obtain ⟨d, rfl, rfl⟩ := ih _ (by simp [← hn]; omega) read rfl
      exact ⟨.fn a span d, by simp [Derivation.tokens], rfl⟩
    · exact ⟨.single a, rfl, rfl⟩

/-- The parser for what a derivation derives. -/
def parserFor : Category → Parser Ty
  | .type => monotype
  | .atom => atom monotype

theorem Derivation.reads {c : Category} (d : Derivation c) {rest : List Token} (ends : c = .type → Ends rest) :
    (parserFor c).reads (d.tokens ++ rest) = some (d.denote, rest) := by
  induction d generalizing rest with
  | single a ih =>
    have stops : (result monotype).reads rest = none := by
      refine Option.eq_none_iff_forall_ne_some.2 fun (_, _) read => ?_
      obtain ⟨span, vs, rfl, -⟩ := reads_result.1 read
      exact ends rfl _ rfl rfl
    exact reads_monotype.2 ⟨a.denote, rest, ih nofun, .inr ⟨stops, rfl, rfl⟩⟩
  | fn arg arrow res ihArg ihRes =>
    rw [tokens, List.append_assoc]
    refine reads_monotype.2 ⟨arg.denote, _, ihArg nofun, .inl ⟨res.denote, ?_, rfl⟩⟩
    exact reads_result.2 ⟨arrow, _, rfl, ihRes fun _ => ends rfl⟩
  | bracketed left inner right ih =>
    have read : monotype.reads (inner.tokens ++ ⟨.rparen, right⟩ :: rest) =
        some (inner.denote, ⟨.rparen, right⟩ :: rest) := ih fun _ => by simp [Ends]
    refine reads_atom.2 (.inl ⟨left, right, _, ?_, read⟩)
    simp [tokens]
  | int span | bool span | string span => exact reads_atom.2 (.inr ⟨_, rfl, rfl⟩)
  | unknown digits id written positive fits span =>
    refine reads_atom.2 (.inr ⟨_, rfl, ?_⟩)
    have found := unknownOfName?_eq_some.2 ⟨digits, rfl, written, positive, fits⟩
    simp only [ofToken, found]
    rfl

/-- All tokens are read exactly when they are derived, and the type read is that of the derivation. -/
theorem reads_monotype_iff :
    monotype.reads ts = some (t, []) ↔ ∃ d : Derivation .type, d.tokens = ts ∧ d.denote = t := by
  constructor
  · intro read
    obtain ⟨d, rfl, denote⟩ := exists_derivation read
    exact ⟨d, (List.append_nil _).symm, denote⟩
  · rintro ⟨d, rfl, rfl⟩
    have atEnd : Ends [] := nofun
    have read := d.reads fun _ => atEnd
    rwa [List.append_nil] at read

end Ty

end Monolet
