import Monolet.Proofs.Expr.Grammar

/-!
# Derivations up to spans

Spans are for messages and decide nothing: tokens with the lexemes of a derivation have a derivation of their own that
differs from it in spans only (`Derivation.exists_tokens_eq`). Two such derivations are greedy together
(`Derivation.greedy_erase`) and stand for the same expression up to spans (`Derivation.denote_erase`).
-/

namespace Monolet

namespace Expr

/-- Names occur free regardless of spans. -/
theorem freeVars_erase (e : Expr) : e.erase.freeVars = e.freeVars := by
  induction e <;> simp_all [erase, freeVars]

theorem freeVars_congr {e e' : Expr} (h : e.erase = e'.erase) : e.freeVars = e'.freeVars := by
  rw [← freeVars_erase, h, freeVars_erase]

theorem erase_applyAll (f : Expr) (args : List Expr) : (f.applyAll args).erase = f.erase.apps (args.map erase) := by
  induction args generalizing f with
  | nil => rfl
  | cons a args ih => exact ih _

namespace Derivation

/-- The derivation without its spans. -/
def erase : {c : Category} → Derivation c → Derivation c
  | _, spine head args => spine head.erase args.erase
  | _, nil => nil
  | _, cons first more => cons first.erase more.erase
  | _, bracketed _ inner _ => bracketed {} inner.erase {}
  | _, lambda _ x _ body => lambda {} ⟨x.name, {}⟩ {} body.erase
  | _, letIn _ marked x _ value _ body =>
    letIn {} (marked.map fun _ => {}) ⟨x.name, {}⟩ {} value.erase {} body.erase
  | _, cond _ c _ t _ e => cond {} c.erase {} t.erase {} e.erase
  | _, var x => var ⟨x.name, {}⟩
  | _, int digits _ => int digits {}
  | _, bool b _ => bool b {}
  | _, string written _ => string written {}

theorem exists_recTokens_eq {marked : Option Span} {ts : List Token}
    (h : ts.map (·.lexeme) = (recTokens marked).map (·.lexeme)) :
    ∃ marked', ts = recTokens marked' ∧ (marked'.map fun _ => ({} : Span)) = marked.map fun _ => {} := by
  cases marked with
  | none => exact ⟨none, List.map_eq_nil_iff.1 h, rfl⟩
  | some span =>
    obtain ⟨⟨_, span'⟩, rfl, rfl⟩ := List.map_eq_singleton_iff.1 h
    exact ⟨some span', rfl, rfl⟩

/-- Tokens with the same lexemes have the same derivations up to spans. -/
theorem exists_tokens_eq {c : Category} (d : Derivation c) {ts : List Token}
    (h : ts.map (·.lexeme) = d.tokens.map (·.lexeme)) : ∃ d' : Derivation c, d'.tokens = ts ∧ d'.erase = d.erase := by
  induction d generalizing ts with
  | spine head args ihHead ihArgs =>
    obtain ⟨us, vs, rfl, first, more⟩ := List.map_eq_append_iff.1 (h.trans List.map_append)
    obtain ⟨a, rfl, sameA⟩ := ihHead first
    obtain ⟨m, rfl, sameM⟩ := ihArgs more
    exact ⟨.spine a m, rfl, by rw [erase, erase, sameA, sameM]⟩
  | nil => exact ⟨.nil, (List.map_eq_nil_iff.1 h).symm, rfl⟩
  | cons first more ihFirst ihMore =>
    obtain ⟨us, vs, rfl, first, more⟩ := List.map_eq_append_iff.1 (h.trans List.map_append)
    obtain ⟨a, rfl, sameA⟩ := ihFirst first
    obtain ⟨m, rfl, sameM⟩ := ihMore more
    exact ⟨.cons a m, rfl, by rw [erase, erase, sameA, sameM]⟩
  | bracketed left inner right ih =>
    simp only [tokens, List.map_cons, List.map_append, List.map_eq_cons_iff, List.map_eq_append_iff, List.map_nil,
      List.map_eq_nil_iff] at h
    obtain ⟨⟨_, left'⟩, _, rfl, rfl, us, _, rfl, inside, ⟨_, right'⟩, _, rfl, rfl, rfl⟩ := h
    obtain ⟨d, rfl, same⟩ := ih inside
    exact ⟨.bracketed left' d right', rfl, by rw [erase, erase, same]⟩
  | lambda start x arrow body ih =>
    simp only [tokens, List.map_cons, List.map_eq_cons_iff] at h
    obtain ⟨⟨_, start'⟩, _, rfl, rfl, ⟨_, name'⟩, _, rfl, rfl, ⟨_, arrow'⟩, _, rfl, rfl, inside⟩ := h
    obtain ⟨d, rfl, same⟩ := ih inside
    exact ⟨.lambda start' ⟨x.name, name'⟩ arrow' d, rfl, by rw [erase, erase, same]⟩
  | letIn start marked x equals value inSpan body ihValue ihBody =>
    simp only [tokens, List.map_cons, List.map_append, List.map_eq_cons_iff, List.map_eq_append_iff] at h
    obtain ⟨⟨_, start'⟩, _, rfl, rfl, us, _, rfl, isRec, ⟨_, name'⟩, _, rfl, rfl, ⟨_, equals'⟩, _, rfl, rfl, vs, _, rfl,
      inValue, ⟨_, inSpan'⟩, _, rfl, rfl, inBody⟩ := h
    obtain ⟨marked', rfl, sameMark⟩ := exists_recTokens_eq isRec
    obtain ⟨v, rfl, sameV⟩ := ihValue inValue
    obtain ⟨b, rfl, sameB⟩ := ihBody inBody
    exact ⟨.letIn start' marked' ⟨x.name, name'⟩ equals' v inSpan' b, rfl, by rw [erase, erase, sameMark, sameV, sameB]⟩
  | cond start c thenSpan t elseSpan e ihC ihT ihE =>
    simp only [tokens, List.map_cons, List.map_append, List.map_eq_cons_iff, List.map_eq_append_iff] at h
    obtain ⟨⟨_, start'⟩, _, rfl, rfl, us, _, rfl, inCondition, ⟨_, thenSpan'⟩, _, rfl, rfl, vs, _, rfl, inThen,
      ⟨_, elseSpan'⟩, _, rfl, rfl, inElse⟩ := h
    obtain ⟨c, rfl, sameC⟩ := ihC inCondition
    obtain ⟨t, rfl, sameT⟩ := ihT inThen
    obtain ⟨e, rfl, sameE⟩ := ihE inElse
    exact ⟨.cond start' c thenSpan' t elseSpan' e, rfl, by rw [erase, erase, sameC, sameT, sameE]⟩
  | var x =>
    obtain ⟨⟨_, span'⟩, rfl, rfl⟩ := List.map_eq_singleton_iff.1 h
    exact ⟨.var ⟨x.name, span'⟩, rfl, rfl⟩
  | int digits span =>
    obtain ⟨⟨_, span'⟩, rfl, rfl⟩ := List.map_eq_singleton_iff.1 h
    exact ⟨.int digits span', rfl, rfl⟩
  | bool b span =>
    obtain ⟨⟨_, span'⟩, rfl, rfl⟩ := List.map_eq_singleton_iff.1 h
    exact ⟨.bool b span', rfl, rfl⟩
  | string written span =>
    obtain ⟨⟨_, span'⟩, rfl, rfl⟩ := List.map_eq_singleton_iff.1 h
    exact ⟨.string written span', rfl, rfl⟩

@[simp] theorem isOpen_erase (a : Derivation .atom) : a.erase.isOpen = a.isOpen := by
  cases a <;> rfl

@[simp] theorem erase_eq_nil {m : Derivation .atoms} : m.erase = nil ↔ m = nil := by
  cases m <;> simp [erase]

theorem greedy_erase {c : Category} (d : Derivation c) : d.erase.Greedy ↔ d.Greedy := by
  induction d <;> simp_all [erase, Greedy]

/-- What a derivation stands for, without spans. -/
def eraseMeaning : {c : Category} → Meaning c → Meaning c
  | .expression, e | .atom, e => Expr.erase e
  | .atoms, args => List.map Expr.erase args

theorem denote_erase {c : Category} (d : Derivation c) : eraseMeaning d.erase.denote = eraseMeaning d.denote := by
  induction d with
  | spine head args ihHead ihArgs =>
    simp only [eraseMeaning, erase, denote, erase_applyAll] at *
    rw [ihHead, ihArgs]
  | cons first more ihFirst ihMore =>
    simp only [eraseMeaning, erase, denote, List.map_cons] at *
    rw [ihFirst, ihMore]
  | bracketed left inner right ih => exact ih
  | lambda start x arrow body ih =>
    simp only [eraseMeaning, erase, denote, Expr.erase] at *
    rw [ih]
  | letIn start marked x equals value inSpan body ihValue ihBody =>
    simp only [eraseMeaning, erase, denote, Expr.erase, Option.isSome_map] at *
    rw [ihValue, ihBody, freeVars_congr ihValue]
  | cond start c thenSpan t elseSpan e ihC ihT ihE =>
    simp only [eraseMeaning, erase, denote, Expr.erase] at *
    rw [ihC, ihT, ihE]
  | nil | var | int | bool | string => rfl

end Derivation

end Expr

end Monolet
