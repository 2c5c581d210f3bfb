import Monolet.Proofs.Expr.Reading

/-!
# The expression parser recognises the grammar

What the parser reads is derived by a greedy derivation, and the expression it returns is the one the derivation
stands for (`exists_derivation`). Conversely it reads whatever has a derivation at all, greedy or not: an open atom
then takes the atoms that follow it, so the induction is over a derivation with any readable row behind it
(`Derivation.readable`). Since greedy derivations are unambiguous, the two together determine all that the parser
returns (`reads_expression_iff`).
-/

namespace Monolet

namespace Expr

open Monolet.Parser

variable {inner : Parser Expr} {ts us rest : List Token} {e : Expr}

theorem fits_recTokens (marked : Option Span) : ∀ token ∈ recTokens marked, fits token.lexeme = true := by
  cases marked <;> simp [recTokens, fits]

theorem fits_integer {digits : String} :
    fits (.integer digits) = true ↔ ∃ n, Decimal.read? digits.toList = some n ∧ n ≤ maxInt := by
  simp [fits, Option.any_eq_true]

/-! ## What is read has a greedy derivation -/

/-- The tokens from `ts` up to `us` have a greedy derivation that stands for `v`. -/
structure Derives {c : Category} (d : Derivation c) (v : Derivation.Meaning c) (ts us : List Token) : Prop where
  tokens : ts = d.tokens ++ us
  denote : d.denote = v
  greedy : d.Greedy
  fits : ∀ token ∈ d.tokens, fits token.lexeme = true

/-- After an expression no atom can be read. -/
theorem atom_fails_after (h : expression.reads ts = some (e, us)) : (atom expression).reads us = none := by
  obtain ⟨f, args, row, -⟩ := reads_expression.1 h
  exact row.stops

theorem ReadsAtom.exists_derivation (h : ReadsAtom expression ts e us)
    (found : ∀ ts' e us, ts'.length < ts.length → expression.reads ts' = some (e, us) →
      ∃ d : Derivation .expression, Derives d e ts' us) :
    ∃ a : Derivation .atom, Derives a e ts us ∧ (a.isOpen = true → (atom expression).reads us = none) := by
  have closed {a : Derivation .atom} (h : a.isOpen = false) (isOpen : a.isOpen = true) :
      (atom expression).reads us = none := by
    rw [h] at isOpen
    cases isOpen
  cases h with
  | bracketed left right read =>
    obtain ⟨d, rfl, rfl, greedy, fits⟩ := found _ _ _ (by simp) read
    refine ⟨.bracketed left d right, ⟨by simp [Derivation.tokens], rfl, greedy, ?_⟩, closed rfl⟩
    simp only [Derivation.tokens, List.forall_mem_cons, List.forall_mem_append]
    exact ⟨rfl, fits, rfl, List.forall_mem_nil _⟩
  | lambda start x arrow read =>
    obtain ⟨d, rfl, rfl, greedy, fits⟩ := found _ _ _ (by simp; omega) read
    refine ⟨.lambda start x arrow d, ⟨rfl, rfl, greedy, ?_⟩, fun _ => atom_fails_after read⟩
    simp only [Derivation.tokens, List.forall_mem_cons]
    exact ⟨rfl, rfl, rfl, fits⟩
  | letIn start marked x equals inSpan readV readB =>
    have shorter := length_le_of_reads readV
    simp only [List.length_cons, List.length_append] at found shorter
    obtain ⟨d, rfl, rfl, greedyV, fitsV⟩ := found _ _ _ (by omega) readV
    obtain ⟨b, rfl, rfl, greedyB, fitsB⟩ := found _ _ _ (by omega) readB
    refine ⟨.letIn start marked x equals d inSpan b, ⟨by simp [Derivation.tokens], rfl, ⟨greedyV, greedyB⟩, ?_⟩,
      fun _ => atom_fails_after readB⟩
    simp only [Derivation.tokens, List.forall_mem_cons, List.forall_mem_append]
    exact ⟨rfl, fits_recTokens marked, rfl, rfl, fitsV, rfl, fitsB⟩
  | cond start thenSpan elseSpan readC readT readF =>
    have shorter := length_le_of_reads readC
    have shorter' := length_le_of_reads readT
    simp only [List.length_cons] at found shorter shorter'
    obtain ⟨c, rfl, rfl, greedyC, fitsC⟩ := found _ _ _ (by omega) readC
    obtain ⟨t, rfl, rfl, greedyT, fitsT⟩ := found _ _ _ (by omega) readT
    obtain ⟨f, rfl, rfl, greedyF, fitsF⟩ := found _ _ _ (by omega) readF
    refine ⟨.cond start c thenSpan t elseSpan f, ⟨by simp [Derivation.tokens], rfl, ⟨greedyC, greedyT, greedyF⟩, ?_⟩,
      fun _ => atom_fails_after readF⟩
    simp only [Derivation.tokens, List.forall_mem_cons, List.forall_mem_append]
    exact ⟨rfl, fitsC, rfl, fitsT, rfl, fitsF⟩
  | var x => exact ⟨.var x, ⟨rfl, rfl, trivial, by simp [Derivation.tokens, Expr.fits]⟩, closed rfl⟩
  | int digits span written fits =>
    refine ⟨.int digits span, ⟨rfl, by rw [Derivation.denote, written]; rfl, trivial, ?_⟩, closed rfl⟩
    simpa [Derivation.tokens] using fits_integer.2 ⟨_, written, fits⟩
  | bool b span => exact ⟨.bool b span, ⟨rfl, rfl, trivial, by simp [Derivation.tokens, Expr.fits]⟩, closed rfl⟩
  | string written span =>
    exact ⟨.string written span, ⟨rfl, rfl, trivial, by simp [Derivation.tokens, Expr.fits]⟩, closed rfl⟩

/-- A row of atoms has a derivation if all expressions in it have. -/
theorem exists_derivation_row {l : List Expr} {n : Nat} (h : Repeats (atom expression) ts l us) (le : ts.length ≤ n)
    (found : ∀ ts' e us, ts'.length < n → expression.reads ts' = some (e, us) →
      ∃ d : Derivation .expression, Derives d e ts' us) :
    ∃ m : Derivation .atoms, Derives m l ts us := by
  induction h with
  | nil stop => exact ⟨.nil, rfl, rfl, trivial, List.forall_mem_nil _⟩
  | cons read more ih =>
    have shorter := progresses_atom read
    obtain ⟨a, ⟨rfl, rfl, greedy, fits⟩, stops⟩ :=
      (reads_atom.1 read).exists_derivation fun ts' e us less => found ts' e us (by omega)
    obtain ⟨m, rfl, rfl, greedy', fits'⟩ := ih (by omega)
    refine ⟨.cons a m, (List.append_assoc ..).symm, rfl, ⟨greedy, greedy', fun isOpen => ?_⟩, ?_⟩
    · -- Where the body of an open atom ends, no atom can be read.
      cases m with
      | nil => rfl
      | cons =>
        cases more with
        | cons next =>
          rw [stops isOpen] at next
          cases next
    · simp only [Derivation.tokens, List.forall_mem_append]
      exact ⟨fits, fits'⟩

theorem exists_derivation (h : expression.reads ts = some (e, us)) :
    ∃ d : Derivation .expression, Derives d e ts us := by
  -- On the number of tokens: an expression inside an atom has fewer of them ahead.
  induction hn : ts.length using Nat.strongRecOn generalizing ts e us with
  | ind n ih =>
    obtain ⟨f, args, row, rfl⟩ := reads_expression.1 h
    obtain ⟨m, eq, denote, greedy, fits⟩ :=
      exists_derivation_row row (Nat.le_of_eq hn) fun ts' e us less read => ih _ less read rfl
    cases m with
    | nil => cases denote
    | cons first more =>
      cases denote
      exact ⟨.spine first more, eq, rfl, greedy, fits⟩

/-! ## What has a derivation is read -/

theorem ReadsAtom.not_ends (h : ReadsAtom inner ts e us) : ¬ Ends ts := by
  cases h with
  | bool b => cases b <;> simp [Ends, startsAtom, keywordOf]
  | _ => simp [Ends, startsAtom]

theorem atom_fails_of_ends [inner.Local] (h : Ends ts) : (atom inner).reads ts = none :=
  Option.eq_none_iff_forall_ne_some.2 fun (_, _) read => (reads_atom.1 read).not_ends h

/-- Before the end of an expression, the tokens are read as a row of atoms. -/
def Readable (ts : List Token) : Prop :=
  ∀ rest, Ends rest → ∃ args, Repeats (atom expression) (ts ++ rest) args rest

theorem readable_nil : Readable [] := fun _ ends => ⟨[], .nil (atom_fails_of_ends ends)⟩

theorem Readable.reads (h : Readable ts) (starts : ¬ Ends (ts ++ rest)) (ends : Ends rest) :
    ∃ e, expression.reads (ts ++ rest) = some (e, rest) := by
  obtain ⟨args, row⟩ := h rest ends
  cases args with
  | nil => exact absurd (row.eq_of_nil ▸ ends) starts
  | cons f args => exact ⟨f.applyAll args, reads_expression.2 ⟨f, args, row, rfl⟩⟩

/-- An open atom takes all that is readable behind it. -/
theorem Readable.of_open (reads : ∀ rest, Ends rest → ∃ e, ReadsAtom expression (ts ++ rest) e rest) : Readable ts := by
  intro rest ends
  obtain ⟨e, read⟩ := reads rest ends
  exact ⟨[e], .cons (reads_atom.2 read) (.nil (atom_fails_of_ends ends))⟩

/-- A closed atom takes nothing of what is readable behind it. -/
theorem Readable.of_closed (h : Readable us) (reads : ∀ rest, ∃ e, ReadsAtom expression (ts ++ rest) e rest) :
    Readable (ts ++ us) := by
  intro rest ends
  obtain ⟨e, read⟩ := reads (us ++ rest)
  obtain ⟨args, row⟩ := h rest ends
  rw [List.append_assoc]
  exact ⟨e :: args, .cons (reads_atom.2 read) row⟩

namespace Derivation

theorem reads_of_readable {d : Derivation .expression} (h : Readable (d.tokens ++ us)) (ends : Ends rest) :
    ∃ e, expression.reads (d.tokens ++ (us ++ rest)) = some (e, rest) := by
  rw [← List.append_assoc]
  refine h.reads ?_ ends
  rw [List.append_assoc]
  exact not_ends_expression d _

/-- An expression inside an atom is read up to the token that marks its end. -/
theorem reads_upTo {d : Derivation .expression} (h : Readable (d.tokens ++ [])) (mark : Token)
    (hm : startsAtom mark.lexeme = false) (rest : List Token) :
    ∃ e, expression.reads (d.tokens ++ mark :: rest) = some (e, mark :: rest) := by
  have read := reads_of_readable h (ends_cons hm rest)
  rwa [List.nil_append] at read

theorem readable {c : Category} (d : Derivation c) (fit : ∀ token ∈ d.tokens, fits token.lexeme = true)
    (h : Readable us) : Readable (d.tokens ++ us) := by
  -- The row behind is left alone by a closed atom and goes into the body of an open one, so it has to be any row.
  induction d generalizing us with
  | spine head args ihHead ihArgs =>
    simp only [tokens, List.forall_mem_append] at fit
    rw [tokens, List.append_assoc]
    exact ihHead fit.1 (ihArgs fit.2 h)
  | nil => exact h
  | cons first more ihFirst ihMore =>
    simp only [tokens, List.forall_mem_append] at fit
    rw [tokens, List.append_assoc]
    exact ihFirst fit.1 (ihMore fit.2 h)
  | bracketed left inner right ih =>
    simp only [tokens, List.forall_mem_cons, List.forall_mem_append] at fit
    refine h.of_closed fun rest => ?_
    obtain ⟨e, read⟩ := reads_upTo (ih fit.2.1 readable_nil) ⟨.rparen, right⟩ rfl rest
    simp only [tokens, List.cons_append, List.append_assoc, List.nil_append]
    exact ⟨e, .bracketed left right read⟩
  | lambda start x arrow body ih =>
    simp only [tokens, List.forall_mem_cons] at fit
    refine .of_open fun rest ends => ?_
    obtain ⟨e, read⟩ := reads_of_readable (ih fit.2.2.2 h) ends
    simp only [tokens, List.cons_append, List.append_assoc]
    exact ⟨_, .lambda start x arrow read⟩
  | letIn start marked x equals value inSpan body ihValue ihBody =>
    simp only [tokens, List.forall_mem_cons, List.forall_mem_append] at fit
    obtain ⟨-, -, -, -, fitV, -, fitB⟩ := fit
    refine .of_open fun rest ends => ?_
    obtain ⟨v, readV⟩ := reads_upTo (ihValue fitV readable_nil) ⟨.keyword .inKw, inSpan⟩ rfl
      (body.tokens ++ (us ++ rest))
    obtain ⟨b, readB⟩ := reads_of_readable (ihBody fitB h) ends
    simp only [tokens, List.cons_append, List.append_assoc]
    exact ⟨_, .letIn start marked x equals inSpan readV readB⟩
  | cond start c thenSpan t elseSpan e ihC ihT ihE =>
    simp only [tokens, List.forall_mem_cons, List.forall_mem_append] at fit
    obtain ⟨-, fitC, -, fitT, -, fitE⟩ := fit
    refine .of_open fun rest ends => ?_
    obtain ⟨_, readC⟩ := reads_upTo (ihC fitC readable_nil) ⟨.keyword .thenKw, thenSpan⟩ rfl
      (t.tokens ++ ⟨.keyword .elseKw, elseSpan⟩ :: (e.tokens ++ (us ++ rest)))
    obtain ⟨_, readT⟩ := reads_upTo (ihT fitT readable_nil) ⟨.keyword .elseKw, elseSpan⟩ rfl
      (e.tokens ++ (us ++ rest))
    obtain ⟨_, readE⟩ := reads_of_readable (ihE fitE h) ends
    simp only [tokens, List.cons_append, List.append_assoc]
    exact ⟨_, .cond start thenSpan elseSpan readC readT readE⟩
  | var x => exact h.of_closed fun rest => ⟨_, .var x⟩
  | int digits span =>
    obtain ⟨n, written, le⟩ := fits_integer.1 (fit _ (List.mem_singleton.2 rfl))
    exact h.of_closed fun rest => ⟨_, .int digits span written le⟩
  | bool b span => exact h.of_closed fun rest => ⟨_, .bool b span⟩
  | string written span => exact h.of_closed fun rest => ⟨_, .string written span⟩

end Derivation

/-! ## Whole token sequences -/

theorem reads_of_derivation (d : Derivation .expression) (fit : ∀ token ∈ d.tokens, fits token.lexeme = true) :
    ∃ e, expression.reads d.tokens = some (e, []) := by
  have row := d.readable fit readable_nil
  have atEnd : Ends [] := nofun
  obtain ⟨e, read⟩ := Derivation.reads_of_readable row atEnd
  rw [List.append_nil, List.append_nil] at read
  exact ⟨e, read⟩

/-- All tokens are read exactly when they are derived and integers are in range, however they are derived. -/
theorem exists_reads_iff :
    (∃ e, expression.reads ts = some (e, [])) ↔
      (∃ d : Derivation .expression, d.tokens = ts) ∧ ∀ token ∈ ts, fits token.lexeme = true := by
  constructor
  · rintro ⟨e, read⟩
    obtain ⟨d, rfl, -, -, fit⟩ := exists_derivation read
    rw [List.append_nil]
    exact ⟨⟨d, rfl⟩, fit⟩
  · rintro ⟨⟨d, rfl⟩, fit⟩
    exact reads_of_derivation d fit

/-- The expression that is read is that of the greedy derivation. -/
theorem reads_expression_iff :
    expression.reads ts = some (e, []) ↔
      (∃ d : Derivation .expression, d.Greedy ∧ d.tokens = ts ∧ d.denote = e) ∧
        ∀ token ∈ ts, fits token.lexeme = true := by
  constructor
  · intro read
    obtain ⟨d, rfl, denote, greedy, fit⟩ := exists_derivation read
    rw [List.append_nil]
    exact ⟨⟨d, greedy, rfl, denote⟩, fit⟩
  · rintro ⟨⟨d, greedy, rfl, rfl⟩, fit⟩
    obtain ⟨e, read⟩ := reads_of_derivation d fit
    obtain ⟨d', eq, rfl, greedy', -⟩ := exists_derivation read
    rw [List.append_nil] at eq
    rw [read, Derivation.eq_of_tokens_eq greedy greedy' eq]

end Expr

end Monolet
