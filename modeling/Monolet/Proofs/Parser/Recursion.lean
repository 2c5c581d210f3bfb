import Mathlib
import Monolet.Proofs.Parser.Furthest

/-!
# Parsers that call each other

Parsers that call each other are given by one round of each, in which the calls go to any parsers whatever. Such a
recursion ends on a stream if the round comes to a result there by finitely many calls, each of which ends
(`Finishes`). There is no bound on the depth of calls or on the number of rounds of a loop in this, and a loop that
comes back to where it was has no end (`not_finishes_loop`).

A recursion ends everywhere if every call is made with fewer tokens left than the round has started with. Which
calls a round makes is followed through its combinators (`Settles`): a sequence makes the calls of both parts, the second
with what the first has left, and so does an alternative whose first part has failed.
-/

namespace Monolet.Parser

theorem remaining_le_of_ok {α : Type} {p : Parser α} [p.Local] {s s' : TokenStream} {a : α} (h : p s = .ok a s') :
    s'.remaining ≤ s.remaining := by
  rw [TokenStream.remaining_eq, TokenStream.remaining_eq]
  exact length_le_of_reads (reads_of_ok h)

variable {ι : Type} {γ : ι → Type} {round : ((i : ι) → Parser (γ i)) → (i : ι) → Parser (γ i)}

/-- The recursion with the given rounds ends: called for `i` on the stream, it comes to the result. The calls that are
listed have ended with the answers that are given, and to any parsers with these answers the round comes to the result. -/
inductive Finishes (round : ((i : ι) → Parser (γ i)) → (i : ι) → Parser (γ i)) :
    (i : ι) → TokenStream → EStateM.Result ParseError TokenStream (γ i) → Prop where
  | intro {i : ι} {s : TokenStream} {r : EStateM.Result ParseError TokenStream (γ i)} (calls : List (ι × TokenStream))
      (answers : (i : ι) → Parser (γ i)) (ended : ∀ c ∈ calls, Finishes round c.1 c.2 (answers c.1 c.2))
      (settled : ∀ parsers, (∀ c ∈ calls, parsers c.1 c.2 = answers c.1 c.2) → round parsers i s = r) : Finishes round i s r

/-- There is one result to come to. -/
theorem Finishes.unique {i : ι} {s : TokenStream} {r r' : EStateM.Result ParseError TokenStream (γ i)}
    (h : Finishes round i s r) (h' : Finishes round i s r') : r = r' := by
  classical
  induction h with
  | intro calls answers ended settled ih =>
    cases h' with
    | intro calls' answers' ended' settled' =>
      -- Both lists of calls are answered by one and the same parsers, since a call in both has one answer.
      let both (i : ι) : Parser (γ i) := fun s => if (i, s) ∈ calls then answers i s else answers' i s
      have first := settled both fun c hc => if_pos hc
      have second := settled' both fun c hc => by
        by_cases listed : c ∈ calls
        · exact (if_pos listed).trans (ih c listed (ended' c hc))
        · exact if_neg listed
      exact first.symm.trans second

theorem Finishes.iff_eq {i : ι} {s : TokenStream} {r r' : EStateM.Result ParseError TokenStream (γ i)}
    (h : Finishes round i s r) : Finishes round i s r' ↔ r' = r :=
  ⟨fun h' => h'.unique h, fun eq => eq ▸ h⟩

/-- A round whose result depends on a call of itself on the same stream has no end. -/
theorem not_finishes_of_calls_itself {i : ι} {s : TokenStream} {r : EStateM.Result ParseError TokenStream (γ i)}
    (again : ∀ f g, f i s = g i s → round f i s = round g i s) (depends : ∃ f g, round f i s ≠ round g i s) :
    ¬ Finishes round i s r := by
  classical
  intro h
  induction h with
  | @intro i s r calls answers ended settled ih =>
    by_cases listed : (i, s) ∈ calls
    · exact ih (i, s) listed again depends
    · -- The call is not listed, so that any answer to it gives the same result.
      have result (f : (i : ι) → Parser (γ i)) : round f i s = r := by
        let others (i : ι) : Parser (γ i) := fun s => if (i, s) ∈ calls then answers i s else f i s
        have same : others i s = f i s := if_neg listed
        exact (again others f same).symm.trans (settled others fun c hc => if_pos hc)
      obtain ⟨f, g, ne⟩ := depends
      exact ne ((result f).trans (result g).symm)

/-- One round of a loop over a parser: a try, and behind it the rest of the loop. -/
def loop {α : Type} (p : Parser α) (more : Parser (List α)) : Parser (List α) := p.optional >>= goOn more

/-- The loop over a parser that succeeds and reads nothing has no end. -/
theorem not_finishes_loop {α : Type} {p : Parser α} {a : α} {s : TokenStream} (still : p s = .ok a s)
    {r : EStateM.Result ParseError TokenStream (List α)} :
    ¬ Finishes (γ := fun _ => List α) (fun call (_ : Unit) => loop p (call ())) () s r := by
  have step (more : Parser (List α)) : loop p more s = EStateM.map (a :: ·) more s := by
    simp [loop, optional, HOrElse.hOrElse, OrElse.orElse, EStateM.orElse, Functor.map, EStateM.map, Bind.bind,
      EStateM.bind, still, goOn]
  refine not_finishes_of_calls_itself (fun f g same => ?_) ⟨fun _ => pure [], fun _ => pure [a], ?_⟩
  · rw [step, step, EStateM.map, EStateM.map, same]
  · rw [step, step]
    rintro ⟨⟩

/-! ## The calls of a round -/

/-- What `P` makes of the given parsers on the stream is settled by finitely many calls of them, each with fewer than `n`
tokens left. -/
def SettledAt (parsers : (i : ι) → Parser (γ i)) (n : Nat) {α : Type} (P : ((i : ι) → Parser (γ i)) → Parser α)
    (s : TokenStream) : Prop :=
  ∃ calls : List (ι × TokenStream), (∀ c ∈ calls, c.2.remaining < n) ∧
    ∀ others, (∀ c ∈ calls, others c.1 c.2 = parsers c.1 c.2) → P others s = P parsers s

/-- This is so on all streams with fewer than `m` tokens left. -/
def Settles (parsers : (i : ι) → Parser (γ i)) (m n : Nat) {α : Type} (P : ((i : ι) → Parser (γ i)) → Parser α) : Prop :=
  ∀ s : TokenStream, s.remaining < m → SettledAt parsers n P s

/-- A round whose calls all end comes to an end itself. -/
theorem SettledAt.finishes {parsers : (i : ι) → Parser (γ i)} {i : ι} {n : Nat} {s : TokenStream}
    (h : SettledAt parsers n (fun f => round f i) s)
    (ended : ∀ j t, t.remaining < n → Finishes round j t (parsers j t)) : Finishes round i s (round parsers i s) := by
  obtain ⟨calls, fewer, settled⟩ := h
  exact .intro calls parsers (fun c hc => ended c.1 c.2 (fewer c hc)) settled

variable {parsers : (i : ι) → Parser (γ i)} {α β : Type} {m n : Nat} {P P' : ((i : ι) → Parser (γ i)) → Parser α}
  {Q : α → ((i : ι) → Parser (γ i)) → Parser β} {s : TokenStream}

/-- The second part of a sequence starts where the first part ends. -/
theorem SettledAt.bind (first : SettledAt parsers n P s)
    (second : ∀ a s', P parsers s = .ok a s' → SettledAt parsers n (Q a) s') :
    SettledAt parsers n (fun f => P f >>= fun a => Q a f) s := by
  obtain ⟨calls, fewer, settled⟩ := first
  change ∃ _, _ ∧ ∀ others, _ → EStateM.bind (P others) (fun a => Q a others) s = EStateM.bind _ _ s
  cases ran : P parsers s with
  | error e s' =>
    refine ⟨calls, fewer, fun others same => ?_⟩
    rw [EStateM.bind, EStateM.bind, settled others same, ran]
  | ok a s' =>
    obtain ⟨calls', fewer', settled'⟩ := second a s' ran
    refine ⟨calls ++ calls', List.forall_mem_append.2 ⟨fewer, fewer'⟩, fun others same => ?_⟩
    obtain ⟨inFirst, inSecond⟩ := List.forall_mem_append.1 same
    rw [EStateM.bind, EStateM.bind, settled others inFirst, ran]
    exact settled' others inSecond

/-- The second part of an alternative starts where the first part did. -/
theorem SettledAt.orElse (first : SettledAt parsers n P s)
    (second : ∀ e s', P parsers s = .error e s' → SettledAt parsers n P' (s'.restore s.index)) :
    SettledAt parsers n (fun f => P f <|> P' f) s := by
  obtain ⟨calls, fewer, settled⟩ := first
  change ∃ _, _ ∧ ∀ others, _ → EStateM.orElse (P others) (fun _ => P' others) s = EStateM.orElse _ _ s
  cases ran : P parsers s with
  | ok a s' =>
    refine ⟨calls, fewer, fun others same => ?_⟩
    rw [EStateM.orElse, EStateM.orElse, settled others same, ran]
  | error e s' =>
    obtain ⟨calls', fewer', settled'⟩ := second e s' ran
    refine ⟨calls ++ calls', List.forall_mem_append.2 ⟨fewer, fewer'⟩, fun others same => ?_⟩
    obtain ⟨inFirst, inSecond⟩ := List.forall_mem_append.1 same
    rw [EStateM.orElse, EStateM.orElse, settled others inFirst, ran]
    exact settled' others inSecond

namespace Settles

/-- A parser that makes no calls. -/
theorem const (p : Parser α) : Settles parsers m n fun _ => p :=
  fun _ _ => ⟨[], List.forall_mem_nil _, fun _ _ => rfl⟩

theorem call (i : ι) : Settles parsers n n fun f => f i := by
  intro s few
  refine ⟨[(i, s)], List.forall_mem_singleton.2 few, fun others same => ?_⟩
  exact same (i, s) (List.mem_singleton_self _)

theorem bind [(P parsers).Local] (first : Settles parsers m n P) (second : ∀ a, Settles parsers m n (Q a)) :
    Settles parsers m n fun f => P f >>= fun a => Q a f :=
  fun s few => (first s few).bind fun a s' ran => second a s' ((remaining_le_of_ok ran).trans_lt few)

/-- Behind a parser that makes progress there is one token less. -/
theorem bind_of_progresses [(P parsers).Local] (progress : (P parsers).Progresses) (first : Settles parsers (m + 1) n P)
    (second : ∀ a, Settles parsers m n (Q a)) : Settles parsers (m + 1) n fun f => P f >>= fun a => Q a f := by
  refine fun s few => (first s few).bind fun a s' ran => second a s' ?_
  have less := progress.remaining_lt ran
  omega

theorem after_symbol {Q : Token → ((i : ι) → Parser (γ i)) → Parser β} (lexeme : Lexeme)
    (h : ∀ token, Settles parsers m n (Q token)) : Settles parsers (m + 1) n fun f => symbol lexeme >>= fun a => Q a f :=
  (const (symbol lexeme)).bind_of_progresses (progresses_symbol lexeme) h

theorem orElse [(P parsers).Local] (first : Settles parsers m n P) (second : Settles parsers m n P') :
    Settles parsers m n fun f => P f <|> P' f := by
  refine fun s few => (first s few).orElse fun e s' ran => second _ ?_
  have back : (s'.restore s.index).tokens = s.tokens := by
    have tokens := Local.tokens_after (p := P parsers) s
    rwa [after, ran] at tokens
  exact (TokenStream.remaining_le back le_rfl).trans_lt few

/-- A combinator that runs its parser once, from where it starts itself, makes the calls of its parser. -/
theorem once (h : Settles parsers m n P) (F : Parser α → Parser β) (runs : ∀ p q s, p s = q s → F p s = F q s) :
    Settles parsers m n fun f => F (P f) := by
  intro s few
  obtain ⟨calls, fewer, settled⟩ := h s few
  exact ⟨calls, fewer, fun others same => runs _ _ s (settled others same)⟩

theorem label (name : String) (h : Settles parsers m n P) : Settles parsers m n fun f => (P f).label name :=
  h.once (·.label name) fun p q s same => by rw [Parser.label, Parser.label, same]

theorem bind_pure (v : α → β) (h : Settles parsers m n P) : Settles parsers m n fun f => P f >>= fun a => pure (v a) :=
  h.once (· >>= fun a => pure (v a)) fun p q s same => by simp only [Bind.bind, EStateM.bind, same]

theorem optional (h : Settles parsers m n P) : Settles parsers m n fun f => (P f).optional :=
  h.once (·.optional) fun p q s same => by
    simp only [Parser.optional, HOrElse.hOrElse, OrElse.orElse, EStateM.orElse, Functor.map, EStateM.map, same]

/-- Between brackets there is one token less. -/
theorem bracketed [(P parsers).Local] (h : Settles parsers m n P) : Settles parsers (m + 1) n fun f => bracketed (P f) := by
  simp only [bracketed_eq]
  exact (after_symbol .lparen fun _ => h).bind fun a => .const _

end Settles

end Monolet.Parser
