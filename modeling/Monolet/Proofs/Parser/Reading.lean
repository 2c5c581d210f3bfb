import Mathlib
import Monolet.Parser.Basic

/-!
# What a parser reads

Apart from its errors, a parser is a function on the tokens ahead: it takes some of them off the front and yields a
value, or it fails. `Parser.reads` is that function, taken from a run on a stream of just these tokens. A parser is
`Local` when it does the same wherever in a stream it is run. All parsers here are, and for a local parser the
combinators come down to plain equations on lists: a sequence is a composition (`reads_bind`), an alternative is
tried on the same tokens (`reads_orElse`), labels change nothing (`reads_label`), and a repetition of a parser that
makes progress goes on for as long as it can (`Repeats`).
-/

namespace Monolet

namespace TokenStream

/-- The tokens from the index on. -/
def rest (s : TokenStream) : List Token := s.tokens.toList.drop s.index

@[simp] theorem rest_ofList (ts : List Token) : (ofList ts).rest = ts := by
  simp [rest, ofList]

theorem peek_eq (s : TokenStream) : s.peek = s.rest.head? := by
  simp [peek, rest]

theorem remaining_eq (s : TokenStream) : s.remaining = s.rest.length := by
  simp [remaining, rest]

theorem hasNext_eq_false {s : TokenStream} : s.hasNext = false ↔ s.rest = [] := by
  simp [hasNext, peek_eq]

theorem rest_advance {s : TokenStream} {token : Token} {ts : List Token} (h : s.rest = token :: ts) :
    s.advance.rest = ts := by
  have next : s.hasNext = true := by simp [hasNext, peek_eq, h]
  rw [advance, if_pos next, rest, ← List.drop_drop, List.drop_one]
  exact congrArg List.tail h

@[simp] theorem tokens_advance (s : TokenStream) : s.advance.tokens = s.tokens := by
  rw [advance]
  split <;> rfl

@[simp] theorem tokens_record (s : TokenStream) (e : ParseError) : (s.record e).tokens = s.tokens := by
  rw [record]
  split
  · split <;> rfl
  · rfl

end TokenStream

namespace Parser

variable {α β : Type} {p q : Parser α} {f : α → Parser β} {s : TokenStream} {ts us : List Token} {a : α}

/-- The value of a run and the tokens it leaves, unless it fails. -/
def readsAt (p : Parser α) (s : TokenStream) : Option (α × List Token) :=
  match p s with
  | .ok a s' => some (a, s'.rest)
  | .error _ _ => none

/-- The stream after a run. -/
def after (p : Parser α) (s : TokenStream) : TokenStream :=
  match p s with
  | .ok _ s' => s'
  | .error _ s' => s'

/-- What the parser makes of a list of tokens: a value and the tokens that it leaves, unless it fails. -/
def reads (p : Parser α) (ts : List Token) : Option (α × List Token) := p.readsAt (.ofList ts)

/-- The parser keeps the tokens, leaves some end of those ahead, and depends on nothing but those ahead. -/
class Local (p : Parser α) : Prop where
  tokens_after : ∀ s, (p.after s).tokens = s.tokens
  readsAt_eq : ∀ s, p.readsAt s = p.reads s.rest
  suffix : ∀ {ts a us}, p.reads ts = some (a, us) → us <:+ ts

theorem length_le_of_reads [p.Local] (h : p.reads ts = some (a, us)) : us.length ≤ ts.length :=
  (Local.suffix h).length_le

/-- A parser whose runs are given by a function on the tokens ahead. -/
theorem local_of_readsAt {g : List Token → Option (α × List Token)} (tokens : ∀ s, (p.after s).tokens = s.tokens)
    (runs : ∀ s, p.readsAt s = g s.rest) (suffix : ∀ ts a us, g ts = some (a, us) → us <:+ ts) : p.Local := by
  have eq (ts : List Token) : p.reads ts = g ts := by rw [reads, runs, TokenStream.rest_ofList]
  refine ⟨tokens, fun s => ?_, fun {ts a us} h => ?_⟩
  · rw [runs, eq]
  · exact suffix ts a us (eq ts ▸ h)

/-! ## Parsers of one token -/

/-- The value of the first token if `accept` takes it. -/
def takeFirst (accept : Token → Option α) : List Token → Option (α × List Token)
  | [] => none
  | token :: ts => (accept token).map (·, ts)

theorem takeFirst_eq_some {accept : Token → Option α} :
    takeFirst accept ts = some (a, us) ↔ ∃ token, ts = token :: us ∧ accept token = some a := by
  cases ts with
  | nil => simp [takeFirst]
  | cons token ts =>
    rw [takeFirst, Option.map_eq_some_iff]
    constructor
    · rintro ⟨b, accepted, eq⟩
      cases eq
      exact ⟨token, rfl, accepted⟩
    · rintro ⟨_, eq, accepted⟩
      cases eq
      exact ⟨a, accepted, rfl⟩

theorem readsAt_select (expected : String) (accept : Token → Option α) (s : TokenStream) :
    (select expected accept).readsAt s = takeFirst accept s.rest := by
  rw [readsAt, select, TokenStream.peek_eq]
  cases h : s.rest with
  | nil => rfl
  | cons token ts =>
    cases ha : accept token with
    | none => simp [takeFirst, ha, reject]
    | some a => simp [takeFirst, ha, TokenStream.rest_advance h]

instance local_select (expected : String) (accept : Token → Option α) : Local (select expected accept) := by
  refine local_of_readsAt (fun s => ?_) (readsAt_select expected accept) fun ts a us h => ?_
  · rw [after, select]
    cases s.peek with
    | none => simp [reject]
    | some token => cases h : accept token <;> simp [h, reject]
  · obtain ⟨token, rfl, -⟩ := takeFirst_eq_some.1 h
    exact List.suffix_cons token us

theorem reads_select {expected : String} {accept : Token → Option α} :
    (select expected accept).reads ts = some (a, us) ↔ ∃ token, ts = token :: us ∧ accept token = some a := by
  rw [reads, readsAt_select, TokenStream.rest_ofList, takeFirst_eq_some]

instance local_symbol (lexeme : Lexeme) : (symbol lexeme).Local := local_select ..

theorem reads_symbol {lexeme : Lexeme} {token : Token} :
    (symbol lexeme).reads ts = some (token, us) ↔ ts = token :: us ∧ token.lexeme = lexeme := by
  rw [symbol, reads_select]
  grind

theorem reads_symbol_of_ne {lexeme : Lexeme} {token : Token} (h : token.lexeme ≠ lexeme) (ts : List Token) :
    (symbol lexeme).reads (token :: ts) = none := by
  refine Option.eq_none_iff_forall_ne_some.2 fun (other, us) read => ?_
  obtain ⟨eq, same⟩ := reads_symbol.1 read
  cases eq
  exact h same

/-! ## Sequence and choice -/

instance (a : α) : (pure a : Parser α).Local :=
  local_of_readsAt (g := fun ts => some (a, ts)) (fun _ => rfl) (fun _ => rfl) fun ts b us h => by
    cases h
    exact List.suffix_refl _

@[simp] theorem reads_pure (a : α) (ts : List Token) : (pure a : Parser α).reads ts = some (a, ts) :=
  congrArg (fun us => some (a, us)) (TokenStream.rest_ofList ts)

theorem readsAt_bind [∀ a, (f a).Local] (s : TokenStream) :
    (p >>= f).readsAt s = (p.readsAt s).bind fun (a, us) => (f a).reads us := by
  simp only [readsAt, bind, EStateM.bind]
  cases p s with
  | ok a s' => exact Local.readsAt_eq s'
  | error e s' => rfl

theorem reads_bind [∀ a, (f a).Local] (ts : List Token) :
    (p >>= f).reads ts = (p.reads ts).bind fun (a, us) => (f a).reads us := readsAt_bind _

instance [p.Local] [∀ a, (f a).Local] : (p >>= f).Local := by
  refine local_of_readsAt (g := fun ts => (p.reads ts).bind fun (a, us) => (f a).reads us) (fun s => ?_) (fun s => ?_)
    fun ts b vs h => ?_
  · have first := Local.tokens_after (p := p) s
    simp only [after, bind, EStateM.bind] at first ⊢
    cases h : p s with
    | ok a s' =>
      rw [h] at first
      exact (Local.tokens_after (p := f a) s').trans first
    | error e s' =>
      rw [h] at first
      exact first
  · rw [readsAt_bind, Local.readsAt_eq]
  · obtain ⟨⟨a, us⟩, ha, hb⟩ := Option.bind_eq_some_iff.1 h
    exact (Local.suffix hb).trans (Local.suffix ha)

theorem reads_bind_eq_some [∀ a, (f a).Local] {b : β} {vs : List Token} :
    (p >>= f).reads ts = some (b, vs) ↔ ∃ a us, p.reads ts = some (a, us) ∧ (f a).reads us = some (b, vs) := by
  rw [reads_bind, Option.bind_eq_some_iff]
  exact ⟨fun ⟨⟨a, us⟩, h⟩ => ⟨a, us, h⟩, fun ⟨a, us, h⟩ => ⟨(a, us), h⟩⟩

theorem map_eq_bind (g : α → β) (p : Parser α) : g <$> p = p >>= fun a => pure (g a) := by
  funext s
  simp only [Functor.map, EStateM.map, bind, EStateM.bind]
  cases p s <;> rfl

theorem readsAt_orElse [p.Local] [q.Local] (s : TokenStream) :
    (p <|> q).readsAt s = (p.reads s.rest).or (q.reads s.rest) := by
  have tokens := Local.tokens_after (p := p) s
  rw [← Local.readsAt_eq (p := p)]
  simp only [after] at tokens
  simp only [readsAt, HOrElse.hOrElse, OrElse.orElse, EStateM.orElse]
  cases h : p s with
  | ok a s' => rfl
  | error e s' =>
    rw [h] at tokens
    have back : (s'.restore s.index).rest = s.rest := by
      rw [TokenStream.rest, TokenStream.rest, TokenStream.restore, tokens]
    rw [Option.or, ← back]
    exact Local.readsAt_eq (p := q) (s'.restore s.index)

instance [p.Local] [q.Local] : (p <|> q).Local := by
  refine local_of_readsAt (g := fun ts => (p.reads ts).or (q.reads ts)) (fun s => ?_) readsAt_orElse
    fun ts a us h => ?_
  · have first := Local.tokens_after (p := p) s
    simp only [after, HOrElse.hOrElse, OrElse.orElse, EStateM.orElse] at first ⊢
    cases h : p s with
    | ok a s' =>
      rw [h] at first
      exact first
    | error e s' =>
      rw [h] at first
      exact (Local.tokens_after (p := q) (s'.restore s.index)).trans first
  · rw [Option.or_eq_some_iff] at h
    obtain h | ⟨-, h⟩ := h
    · exact Local.suffix h
    · exact Local.suffix h

theorem reads_orElse [p.Local] [q.Local] (ts : List Token) : (p <|> q).reads ts = (p.reads ts).or (q.reads ts) := by
  rw [reads, readsAt_orElse, TokenStream.rest_ofList]

/-- If no tokens are read by both, then the order of two alternatives does not matter. -/
theorem reads_orElse_eq_some [p.Local] [q.Local] (apart : p.reads ts = none ∨ q.reads ts = none) :
    (p <|> q).reads ts = some (a, us) ↔ p.reads ts = some (a, us) ∨ q.reads ts = some (a, us) := by
  rw [reads_orElse, Option.or_eq_some_iff]
  grind

/-! ## Labels and refused values -/

theorem label_of_error (name : String) {e : ParseError} {s' : TokenStream} (h : p s = .error e s') :
    ∃ e' s'', p.label name s = .error e' s'' ∧ s''.tokens = s'.tokens := by
  rw [label, h]
  by_cases further : s.index < s'.index
  · exact ⟨e, s', if_pos further, rfl⟩
  · exact ⟨_, _, if_neg further, TokenStream.tokens_record ..⟩

theorem readsAt_label [p.Local] (name : String) (s : TokenStream) : (p.label name).readsAt s = p.reads s.rest := by
  rw [← Local.readsAt_eq (p := p), readsAt, readsAt]
  cases h : p s with
  | ok a s' => rw [label, h]
  | error e s' =>
    obtain ⟨e', s'', failed, -⟩ := label_of_error name h
    rw [failed]

instance [p.Local] (name : String) : (p.label name).Local := by
  refine local_of_readsAt (fun s => ?_) (readsAt_label name) fun ts a us => Local.suffix
  rw [← Local.tokens_after (p := p) s, after, after]
  cases h : p s with
  | ok a s' => rw [label, h]
  | error e s' =>
    obtain ⟨e', s'', failed, tokens⟩ := label_of_error name h
    rw [failed]
    exact tokens

@[simp] theorem reads_label [p.Local] (name : String) (ts : List Token) : (p.label name).reads ts = p.reads ts := by
  rw [reads, readsAt_label, TokenStream.rest_ofList]

instance (e : ParseError) : (reject e : Parser α).Local :=
  local_of_readsAt (g := fun _ => none) (fun s => TokenStream.tokens_record s e) (fun _ => rfl)
    fun _ _ _ h => by cases h

/-- What `refine` does with a value. -/
def judge (g : α → Except ParseError β) (a : α) : Parser β :=
  match g a with
  | .ok b => pure b
  | .error e => reject e

theorem refine_eq (p : Parser α) (g : α → Except ParseError β) : p.refine g = p >>= judge g := rfl

instance (g : α → Except ParseError β) (a : α) : (judge g a).Local := by
  rw [judge]
  cases g a <;> infer_instance

instance [p.Local] (g : α → Except ParseError β) : (p.refine g).Local := inferInstanceAs (Local (p >>= judge g))

theorem reads_refine_eq_some [p.Local] {g : α → Except ParseError β} {b : β} :
    (p.refine g).reads ts = some (b, us) ↔ ∃ a, p.reads ts = some (a, us) ∧ g a = .ok b := by
  rw [refine_eq, reads_bind_eq_some]
  constructor
  · rintro ⟨a, vs, first, second⟩
    rw [judge] at second
    cases h : g a with
    | ok c =>
      rw [h, reads_pure] at second
      cases second
      exact ⟨a, first, h⟩
    | error e =>
      rw [h] at second
      cases second
  · rintro ⟨a, first, ok⟩
    refine ⟨a, us, first, ?_⟩
    rw [judge, ok, reads_pure]

/-! ## Options and repetitions -/

instance [p.Local] (g : α → β) : (g <$> p).Local := by
  rw [map_eq_bind]
  infer_instance

theorem reads_map (g : α → β) (p : Parser α) (ts : List Token) :
    (g <$> p).reads ts = (p.reads ts).map fun (a, us) => (g a, us) := by
  rw [map_eq_bind, reads_bind]
  cases p.reads ts with
  | none => rfl
  | some x => exact reads_pure ..

instance [p.Local] : p.optional.Local := inferInstanceAs (Local (some <$> p <|> pure none))

theorem reads_optional [p.Local] (ts : List Token) :
    p.optional.reads ts = ((p.reads ts).map fun (a, us) => (some a, us)).or (some (none, ts)) := by
  rw [optional, reads_orElse, reads_map, reads_pure]

theorem reads_optional_of_reads [p.Local] (h : p.reads ts = some (a, us)) :
    p.optional.reads ts = some (some a, us) := by
  rw [reads_optional, h]
  rfl

theorem reads_optional_of_fails [p.Local] (h : p.reads ts = none) : p.optional.reads ts = some (none, ts) := by
  rw [reads_optional, h]
  rfl

theorem reads_optional_eq_some [p.Local] {tried : Option α} :
    p.optional.reads ts = some (tried, us) ↔
      (∃ a, tried = some a ∧ p.reads ts = some (a, us)) ∨ tried = none ∧ us = ts ∧ p.reads ts = none := by
  rw [reads_optional]
  cases h : p.reads ts with
  | none => simp; grind
  | some x => simp; grind

/-- What `atMost` does after a try. -/
def goOn (more : Parser (List α)) : Option α → Parser (List α)
  | some a => (a :: ·) <$> more
  | none => pure []

instance (more : Parser (List α)) [more.Local] (tried : Option α) : (goOn more tried).Local := by
  cases tried <;> (rw [goOn]; infer_instance)

theorem atMost_succ (p : Parser α) (n : Nat) : p.atMost (n + 1) = p.optional >>= goOn (p.atMost n) := rfl

instance [p.Local] (n : Nat) : (p.atMost n).Local := by
  induction n with
  | zero => exact inferInstanceAs (Local (pure []))
  | succ n ih =>
    rw [atMost_succ]
    infer_instance

theorem reads_atMost_of_reads [p.Local] (n : Nat) (h : p.reads ts = some (a, us)) :
    (p.atMost (n + 1)).reads ts = ((p.atMost n).reads us).map fun (l, vs) => (a :: l, vs) := by
  rw [atMost_succ, reads_bind, reads_optional_of_reads h]
  exact reads_map ..

theorem reads_atMost_of_fails [p.Local] (n : Nat) (h : p.reads ts = none) :
    (p.atMost (n + 1)).reads ts = some ([], ts) := by
  rw [atMost_succ, reads_bind, reads_optional_of_fails h]
  exact reads_pure ..

/-- A value costs at least one token. -/
def Progresses (p : Parser α) : Prop := ∀ {ts a us}, p.reads ts = some (a, us) → us.length < ts.length

/-- One try more than there are tokens left is as good as any number of tries. -/
theorem Progresses.reads_atMost [p.Local] (progress : p.Progresses) {m n : Nat} (hm : ts.length < m)
    (hn : ts.length < n) : (p.atMost m).reads ts = (p.atMost n).reads ts := by
  induction m generalizing n ts with
  | zero => cases hm
  | succ m ih =>
    obtain ⟨n, rfl⟩ : ∃ k, n = k + 1 := ⟨n - 1, by omega⟩
    cases h : p.reads ts with
    | none => rw [reads_atMost_of_fails m h, reads_atMost_of_fails n h]
    | some x =>
      obtain ⟨a, us⟩ := x
      have less := progress h
      have same : (p.atMost m).reads us = (p.atMost n).reads us := ih (by omega) (by omega)
      rw [reads_atMost_of_reads m h, reads_atMost_of_reads n h, same]

theorem readsAt_many [p.Local] (s : TokenStream) :
    p.many.readsAt s = (p.atMost (s.rest.length + 1)).reads s.rest := by
  rw [← Local.readsAt_eq, ← TokenStream.remaining_eq]
  rfl

instance [p.Local] : p.many.Local :=
  local_of_readsAt (g := fun ts => (p.atMost (ts.length + 1)).reads ts)
    (fun s => Local.tokens_after (p := p.atMost (s.remaining + 1)) s) readsAt_many fun _ _ _ => Local.suffix

theorem reads_many [p.Local] (ts : List Token) : p.many.reads ts = (p.atMost (ts.length + 1)).reads ts := by
  rw [reads, readsAt_many, TokenStream.rest_ofList]

theorem reads_many_of_fails [p.Local] (h : p.reads ts = none) : p.many.reads ts = some ([], ts) := by
  rw [reads_many, reads_atMost_of_fails _ h]

theorem Progresses.reads_many_of_reads [p.Local] (progress : p.Progresses) (h : p.reads ts = some (a, us)) :
    p.many.reads ts = (p.many.reads us).map fun (l, vs) => (a :: l, vs) := by
  have less := progress h
  rw [reads_many, reads_atMost_of_reads _ h, reads_many, progress.reads_atMost less (Nat.lt_succ_self us.length)]

/-- The values that `p` reads one after the other until it fails. -/
inductive Repeats (p : Parser α) : List Token → List α → List Token → Prop where
  | nil {ts : List Token} (stop : p.reads ts = none) : Repeats p ts [] ts
  | cons {ts us vs : List Token} {a : α} {l : List α} (read : p.reads ts = some (a, us)) (more : Repeats p us l vs) :
      Repeats p ts (a :: l) vs

theorem Repeats.stops {l : List α} (h : Repeats p ts l us) : p.reads us = none := by
  induction h with
  | nil stop => exact stop
  | cons _ _ ih => exact ih

theorem Repeats.eq_of_nil (h : Repeats p ts [] us) : us = ts := by
  cases h
  rfl

theorem Progresses.reads_many_eq_some [p.Local] (progress : p.Progresses) {l : List α} :
    p.many.reads ts = some (l, us) ↔ Repeats p ts l us := by
  constructor
  · intro h
    induction hn : ts.length using Nat.strongRecOn generalizing ts l with
    | ind n ih =>
      cases first : p.reads ts with
      | none =>
        rw [reads_many_of_fails first] at h
        cases h
        exact .nil first
      | some x =>
        obtain ⟨a, vs⟩ := x
        rw [progress.reads_many_of_reads first] at h
        obtain ⟨⟨l, ws⟩, later, eq⟩ := Option.map_eq_some_iff.1 h
        cases eq
        exact .cons first (ih _ (hn ▸ progress first) later rfl)
  · intro h
    induction h with
    | nil stop => exact reads_many_of_fails stop
    | cons read _ ih => rw [progress.reads_many_of_reads read, ih, Option.map_some]

/-! ## Brackets -/

theorem bracketed_eq (p : Parser α) :
    bracketed p = (symbol .lparen >>= fun _ => p) >>= fun a => symbol .rparen >>= fun _ => pure a := rfl

instance [p.Local] : (bracketed p).Local := by
  rw [bracketed_eq]
  infer_instance

theorem reads_bracketed_eq_some [p.Local] :
    (bracketed p).reads ts = some (a, us) ↔
      ∃ left right vs, ts = ⟨.lparen, left⟩ :: vs ∧ p.reads vs = some (a, ⟨.rparen, right⟩ :: us) := by
  simp only [bracketed_eq, reads_bind_eq_some, reads_symbol, reads_pure]
  constructor
  · rintro ⟨b, ws, ⟨⟨_, left⟩, vs, ⟨rfl, rfl⟩, inner⟩, ⟨_, right⟩, xs, ⟨rfl, rfl⟩, eq⟩
    cases eq
    exact ⟨left, right, vs, rfl, inner⟩
  · rintro ⟨left, right, vs, rfl, inner⟩
    exact ⟨a, _, ⟨⟨.lparen, left⟩, vs, ⟨rfl, rfl⟩, inner⟩, ⟨.rparen, right⟩, us, ⟨rfl, rfl⟩, rfl⟩

/-! ## Nesting -/

/-- Two parsers make the same of fewer than `n` tokens. -/
def AgreeBelow (n : Nat) (p q : Parser α) : Prop := ∀ ts : List Token, ts.length < n → p.reads ts = q.reads ts

theorem AgreeBelow.refl (n : Nat) (p : Parser α) : AgreeBelow n p p := fun _ _ => rfl

theorem AgreeBelow.symm {n : Nat} (h : AgreeBelow n p q) : AgreeBelow n q p := fun ts less => (h ts less).symm

theorem AgreeBelow.trans {n : Nat} {r : Parser α} (h : AgreeBelow n p q) (h' : AgreeBelow n q r) : AgreeBelow n p r :=
  fun ts less => (h ts less).trans (h' ts less)

theorem AgreeBelow.mono {m n : Nat} (h : AgreeBelow n p q) (le : m ≤ n) : AgreeBelow m p q :=
  fun ts less => h ts (by omega)

theorem AgreeBelow.bind [p.Local] [q.Local] {g : α → Parser β} [∀ a, (f a).Local] [∀ a, (g a).Local] {n : Nat}
    (h : AgreeBelow n p q) (h' : ∀ a, AgreeBelow n (f a) (g a)) : AgreeBelow n (p >>= f) (q >>= g) := by
  intro ts less
  rw [reads_bind, reads_bind, h ts less]
  cases read : q.reads ts with
  | none => rfl
  | some x =>
    obtain ⟨a, us⟩ := x
    have shorter := length_le_of_reads read
    exact h' a us (by omega)

/-- A token in front leaves one token less. -/
theorem AgreeBelow.after_symbol [p.Local] [q.Local] {n : Nat} (h : AgreeBelow n p q) (lexeme : Lexeme) :
    AgreeBelow (n + 1) (symbol lexeme >>= fun _ => p) (symbol lexeme >>= fun _ => q) := by
  intro ts less
  rw [reads_bind, reads_bind]
  cases read : (symbol lexeme).reads ts with
  | none => rfl
  | some x =>
    obtain ⟨token, us⟩ := x
    obtain ⟨rfl, -⟩ := reads_symbol.1 read
    exact h us (by simp only [List.length_cons] at less; omega)

theorem AgreeBelow.orElse {p' q' : Parser α} [p.Local] [q.Local] [p'.Local] [q'.Local] {n : Nat} (h : AgreeBelow n p q)
    (h' : AgreeBelow n p' q') : AgreeBelow n (p <|> p') (q <|> q') := by
  intro ts less
  rw [reads_orElse, reads_orElse, h ts less, h' ts less]

theorem AgreeBelow.optional [p.Local] [q.Local] {n : Nat} (h : AgreeBelow n p q) :
    AgreeBelow n p.optional q.optional := by
  intro ts less
  rw [reads_optional, reads_optional, h ts less]

theorem AgreeBelow.many [p.Local] [q.Local] {n : Nat} (h : AgreeBelow n p q) : AgreeBelow n p.many q.many := by
  have tries (k : Nat) : AgreeBelow n (p.atMost k) (q.atMost k) := by
    induction k with
    | zero => exact fun _ _ => rfl
    | succ k ih =>
      intro ts less
      cases hp : p.reads ts with
      | none => rw [reads_atMost_of_fails k hp, reads_atMost_of_fails k (h ts less ▸ hp)]
      | some x =>
        obtain ⟨a, us⟩ := x
        have shorter := length_le_of_reads hp
        rw [reads_atMost_of_reads k hp, reads_atMost_of_reads k (h ts less ▸ hp), ih us (by omega)]
  intro ts less
  rw [reads_many, reads_many, tries _ ts less]

/-- Run the parser of a family that is made for one token more than there are left. -/
def sized (w : Nat → Parser α) : Parser α := fun s => w (s.remaining + 1) s

theorem readsAt_sized {w : Nat → Parser α} [∀ n, (w n).Local] (s : TokenStream) :
    (sized w).readsAt s = (w (s.rest.length + 1)).reads s.rest := by
  rw [← Local.readsAt_eq, ← TokenStream.remaining_eq]
  rfl

instance {w : Nat → Parser α} [∀ n, (w n).Local] : (sized w).Local :=
  local_of_readsAt (g := fun ts => (w (ts.length + 1)).reads ts)
    (fun s => Local.tokens_after (p := w (s.remaining + 1)) s) readsAt_sized fun _ _ _ => Local.suffix

theorem reads_sized {w : Nat → Parser α} [∀ n, (w n).Local] (ts : List Token) :
    (sized w).reads ts = (w (ts.length + 1)).reads ts := by
  rw [reads, readsAt_sized, TokenStream.rest_ofList]

/-- If each member of a family is made from the one before, for one token more, then the bound on nesting is no
bound: the parser of the family is made from itself. -/
theorem reads_sized_eq {w : Nat → Parser α} [∀ n, (w n).Local] {F : Parser α → Parser α}
    (step : ∀ n, w (n + 1) = F (w n))
    (lift : ∀ {n : Nat} {p q : Parser α} [p.Local] [q.Local], AgreeBelow n p q → AgreeBelow (n + 1) (F p) (F q))
    (ts : List Token) : (sized w).reads ts = (F (sized w)).reads ts := by
  -- A member does as the next one on the tokens it is made for, hence as all later ones and as the family itself.
  have next (n : Nat) : AgreeBelow n (w n) (w (n + 1)) := by
    induction n with
    | zero => exact fun _ less => absurd less (Nat.not_lt_zero _)
    | succ n ih =>
      rw [step, step (n + 1)]
      exact lift ih
  have later (n k : Nat) : AgreeBelow n (w n) (w (n + k)) := by
    induction k with
    | zero => exact fun _ _ => rfl
    | succ k ih => exact ih.trans ((next (n + k)).mono (by omega))
  have enough (n : Nat) : AgreeBelow n (w n) (sized w) := by
    intro us less
    obtain ⟨k, rfl⟩ : ∃ k, n = us.length + 1 + k := ⟨n - (us.length + 1), by omega⟩
    rw [reads_sized, later (us.length + 1) k us (Nat.lt_succ_self _)]
  rw [reads_sized, step]
  exact lift (enough ts.length) ts (Nat.lt_succ_self _)

/-! ## Whole inputs -/

theorem complete_of_ok {b : α} {s' : TokenStream} (h : p s = .ok b s') :
    p.complete s =
      if s'.hasNext then .error (s'.furthestError.getD (s'.errorHere .unexpectedToken)) s' else .ok b s' := by
  rw [complete, h]

/-- A parser succeeds on a whole input when it reads all of it. -/
theorem complete_eq_ok : (∃ s, p.complete (.ofList ts) = .ok a s) ↔ p.reads ts = some (a, []) := by
  cases h : p (.ofList ts) with
  | error e s =>
    rw [complete, h, reads, readsAt, h]
    exact ⟨nofun, nofun⟩
  | ok b s =>
    have runs : p.reads ts = some (b, s.rest) := by rw [reads, readsAt, h]
    rw [complete_of_ok h, runs]
    cases next : s.hasNext with
    | true =>
      have more : s.rest ≠ [] := by
        intro nil
        rw [TokenStream.hasNext_eq_false.2 nil] at next
        cases next
      simp [more]
    | false =>
      rw [TokenStream.hasNext_eq_false.1 next]
      simp

/-- A source text is parsed when it is lexed and all its tokens are read. -/
theorem parse_eq_ok {source : String} :
    p.parse source = .ok a ↔ ∃ ts, Token.lex source = .ok ts ∧ p.reads ts = some (a, []) := by
  rw [parse]
  cases Token.lex source with
  | error e => exact ⟨nofun, nofun⟩
  | ok ts =>
    simp only [Except.ok.injEq, exists_eq_left', ← complete_eq_ok]
    cases p.complete (.ofList ts) with
    | ok b s => simp
    | error e s => simp

end Parser

end Monolet
