import Mathlib
import Monolet.Proofs.Parser.Reading

/-!
# How far a parser gets

The failure that a run keeps is the one that lies furthest into the tokens. It is worth reporting for two reasons. The
tokens before it are the beginning of something that can be read, so nothing is wrong with them. And the run has looked
at no token behind it: it would have gone the same way on any other tokens that are the same up to there. Both are
stated for a run from anywhere in a stream (`Traced`) and hold of a combinator when they hold of its parts. What can be
read is given as a language, which grows along with the parser: a sequence reads a product, an option a sum and a
repetition a star.

One failure lies too far by one. A value that is refused after its token has been read is kept behind that token, though
it is about the token itself; such tokens are called refused.
-/

namespace Monolet

/-- The tokens from index `i` up to index `k`. -/
def Token.segment (ts : List Token) (i k : Nat) : List Token := (ts.take k).drop i

namespace Token

variable {ts : List Token} {i j k : Nat}

@[simp] theorem segment_self : segment ts i i = [] :=
  List.drop_eq_nil_of_le (List.length_take_le i ts)

theorem segment_append (hij : i ≤ j) (hjk : j ≤ k) : segment ts i j ++ segment ts j k = segment ts i k := by
  have shorter : ts.take j = (ts.take k).take j := by rw [List.take_take, Nat.min_eq_left hjk]
  rw [segment, shorter, segment, segment]
  generalize ts.take k = us
  obtain le | lt := Nat.le_total j us.length
  · nth_rewrite 3 [← List.take_append_drop j us]
    rw [List.drop_append_of_le_length (by rw [List.length_take]; omega)]
  · rw [List.take_of_length_le lt, List.drop_eq_nil_of_le lt, List.append_nil]

theorem segment_succ {token : Token} (h : ts[i]? = some token) : segment ts i (i + 1) = [token] := by
  rw [segment, List.take_add_one, h, List.drop_append, List.drop_eq_nil_of_le (List.length_take_le i ts)]
  obtain ⟨lt, -⟩ := List.getElem?_eq_some_iff.1 h
  rw [List.length_take, Nat.min_eq_left lt.le, Nat.sub_self]
  rfl

end Token

/-- The error is about token `k`, or about the end of the tokens if there is no such token. -/
structure ParseError.About (e : ParseError) (ts : List Token) (k : Nat) : Prop where
  span : e.span = ts[k]?.map (·.span)
  cause : ts[k]? = none → e.cause = .endOfInput

namespace TokenStream

/-- All tokens of the stream, those read included. -/
def all (s : TokenStream) : List Token := s.tokens.toList

/-- How many tokens the furthest failure has seen: those before it and the one that it stands at. -/
def reach (s : TokenStream) : Nat := s.furthest.elim 0 (·.1 + 1)

theorem peek_eq_all (s : TokenStream) : s.peek = s.all[s.index]? := (Array.getElem?_toList ..).symm

theorem remaining_le {s s' : TokenStream} (tokens : s'.tokens = s.tokens) (le : s.index ≤ s'.index) :
    s'.remaining ≤ s.remaining := by
  rw [remaining, remaining, tokens]
  omega

/-- The index is that of a token, or right behind the last one. -/
def Inside (s : TokenStream) : Prop := s.index ≤ s.tokens.size

theorem index_advance {s : TokenStream} {token : Token} (h : s.peek = some token) : s.advance.index = s.index + 1 := by
  have next : s.hasNext = true := by rw [hasNext, h]; rfl
  rw [advance, if_pos next]

theorem furthest_advance (s : TokenStream) : s.advance.furthest = s.furthest := by
  rw [advance]
  split <;> rfl

theorem index_record (s : TokenStream) (e : ParseError) : (s.record e).index = s.index := by
  rw [record]
  split
  · split <;> rfl
  · rfl

theorem Inside.advance {s : TokenStream} (h : s.Inside) : s.advance.Inside := by
  rw [TokenStream.advance]
  split
  next next =>
    obtain ⟨token, here⟩ := Option.isSome_iff_exists.1 next
    exact (Array.getElem?_eq_some_iff.1 here).1
  next => exact h

theorem Inside.record {s : TokenStream} (h : s.Inside) (e : ParseError) : (s.record e).Inside := by
  rwa [Inside, index_record, tokens_record]

/-- An error is kept, unless one further on is. -/
theorem furthest_record (s : TokenStream) (e : ParseError) :
    (s.record e).furthest = some (s.index, e) ∨ (s.record e).furthest = s.furthest ∧ s.index < s.reach := by
  rw [record]
  split
  next i e' kept =>
    split
    next further => exact .inr ⟨rfl, by rw [reach, kept]; exact Nat.lt_succ_of_lt further⟩
    next => exact .inl rfl
  next => exact .inl rfl

theorem reach_le_reach_record (s : TokenStream) (e : ParseError) : s.reach ≤ (s.record e).reach := by
  rw [record]
  split
  next i e' kept =>
    split
    next => exact le_rfl
    next further =>
      rw [reach, reach, kept]
      exact Nat.succ_le_succ (Nat.le_of_not_lt further)
  next none =>
    rw [reach, none]
    exact Nat.zero_le _

theorem index_lt_reach_record (s : TokenStream) (e : ParseError) : s.index < (s.record e).reach := by
  obtain new | ⟨old, lt⟩ := s.furthest_record e
  · rw [reach, new]
    exact Nat.lt_succ_self _
  · rwa [reach, old]

/-- A failure kept ahead is there to be reported. -/
theorem furthestError_of_lt_reach {s : TokenStream} (h : s.index < s.reach) :
    ∃ m e, s.furthest = some (m, e) ∧ s.reach = m + 1 ∧ s.furthestError = some e := by
  cases kept : s.furthest with
  | none =>
    rw [reach, kept] at h
    cases h
  | some x =>
    obtain ⟨m, e⟩ := x
    rw [reach, kept] at h
    refine ⟨m, e, rfl, by rw [reach, kept]; rfl, ?_⟩
    rw [furthestError, kept]
    exact if_pos (Nat.le_of_lt_succ h)

theorem about_errorHere (s : TokenStream) (expected : List String) :
    ({ s.errorHere .unexpectedToken with expected } : ParseError).About s.all s.index := by
  rw [errorHere, peek_eq_all]
  constructor
  · cases s.all[s.index]? <;> rfl
  · intro none
    rw [none]

end TokenStream

namespace Parser

open scoped Computability

variable {α β : Type} {refused : Token → Prop} {L M : Language Token} {p q : Parser α} {f g : α → Parser β}
  {s s' s'' : TokenStream}

/-- Some word is in the language. -/
class Possible (L : Language Token) : Prop where
  word : ∃ w, w ∈ L

instance : Possible 1 := ⟨[], Language.nil_mem_one⟩

instance : Possible L∗ := ⟨[], Language.nil_mem_kstar L⟩

instance [Possible L] : Possible (L + M) := by
  obtain ⟨w, hw⟩ := Possible.word (L := L)
  exact ⟨w, .inl hw⟩

instance [Possible L] [Possible M] : Possible (L * M) := by
  obtain ⟨w, hw⟩ := Possible.word (L := L)
  obtain ⟨v, hv⟩ := Possible.word (L := M)
  exact ⟨w ++ v, Language.append_mem_mul hw hv⟩

/-- The tokens that are one given keyword or sign. -/
def just (lexeme : Lexeme) : Language Token := {w | ∃ span, w = [⟨lexeme, span⟩]}

instance (lexeme : Lexeme) : Possible (just lexeme) := ⟨_, default, rfl⟩

/-- A failure kept at index `m` by a run from index `i` is about a token such that all from `i` up to it are the
beginning of a word of the language. It is about the token at `m`, or about a refused one right before. -/
def Blames (refused : Token → Prop) (L : Language Token) (ts : List Token) (i m : Nat) (e : ParseError) : Prop :=
  ∃ k, i ≤ k ∧ e.About ts k ∧ (m = k ∨ m = k + 1 ∧ ∃ token, ts[k]? = some token ∧ refused token) ∧
    ∃ w, Token.segment ts i k ++ w ∈ L

/-- What a run does to the stream, whether it succeeds or not: it goes forward, though not past the end, and it keeps the
failure that it found or one of its own that lies as far. -/
structure Moves (refused : Token → Prop) (L : Language Token) (s s' : TokenStream) : Prop where
  tokens : s'.tokens = s.tokens
  forward : s.index ≤ s'.index
  inside : s.Inside → s'.Inside
  reach : s.reach ≤ s'.reach
  furthest : s'.furthest = s.furthest ∨ ∃ m e, s'.furthest = some (m, e) ∧ Blames refused L s.all s.index m e

/-- What comes of a run from `s`. A successful run has read a word of the language, a failing one has kept a failure. In
any list that has as many tokens in common with the stream as the run has looked at, `q` succeeds or fails just so. -/
inductive Traced (refused : Token → Prop) (L : Language Token) (q : Parser α) (s : TokenStream) :
    EStateM.Result ParseError TokenStream α → Prop where
  | ok {a : α} {s' : TokenStream} (moves : Moves refused L s s') (read : Token.segment s.all s.index s'.index ∈ L)
      (foreseen : ∀ (K : Nat) (ts : List Token), ts.take K = s.all.take K → s'.reach ≤ K → s'.index ≤ K →
        q.reads (ts.drop s.index) = some (a, ts.drop s'.index)) :
      Traced refused L q s (.ok a s')
  | error {e : ParseError} {s' : TokenStream} (moves : Moves refused L s s') (kept : s.index < s'.reach)
      (foreseen : ∀ (K : Nat) (ts : List Token), ts.take K = s.all.take K → s'.reach ≤ K →
        q.reads (ts.drop s.index) = none) :
      Traced refused L q s (.error e s')

/-! ## Runs and what they read -/

theorem reads_of_ok [p.Local] {a : α} (h : p s = .ok a s') : p.reads s.rest = some (a, s'.rest) := by
  rw [← Local.readsAt_eq, readsAt, h]

theorem reads_eq_none {ts : List Token} (h : ∀ a us, p.reads ts ≠ some (a, us)) : p.reads ts = none :=
  Option.eq_none_iff_forall_ne_some.2 fun x => h x.1 x.2

theorem Progresses.remaining_lt [p.Local] (progress : p.Progresses) {a : α} (h : p s = .ok a s') :
    s'.remaining < s.remaining := by
  rw [TokenStream.remaining_eq, TokenStream.remaining_eq]
  exact progress (reads_of_ok h)

theorem progresses_symbol (lexeme : Lexeme) : (symbol lexeme).Progresses := by
  intro ts token us read
  obtain ⟨rfl, -⟩ := reads_symbol.1 read
  exact Nat.lt_succ_self _

theorem bind_eq_ok {b : β} (h : (p >>= f) s = .ok b s') : ∃ a s₁, p s = .ok a s₁ ∧ f a s₁ = .ok b s' := by
  change EStateM.bind p f s = .ok b s' at h
  rw [EStateM.bind] at h
  cases ran : p s with
  | ok a s₁ =>
    rw [ran] at h
    exact ⟨a, s₁, rfl, h⟩
  | error e s₁ =>
    rw [ran] at h
    cases h

theorem optional_eq_ok {tried : Option α} (h : p.optional s = .ok tried s') :
    (∃ a, tried = some a ∧ p s = .ok a s') ∨ ∃ e s₁, tried = none ∧ p s = .error e s₁ ∧ s' = s₁.restore s.index := by
  rw [optional, map_eq_bind] at h
  change EStateM.orElse (EStateM.bind p fun a => pure (some a)) (fun _ => pure none) s = .ok tried s' at h
  rw [EStateM.orElse, EStateM.bind] at h
  cases ran : p s with
  | ok a s₁ =>
    rw [ran] at h
    cases h
    exact .inl ⟨a, rfl, rfl⟩
  | error e s₁ =>
    rw [ran] at h
    cases h
    exact .inr ⟨e, s₁, rfl, rfl, rfl⟩

/-! ## Moves -/

theorem Blames.mono {ts : List Token} {i m : Nat} {e : ParseError} (h : Blames refused L ts i m e) (le : L ≤ M) :
    Blames refused M ts i m e := by
  obtain ⟨k, hk, about, place, w, mem⟩ := h
  exact ⟨k, hk, about, place, w, le mem⟩

/-- What is blamed remains so when more is to follow. -/
theorem Blames.append [Possible M] {ts : List Token} {i m : Nat} {e : ParseError} (h : Blames refused L ts i m e) :
    Blames refused (L * M) ts i m e := by
  obtain ⟨k, hk, about, place, w, mem⟩ := h
  obtain ⟨v, hv⟩ := Possible.word (L := M)
  refine ⟨k, hk, about, place, w ++ v, ?_⟩
  rw [← List.append_assoc]
  exact Language.append_mem_mul mem hv

theorem Moves.refl (refused : Token → Prop) (L : Language Token) (s : TokenStream) : Moves refused L s s :=
  ⟨rfl, le_rfl, id, le_rfl, .inl rfl⟩

theorem Moves.mono (h : Moves refused L s s') (le : L ≤ M) : Moves refused M s s' := by
  refine ⟨h.tokens, h.forward, h.inside, h.reach, h.furthest.imp_right ?_⟩
  rintro ⟨m, e, kept, blames⟩
  exact ⟨m, e, kept, blames.mono le⟩

theorem Moves.all (h : Moves refused L s s') : s'.all = s.all := congrArg Array.toList h.tokens

theorem Moves.remaining (h : Moves refused L s s') : s'.remaining ≤ s.remaining :=
  TokenStream.remaining_le h.tokens h.forward

theorem Moves.append [Possible M] (h : Moves refused L s s') : Moves refused (L * M) s s' := by
  refine ⟨h.tokens, h.forward, h.inside, h.reach, h.furthest.imp_right ?_⟩
  rintro ⟨m, e, kept, blames⟩
  exact ⟨m, e, kept, blames.append⟩

/-- One run after another. What the second one blames comes behind a word that the first has read. -/
theorem Moves.trans [Possible M] (h : Moves refused L s s') (read : Token.segment s.all s.index s'.index ∈ L)
    (h' : Moves refused M s' s'') : Moves refused (L * M) s s'' := by
  refine ⟨h'.tokens.trans h.tokens, h.forward.trans h'.forward, h'.inside ∘ h.inside, h.reach.trans h'.reach, ?_⟩
  obtain same | ⟨m, e, kept, k, hk, about, place, w, mem⟩ := h'.furthest
  · rw [same]
    exact h.append.furthest
  · rw [h.all] at about place mem
    refine .inr ⟨m, e, kept, k, h.forward.trans hk, about, place, w, ?_⟩
    rw [← Token.segment_append h.forward hk, List.append_assoc]
    exact Language.append_mem_mul read mem

/-- One run after another that went back to the start. -/
theorem Moves.retry (h : Moves refused L s s') (back : s'.index = s.index) (h' : Moves refused L s' s'') :
    Moves refused L s s'' := by
  refine ⟨h'.tokens.trans h.tokens, h.forward.trans h'.forward, h'.inside ∘ h.inside, h.reach.trans h'.reach, ?_⟩
  obtain same | new := h'.furthest
  · rw [same]
    exact h.furthest
  · rw [h.all, back] at new
    exact .inr new

theorem Moves.restore (h : Moves refused L s s') : Moves refused L s (s'.restore s.index) := by
  refine ⟨h.tokens, le_rfl, fun inside => ?_, h.reach, h.furthest⟩
  rwa [TokenStream.Inside, TokenStream.restore, h.tokens]

theorem Moves.advance (refused : Token → Prop) (L : Language Token) (s : TokenStream) : Moves refused L s s.advance := by
  refine ⟨s.tokens_advance, ?_, TokenStream.Inside.advance, ?_, .inl s.furthest_advance⟩
  · rw [TokenStream.advance]
    split
    · exact Nat.le_succ _
    · exact le_rfl
  · rw [TokenStream.reach, TokenStream.reach, s.furthest_advance]

theorem Moves.record [Possible L] {e : ParseError} (about : e.About s.all s.index) :
    Moves refused L s (s.record e) := by
  refine ⟨s.tokens_record e, (s.index_record e).ge, fun inside => inside.record e, s.reach_le_reach_record e, ?_⟩
  obtain new | ⟨old, -⟩ := s.furthest_record e
  · refine .inr ⟨s.index, e, new, s.index, le_rfl, about, .inl rfl, ?_⟩
    rw [Token.segment_self]
    exact Possible.word
  · exact .inl old

/-! ## Parsers of one token -/

/-- Two lists that agree so far agree on each of these tokens. -/
theorem head?_drop_of_take_eq {ts us : List Token} {K i : Nat} (same : us.take K = ts.take K) (lt : i < K) :
    (us.drop i).head? = ts[i]? := by
  rw [List.head?_drop, ← List.getElem?_take_of_lt lt, same, List.getElem?_take_of_lt lt]

theorem drop_eq_cons {ts us : List Token} {K i : Nat} {token : Token} (same : us.take K = ts.take K) (lt : i < K)
    (h : ts[i]? = some token) : us.drop i = token :: us.drop (i + 1) := by
  have head := head?_drop_of_take_eq same lt
  rw [h, List.head?_eq_some_iff] at head
  obtain ⟨vs, eq⟩ := head
  rw [eq, ← List.drop_drop, eq]
  rfl

/-- The next token is read. -/
theorem Traced.take {token : Token} {a : α} (next : s.peek = some token) (mem : [token] ∈ L)
    (reads : ∀ ts, q.reads (token :: ts) = some (a, ts)) : Traced refused L q s (.ok a s.advance) := by
  have index := TokenStream.index_advance next
  rw [TokenStream.peek_eq_all] at next
  refine .ok (.advance refused L s) ?_ fun K ts same _ le => ?_
  · rwa [index, Token.segment_succ next]
  · rw [index] at le ⊢
    rw [drop_eq_cons same le next, reads]

/-- An error about the next token. -/
theorem Traced.reject [Possible L] {e : ParseError} (about : e.About s.all s.index)
    (fails : ∀ ts, ts.head? = s.peek → q.reads ts = none) : Traced refused L q s (reject e s) := by
  have kept := s.index_lt_reach_record e
  refine .error (.record about) kept fun K ts same le => fails _ ?_
  rw [head?_drop_of_take_eq same (kept.trans_le le), TokenStream.peek_eq_all]

/-- An error about a token that has been read. -/
theorem Traced.refuse [Possible L] {e : ParseError} {token : Token} (next : s.peek = some token) (span : e.span = some token.span)
    (isRefused : refused token) (fails : ∀ ts, q.reads (token :: ts) = none) :
    Traced refused L q s (Parser.reject e s.advance) := by
  have kept := s.advance.index_lt_reach_record e
  have moves := Moves.advance refused L s
  have index := TokenStream.index_advance next
  rw [TokenStream.peek_eq_all] at next
  refine .error ⟨?_, ?_, fun inside => inside.advance.record e, ?_, ?_⟩ (by omega) fun K ts same le => ?_
  · rw [TokenStream.tokens_record, moves.tokens]
  · rw [TokenStream.index_record]
    exact moves.forward
  · exact moves.reach.trans (s.advance.reach_le_reach_record e)
  · obtain new | ⟨old, -⟩ := s.advance.furthest_record e
    · refine .inr ⟨_, e, new, s.index, le_rfl, ⟨by rw [next]; exact span, ?_⟩, .inr ⟨index, token, next, isRefused⟩, ?_⟩
      · rw [next]
        exact nofun
      · rw [Token.segment_self]
        exact Possible.word
    · exact .inl (old.trans s.furthest_advance)
  · rw [drop_eq_cons same (by omega) next, fails]

/-- If the next token is not taken, or there is none, then `select` says so. -/
theorem select_eq_reject (expected : String) {accept : Token → Option α} (h : s.peek.bind accept = none) :
    ∃ e : ParseError, e.About s.all s.index ∧ select expected accept s = reject e s := by
  rw [select]
  cases next : s.peek with
  | none =>
    rw [TokenStream.peek_eq_all] at next
    exact ⟨_, ⟨by rw [next]; rfl, fun _ => rfl⟩, rfl⟩
  | some token =>
    rw [next, Option.bind_some] at h
    exact ⟨_, s.about_errorHere [expected], by simp only [h]⟩

theorem takeFirst_eq_none {accept : Token → Option α} {ts : List Token} (h : ts.head?.bind accept = none) :
    takeFirst accept ts = none := by
  cases ts with
  | nil => rfl
  | cons token ts =>
    rw [List.head?_cons, Option.bind_some] at h
    rw [takeFirst, h]
    rfl

theorem Traced.select [Possible L] {expected : String} {accept : Token → Option α}
    (mem : ∀ token a, accept token = some a → [token] ∈ L) (s : TokenStream) :
    Traced refused L (select expected accept) s (select expected accept s) := by
  have reads (ts : List Token) : (Parser.select expected accept).reads ts = takeFirst accept ts := by
    rw [Parser.reads, readsAt_select, TokenStream.rest_ofList]
  cases taken : s.peek.bind accept with
  | none =>
    obtain ⟨e, about, rejected⟩ := select_eq_reject expected taken
    rw [rejected]
    refine .reject about fun ts head => ?_
    rw [reads, takeFirst_eq_none (head ▸ taken)]
  | some a =>
    obtain ⟨token, next, accepted⟩ := Option.bind_eq_some_iff.1 taken
    have ran : Parser.select expected accept s = .ok a s.advance := by simp only [Parser.select, next, accepted]
    rw [ran]
    refine .take next (mem token a accepted) fun ts => ?_
    rw [reads, takeFirst, accepted]
    rfl

/-! ## Combinators -/

theorem Traced.moves {a : α} (h : Traced refused L q s (.ok a s')) : Moves refused L s s' := by
  cases h
  assumption

theorem Traced.mono {r : EStateM.Result ParseError TokenStream α} (h : Traced refused L q s r) (le : L ≤ M) :
    Traced refused M q s r := by
  cases h with
  | ok moves read foreseen => exact .ok (moves.mono le) (le read) foreseen
  | error moves kept foreseen => exact .error (moves.mono le) kept foreseen

theorem Traced.congr {q' : Parser α} {r : EStateM.Result ParseError TokenStream α} (h : Traced refused L q s r)
    (eq : ∀ ts, q'.reads ts = q.reads ts) : Traced refused L q' s r := by
  cases h with
  | ok moves read foreseen => exact .ok moves read fun K ts same le le' => (eq _).trans (foreseen K ts same le le')
  | error moves kept foreseen => exact .error moves kept fun K ts same le => (eq _).trans (foreseen K ts same le)

theorem Traced.pure (a : α) (s : TokenStream) : Traced refused 1 (pure a) s ((Pure.pure a : Parser α) s) :=
  .ok (.refl refused 1 s) (by rw [Token.segment_self]; exact Language.nil_mem_one) fun _ _ _ _ _ => reads_pure ..

theorem Traced.bind [Possible M] [∀ a, (g a).Local] (first : Traced refused L q s (p s))
    (second : ∀ a s', p s = .ok a s' → Traced refused M (g a) s' (f a s')) :
    Traced refused (L * M) (q >>= g) s ((p >>= f) s) := by
  change Traced refused (L * M) (q >>= g) s (EStateM.bind p f s)
  rw [EStateM.bind]
  generalize p s = r at first second ⊢
  cases first with
  | error moves kept foreseen =>
    refine .error moves.append kept fun K ts same le => ?_
    rw [reads_bind, foreseen K ts same le]
    rfl
  | @ok a s' moves read foreseen =>
    have next := second a s' rfl
    change Traced refused (L * M) (q >>= g) s (f a s')
    generalize f a s' = r' at next ⊢
    cases next with
    | error moves' kept foreseen' =>
      have further := moves'.reach
      rw [moves.all] at foreseen'
      refine .error (moves.trans read moves') (moves.forward.trans_lt kept) fun K ts same le => ?_
      rw [reads_bind, foreseen K ts same (by omega) (by omega)]
      exact foreseen' K ts same le
    | ok moves' read' foreseen' =>
      have further := moves'.reach
      have forward := moves'.forward
      rw [moves.all] at foreseen' read'
      refine .ok (moves.trans read moves') ?_ fun K ts same le le' => ?_
      · rw [← Token.segment_append moves.forward moves'.forward]
        exact Language.append_mem_mul read read'
      · rw [reads_bind, foreseen K ts same (by omega) (by omega)]
        exact foreseen' K ts same le le'

theorem Traced.bind_pure (h : Traced refused L q s (p s)) (v : α → β) :
    Traced refused L (q >>= fun a => Pure.pure (v a)) s ((p >>= fun a => Pure.pure (v a)) s) := by
  rw [← mul_one L]
  exact h.bind fun a s' _ => .pure (v a) s'

theorem Traced.map (h : Traced refused L q s (p s)) (v : α → β) : Traced refused L (v <$> q) s ((v <$> p) s) := by
  rw [map_eq_bind, map_eq_bind]
  exact h.bind_pure v

theorem Traced.orElse {p' q' : Parser α} [q.Local] [q'.Local] (first : Traced refused L q s (p s))
    (second : ∀ s', s'.tokens = s.tokens → s'.index = s.index → Traced refused L q' s' (p' s')) :
    Traced refused L (q <|> q') s ((p <|> p') s) := by
  change Traced refused L (q <|> q') s (EStateM.orElse p (fun _ => p') s)
  rw [EStateM.orElse]
  generalize p s = r at first ⊢
  cases first with
  | ok moves read foreseen =>
    refine .ok moves read fun K ts same le le' => ?_
    rw [reads_orElse, foreseen K ts same le le']
    rfl
  | @error e s' moves kept foreseen =>
    have back := moves.restore
    have next := second (s'.restore s.index) moves.tokens rfl
    change Traced refused L (q <|> q') s (p' (s'.restore s.index))
    generalize p' (s'.restore s.index) = r' at next ⊢
    cases next with
    | error moves' kept' foreseen' =>
      rw [back.all] at foreseen'
      refine .error (back.retry rfl moves') kept' fun K ts same le => ?_
      rw [reads_orElse, foreseen K ts same (moves'.reach.trans le)]
      exact foreseen' K ts same le
    | ok moves' read' foreseen' =>
      rw [back.all] at foreseen' read'
      refine .ok (back.retry rfl moves') read' fun K ts same le le' => ?_
      rw [reads_orElse, foreseen K ts same (moves'.reach.trans le)]
      exact foreseen' K ts same le le'

theorem Traced.label [Possible L] [q.Local] (name : String) (h : Traced refused L q s (p s)) :
    Traced refused L (q.label name) s (p.label name s) := by
  refine Traced.congr ?_ (reads_label name)
  rw [Parser.label]
  generalize p s = r at h ⊢
  cases h with
  | ok moves read foreseen => exact .ok moves read foreseen
  | @error e s' moves kept foreseen =>
    simp only
    split
    next => exact .error moves kept foreseen
    next stuck =>
      -- The failure of the label is kept where that of the parser was, at the start.
      have back : s'.index = s.index := Nat.le_antisymm (Nat.le_of_not_lt stuck) moves.forward
      have further := s'.reach_le_reach_record { s'.errorHere .unexpectedToken with expected := [name] }
      refine .error (moves.retry back (.record (s'.about_errorHere [name]))) (kept.trans_le further) ?_
      exact fun K ts same le => foreseen K ts same (further.trans le)

/-! ## Parsers for a bounded number of tokens -/

/-- The runs of `p` on streams with fewer than `n` tokens left are those of `q`, traced in the language. -/
def Tracks (refused : Token → Prop) (n : Nat) (L : Language Token) (p q : Parser α) : Prop :=
  ∀ s : TokenStream, s.remaining < n → Traced refused L q s (p s)

theorem Progresses.reads_many_eq [p.Local] (progress : p.Progresses) (ts : List Token) :
    p.many.reads ts = (p.optional >>= goOn p.many).reads ts := by
  rw [reads_bind]
  cases first : p.reads ts with
  | none =>
    rw [reads_many_of_fails first, reads_optional_of_fails first]
    exact (reads_pure ..).symm
  | some x =>
    rw [progress.reads_many_of_reads first, reads_optional_of_reads first]
    exact (reads_map ..).symm

namespace Tracks

variable {n : Nat}

theorem mono (h : Tracks refused n L p q) (le : L ≤ M) : Tracks refused n M p q := fun s lt => (h s lt).mono le

theorem congr {q' : Parser α} (h : Tracks refused n L p q) (eq : ∀ ts, q'.reads ts = q.reads ts) :
    Tracks refused n L p q' := fun s lt => (h s lt).congr eq

theorem symbol (lexeme : Lexeme) : Tracks refused n (just lexeme) (symbol lexeme) (symbol lexeme) := by
  refine fun s _ => .select (fun token a taken => ?_) s
  obtain ⟨found, span⟩ := token
  obtain ⟨rfl, -⟩ := Option.ite_none_right_eq_some.1 taken
  exact ⟨span, rfl⟩

theorem bind [Possible M] [∀ a, (g a).Local] (h : Tracks refused n L p q)
    (h' : ∀ a, Tracks refused n M (f a) (g a)) : Tracks refused n (L * M) (p >>= f) (q >>= g) := by
  refine fun s lt => (h s lt).bind fun a s' ran => h' a s' ?_
  have traced := h s lt
  rw [ran] at traced
  exact traced.moves.remaining.trans_lt lt

/-- A token in front leaves one token less. -/
theorem after_symbol [Possible M] {f g : Token → Parser β} [∀ a, (g a).Local] (lexeme : Lexeme)
    (h : ∀ token, Tracks refused n M (f token) (g token)) :
    Tracks refused (n + 1) (just lexeme * M) (Parser.symbol lexeme >>= f) (Parser.symbol lexeme >>= g) := by
  refine fun s lt => (symbol lexeme s lt).bind fun token s' ran => h token s' ?_
  have less := Progresses.remaining_lt (progresses_symbol lexeme) ran
  omega

theorem pure (a : α) : Tracks refused n 1 (Pure.pure a) (Pure.pure a) := fun s _ => .pure a s

theorem bind_pure (h : Tracks refused n L p q) (v : α → β) :
    Tracks refused n L (p >>= fun a => Pure.pure (v a)) (q >>= fun a => Pure.pure (v a)) :=
  fun s lt => (h s lt).bind_pure v

theorem map (h : Tracks refused n L p q) (v : α → β) : Tracks refused n L (v <$> p) (v <$> q) :=
  fun s lt => (h s lt).map v

theorem orElse {p' q' : Parser α} [q.Local] [q'.Local] (h : Tracks refused n L p q) (h' : Tracks refused n L p' q') :
    Tracks refused n L (p <|> p') (q <|> q') := by
  refine fun s lt => (h s lt).orElse fun s' tokens index => h' s' ?_
  exact (TokenStream.remaining_le tokens index.ge).trans_lt lt

theorem label [Possible L] [q.Local] (name : String) (h : Tracks refused n L p q) :
    Tracks refused n L (p.label name) (q.label name) := fun s lt => (h s lt).label name

theorem optional [q.Local] (h : Tracks refused n L p q) : Tracks refused n (L + 1) p.optional q.optional :=
  ((h.map some).mono le_self_add).orElse ((pure none).mono le_add_self)

theorem bracketed [Possible L] [q.Local] (h : Tracks refused n L p q) :
    Tracks refused (n + 1) (just .lparen * L * just .rparen) (bracketed p) (bracketed q) := by
  rw [bracketed_eq, bracketed_eq]
  exact (after_symbol .lparen fun _ => h).bind fun a => (symbol .rparen).bind_pure fun _ => a

theorem many [p.Local] [q.Local] (progress : p.Progresses) (progress' : q.Progresses) (h : Tracks refused n L p q) :
    Tracks refused n L∗ p.many q.many := by
  have again : (L + 1) * L∗ ≤ L∗ := by
    rw [add_mul, one_mul]
    exact sup_le mul_kstar_le_kstar le_rfl
  -- On the number of tries, of which there are more than tokens: each that succeeds takes a token.
  have tries (k : Nat) (s : TokenStream) (lt : s.remaining < n) (enough : s.remaining < k) :
      Traced refused L∗ q.many s (p.atMost k s) := by
    induction k generalizing s with
    | zero => cases enough
    | succ k ih =>
      rw [atMost_succ]
      have traced : Traced refused ((L + 1) * L∗) (q.optional >>= goOn q.many) s
          ((p.optional >>= goOn (p.atMost k)) s) := by
        refine (h.optional s lt).bind fun tried s' ran => ?_
        cases tried with
        | none => exact (Traced.pure [] s').mono one_le_kstar
        | some a =>
          obtain ⟨_, -, read⟩ | ⟨_, _, no, -⟩ := optional_eq_ok ran
          · have less := progress.remaining_lt read
            exact (ih s' (less.trans lt) (less.trans_le (Nat.le_of_lt_succ enough))).map (a :: ·)
          · cases no
      exact (traced.mono again).congr progress'.reads_many_eq
  exact fun s lt => tries _ s lt (Nat.lt_succ_self _)

end Tracks

/-! ## Failures that are reported -/

/-- A successful run has looked at the token behind what it read, in vain. -/
def Halts (n : Nat) (p : Parser α) : Prop :=
  ∀ (s : TokenStream) (a : α) (s' : TokenStream), s.remaining < n → p s = .ok a s' → s'.index < s'.reach

/-- What is not there has been looked for. -/
theorem Traced.index_lt_reach {e : ParseError} (h : Traced refused L q s (.error e s')) :
    (s'.restore s.index).index < (s'.restore s.index).reach := by
  cases h
  assumption

theorem Halts.many [p.Local] (progress : p.Progresses) {n : Nat} (h : Tracks refused n L p q) : Halts n p.many := by
  have tries (k : Nat) (s s' : TokenStream) (l : List α) (lt : s.remaining < n) (enough : s.remaining < k)
      (ran : p.atMost k s = .ok l s') : s'.index < s'.reach := by
    induction k generalizing s l with
    | zero => cases enough
    | succ k ih =>
      rw [atMost_succ] at ran
      obtain ⟨tried, s₁, first, more⟩ := bind_eq_ok ran
      obtain ⟨a, rfl, read⟩ | ⟨e, s₂, rfl, failed, rfl⟩ := optional_eq_ok first
      · rw [goOn, map_eq_bind] at more
        obtain ⟨l', s₂, later, eq⟩ := bind_eq_ok more
        cases eq
        have less := progress.remaining_lt read
        exact ih s₁ l' (less.trans lt) (less.trans_le (Nat.le_of_lt_succ enough)) later
      · have traced := h s lt
        rw [failed] at traced
        cases more
        exact traced.index_lt_reach
  exact fun s a s' lt ran => tries _ s s' a lt (Nat.lt_succ_self _) ran

/-- The error of a parser that has to read all tokens is the one that was kept, and what the parser saw up to there is
enough to know that it cannot read all tokens. -/
theorem Traced.kept_of_complete {ts : List Token} {e : ParseError}
    (traced : Traced refused L q (.ofList ts) (p (.ofList ts)))
    (halts : ∀ a s, p (.ofList ts) = .ok a s → s.index < s.reach) (h : p.complete (.ofList ts) = .error e s) :
    ∃ s' m, Moves refused L (.ofList ts) s' ∧ s'.furthest = some (m, e) ∧
      ∀ us, us.take (m + 1) = ts.take (m + 1) → m < us.length → ∀ a, q.reads us ≠ some (a, []) := by
  generalize ran : p (.ofList ts) = r at traced halts
  cases traced with
  | @error e₀ s' moves kept foreseen =>
    obtain ⟨m, e', furthest, reach, reported⟩ := TokenStream.furthestError_of_lt_reach (s := s'.restore 0) kept
    rw [complete, ran] at h
    simp only [reported, Option.getD_some, EStateM.Result.error.injEq] at h
    refine ⟨s', m, moves, h.1 ▸ furthest, fun us same _ a read => ?_⟩
    have fails : q.reads us = none := foreseen (m + 1) us same reach.le
    rw [fails] at read
    cases read
  | @ok b s' moves _ foreseen =>
    have further := halts b s' rfl
    obtain ⟨m, e', furthest, reach, reported⟩ := TokenStream.furthestError_of_lt_reach further
    rw [complete_of_ok ran] at h
    split at h
    next =>
      simp only [reported, Option.getD_some, EStateM.Result.error.injEq] at h
      refine ⟨s', m, moves, h.1 ▸ furthest, fun us same long a read => ?_⟩
      have reads : q.reads us = some (b, us.drop s'.index) := foreseen (m + 1) us same reach.le (by omega)
      rw [reads, Option.some.injEq, Prod.mk.injEq, List.drop_eq_nil_iff] at read
      omega
    next => cases h

/-- A parser that has to read all tokens reports an error about some token, or about the end. The tokens before it are
the beginning of a word of the language. With the token itself they are not, or else the token is refused. -/
theorem complete_eq_error {ts : List Token} {e : ParseError} (traced : Traced refused L q (.ofList ts) (p (.ofList ts)))
    (halts : ∀ a s, p (.ofList ts) = .ok a s → s.index < s.reach)
    (h : p.complete (.ofList ts) = .error e s) :
    ∃ k, e.About ts k ∧ (∃ w, ts.take k ++ w ∈ L) ∧
      ∀ token, ts[k]? = some token → refused token ∨ ∀ w a, q.reads (ts.take (k + 1) ++ w) ≠ some (a, []) := by
  obtain ⟨s', m, moves, kept, fails⟩ := traced.kept_of_complete halts h
  obtain same | ⟨_, _, kept', k, -, about, place, viable⟩ := moves.furthest
  · rw [kept] at same
    cases same
  · rw [kept] at kept'
    cases kept'
    refine ⟨k, about, viable, fun token here => ?_⟩
    obtain rfl | ⟨-, _, same, isRefused⟩ := place
    · obtain ⟨lt, -⟩ := List.getElem?_eq_some_iff.1 here
      have length : (ts.take (m + 1)).length = m + 1 := by
        rw [List.length_take]
        exact Nat.min_eq_left lt
      refine .inr fun w => fails _ ?_ ?_
      · rw [List.take_append_of_le_length length.ge, List.take_take, Nat.min_self]
      · rw [List.length_append]
        omega
    · cases here.symm.trans same
      exact .inl isRefused

end Parser

end Monolet
