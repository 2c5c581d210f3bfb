import Monolet.Proofs.Eval.Natural

/-!
# Depth

The level that an expression stands on is passed along in evaluation and looked at in one place only, where it is
compared with the deepest one. So more levels, like more fuel, change no evaluation that has ended with anything but
exhausted depth (`Expr.evalWithin_upheld`): wherever one evaluation goes on with the result of another, both may be given
more (`Outcome.Upheld.bind`).

A body that is entered through an application stays on the level of the application, and `apply` puts it on the outermost
level. By the above it makes no difference.
-/

namespace Monolet

namespace Outcome

variable {α β : Type} {x y : Outcome α} {f g : α → Outcome β}

/-- If the first has ended with anything but exhausted depth, the second has ended with the same. -/
def Upheld (x y : Outcome α) : Prop := ∀ r, x = ofExcept r → r ≠ .error .tooDeep → y = ofExcept r

theorem Upheld.refl (x : Outcome α) : Upheld x x := fun _ finished _ => finished

theorem ok_ne_tooDeep (a : α) : Except.ok a ≠ .error EvalError.tooDeep := by
  intro eq
  cases eq

theorem upheld_unfinished (y : Outcome α) : Upheld unfinished y := by
  intro r finished
  cases r <;> cases finished

theorem upheld_tooDeep (y : Outcome α) : Upheld (failed .tooDeep) y := by
  intro r finished shallow
  exact absurd (ofExcept_inj (x := .error .tooDeep) finished).symm shallow

theorem Upheld.bind (first : Upheld x y) (next : ∀ a, Upheld (f a) (g a)) : Upheld (x >>= f) (y >>= g) := by
  intro r finished shallow
  obtain ⟨err, failed, rfl⟩ | ⟨a, done, rest⟩ := bind_eq_ofExcept finished
  · rw [first _ failed (by simpa using shallow)]
    rfl
  · rw [first _ done (ok_ne_tooDeep a)]
    exact next a r rest shallow

end Outcome

namespace Expr

open Outcome

variable {ρ : Scope} {e : Expr} {fuel fuel' room room' : Nat}

/-- More fuel and more levels uphold every result. -/
theorem evalWithin_upheld (ρ : Scope) (e : Expr) (moreFuel : fuel ≤ fuel') (moreRoom : room ≤ room') :
    Upheld (e.evalWithin fuel room ρ) (e.evalWithin fuel' room' ρ) := by
  induction fuel generalizing fuel' room room' ρ e with
  | zero =>
    rw [evalWithin]
    exact upheld_unfinished _
  | succ fuel ih =>
    obtain ⟨fuel', rfl⟩ : ∃ k, fuel' = k + 1 := ⟨fuel' - 1, by omega⟩
    have moreFuel : fuel ≤ fuel' := by omega
    cases room with
    | zero =>
      rw [evalWithin]
      exact upheld_tooDeep _
    | succ room =>
      obtain ⟨room', rfl⟩ : ∃ k, room' = k + 1 := ⟨room' - 1, by omega⟩
      have deeper (e : Expr) := ih ρ e moreFuel (show room ≤ room' by omega)
      cases e with
      | int | bool | string | var | lam => exact .refl _
      | app f a s =>
        rw [evalWithin_app, evalWithin_app]
        refine (deeper f).bind fun w => (deeper a).bind fun v => (Upheld.refl _).bind fun c => ?_
        cases c with
        | value => exact .refl _
        | enter scope body => exact ih scope body moreFuel moreRoom
      | letIn recursive x value body s =>
        rw [evalWithin_letIn, evalWithin_letIn]
        exact (deeper value).bind fun v => (Upheld.refl _).bind fun w => ih _ body moreFuel moreRoom
      | cond c t e s =>
        rw [evalWithin_cond, evalWithin_cond]
        exact (deeper c).bind fun v => (Upheld.refl _).bind fun b => ih ρ _ moreFuel moreRoom

/-- However much fuel and however many levels there are, an expression ends with one result or for want of levels. -/
theorem evalWithin_inj {r r' : Except EvalError Value} (finished : e.evalWithin fuel room ρ = ofExcept r)
    (shallow : r ≠ .error .tooDeep) (finished' : e.evalWithin fuel' room' ρ = ofExcept r')
    (shallow' : r' ≠ .error .tooDeep) : r = r' := by
  have more := evalWithin_upheld ρ e (Nat.le_max_left fuel fuel') (Nat.le_max_left room room') r finished shallow
  have more' := evalWithin_upheld ρ e (Nat.le_max_right fuel fuel') (Nat.le_max_right room room') r' finished' shallow'
  exact ofExcept_inj (more.symm.trans more')

/-- What goes on with the value of an expression goes on with the one that it has for any other fuel and levels. -/
theorem bind_evalWithin_eq_ofExcept {next : Value → Outcome Value} {r : Except EvalError Value} {v : Value}
    (finished : (e.evalWithin fuel room ρ >>= next) = ofExcept r) (shallow : r ≠ .error .tooDeep)
    (value : e.evalWithin fuel' room' ρ = done v) : next v = ofExcept r := by
  have value : e.evalWithin fuel' room' ρ = ofExcept (.ok v) := value
  obtain ⟨err, failed, rfl⟩ | ⟨v', done, rest⟩ := bind_eq_ofExcept finished
  · cases evalWithin_inj failed shallow value (ok_ne_tooDeep v)
  · cases evalWithin_inj done (ok_ne_tooDeep v') value (ok_ne_tooDeep v)
    exact rest

/-- Evaluate an expression that is nested in `depth` others. -/
def evalNested (fuel depth : Nat) (ρ : Scope) (e : Expr) : Outcome Value := e.evalWithin fuel (fullRoom - depth) ρ

end Expr

theorem Value.apply_eq (fuel : Nat) (f a : Value) :
    f.apply fuel a = Outcome.ofExcept (f.call a) >>= Call.resume fuel fullRoom := rfl

theorem Call.resume_upheld {fuel fuel' : Nat} (moreFuel : fuel ≤ fuel') (room : Nat) (c : Call) :
    Outcome.Upheld (c.resume fuel room) (c.resume fuel' room) := by
  cases c with
  | value => exact .refl _
  | enter scope body => exact Expr.evalWithin_upheld scope body moreFuel (Nat.le_refl _)

namespace Expr

/-- An application that has ended went through the values of its parts and the call of one with the other. -/
theorem eval_app_eq_ofExcept {ρ : Scope} {f a : Expr} {s : Span} {fuel : Nat} {r : Except EvalError Value} {w v : Value}
    {m n : Nat} (finished : (app f a s).eval fuel ρ = .ofExcept r) (shallow : r ≠ .error .tooDeep)
    (function : f.eval m ρ = .done w) (argument : a.eval n ρ = .done v) :
    ∃ k < fuel, (Outcome.ofExcept (w.call v) >>= Call.resume k fullRoom) = .ofExcept r := by
  cases fuel with
  | zero =>
    rw [eval, evalWithin] at finished
    cases r <;> cases finished
  | succ k =>
    rw [eval, fullRoom, evalWithin_app] at finished
    have afterFunction := bind_evalWithin_eq_ofExcept finished shallow function
    have afterArgument := bind_evalWithin_eq_ofExcept afterFunction shallow argument
    exact ⟨k, Nat.lt_succ_self k, afterArgument⟩

/-- **Depth decides nothing but whether it suffices.** An evaluation that ends on some level with anything but exhausted
depth ends with the same on every level further out. So applying the values of a function and of an argument ends with what
the application of the one to the other ends with. -/
theorem eval_depth_apply (ρ : Scope) :
    (∀ (e : Expr) (d d' : Nat), d' ≤ d → ∀ fuel r, e.evalNested fuel d ρ = .ofExcept r → r ≠ .error .tooDeep →
      e.evalNested fuel d' ρ = .ofExcept r) ∧
    ∀ (f a : Expr) (s : Span) (fuel : Nat) r, (app f a s).eval fuel ρ = .ofExcept r → r ≠ .error .tooDeep →
      ∀ w v, (∃ n, f.eval n ρ = .done w) → (∃ n, a.eval n ρ = .done v) → w.apply fuel v = .ofExcept r := by
  constructor
  · intro e d d' le fuel r finished shallow
    exact evalWithin_upheld ρ e (Nat.le_refl _) (Nat.sub_le_sub_left le fullRoom) r finished shallow
  · rintro f a s fuel r finished shallow w v ⟨m, function⟩ ⟨n, argument⟩
    obtain ⟨k, lt, rest⟩ := eval_app_eq_ofExcept finished shallow function argument
    rw [Value.apply_eq]
    exact (Outcome.Upheld.refl _).bind (fun c => c.resume_upheld (Nat.le_of_lt lt) fullRoom) r rest shallow

/-- `let rec f = \n -> if int_equals n 0 then "end" else f (sub n 1) in f` -/
def counter : Expr :=
  .letIn true ⟨"f", {}⟩
    (.lam ⟨"n", {}⟩
      (.cond (.apps (.var ⟨"int_equals", {}⟩) [.var ⟨"n", {}⟩, .int 0 {}]) (.string "end" {})
        (.app (.var ⟨"f", {}⟩) (.apps (.var ⟨"sub", {}⟩) [.var ⟨"n", {}⟩, .int 1 {}]) {}) {}) {})
    (.var ⟨"f", {}⟩) {}

/-- Counting down from 2 goes three levels deeper, which can be done from level 9997 on as well as from level 0 on. The
function that counts can also be applied on its own. -/
theorem eval_depth_apply_counter :
    (app counter (.int 2 {}) {}).evalNested 20 9997 .prelude = .done (.string "end") ∧
      (app counter (.int 2 {}) {}).evalNested 20 0 .prelude = .done (.string "end") ∧
      ∃ w, counter.eval 20 .prelude = .done w ∧ w.apply 20 (.int 2) = .done (.string "end") := by
  have nested : (app counter (.int 2 {}) {}).evalNested 20 9997 .prelude = .done (.string "end") := rfl
  obtain ⟨depth, apply⟩ := eval_depth_apply .prelude
  have outermost := depth _ 9997 0 (Nat.zero_le _) 20 (.ok (.string "end")) nested (Outcome.ok_ne_tooDeep _)
  refine ⟨nested, outermost, _, rfl, ?_⟩
  exact apply counter (.int 2 {}) {} 20 (.ok (.string "end")) outermost (Outcome.ok_ne_tooDeep _) _ _ ⟨20, rfl⟩ ⟨1, rfl⟩

end Expr

end Monolet
