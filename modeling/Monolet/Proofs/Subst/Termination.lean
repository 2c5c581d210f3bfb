import Monolet.Proofs.Subst.Failure
import Monolet.Proofs.Subst.Renaming
import Monolet.Proofs.Subst.Resolving
import Monolet.Proofs.Typing.Derivation

/-!
# Unification ends

As a recursion, unification resolves both types and compares what it gets. Two function types make it call itself for
the arguments and then, with the entries that this has left, for the results (`Unifying`). The second call resolves the
results anew, so its types may well be larger than those of its caller.

What gets smaller is what is left to do: every step of solving takes away an unknown, or no unknown and some
constructors (`Solving.Step.decreases`). The recursion goes through the same points as the solving of its equations one by
one (`Solving.exists_unifying`), so it ends where that ends. Its calls form a relation without infinite chains, and a call
that resolves an unknown follows entries one after the other (`Invocation.Makes`).
-/

namespace Monolet

open Relation

namespace Subst

variable {σ σ' : Subst} {l r t u : Ty} {n n' : Nat} {result result' : EStateM.Result UnifyError Subst Unit}

/-! ## The recursion -/

/-- What becomes of an equation between resolved types that are not both function types. -/
def settle (σ : Subst) (e : Equation) : Option (EStateM.Result UnifyError Subst Unit) :=
  match e.demand with
  | .nothing => some (.ok () σ)
  | .both .. => none
  | .solution id ty =>
    if ty.mentions id then some (.error (.occurs id ty) σ)
    else
      match σ.insert id ty with
      | .ok σ' => some (.ok () σ')
      | .error cycle => some (.error (.cyclic cycle) σ)
  | .clash => some (.error (.mismatch e.1 e.2) σ)

/-- Unification as a recursion that resolves its two types in every call. A derivation is a run of it that ends, after `n`
calls and with the given result. -/
inductive Unifying : Subst → Ty → Ty → Nat → EStateM.Result UnifyError Subst Unit → Prop where
  | settled {σ : Subst} {l r l' r' : Ty} {result : EStateM.Result UnifyError Subst Unit}
      (left : σ.Resolves l l') (right : σ.Resolves r r') (settled : σ.settle (l', r') = some result) :
      Unifying σ l r 1 result
  | failed {σ σ' : Subst} {l r a b c d : Ty} {n : Nat} {err : UnifyError}
      (left : σ.Resolves l (.fn a b)) (right : σ.Resolves r (.fn c d))
      (arguments : Unifying σ a c n (.error err σ')) :
      Unifying σ l r (n + 1) (.error err σ')
  | passed {σ σ' : Subst} {l r a b c d : Ty} {m n : Nat} {result : EStateM.Result UnifyError Subst Unit}
      (left : σ.Resolves l (.fn a b)) (right : σ.Resolves r (.fn c d))
      (arguments : Unifying σ a c m (.ok () σ')) (results : Unifying σ' b d n result) :
      Unifying σ l r (m + n + 1) result

theorem settle_fn (σ : Subst) (a b c d : Ty) : σ.settle (.fn a b, .fn c d) = none := rfl

/-- There is one way for a run to end. -/
theorem Unifying.unique (h : Unifying σ l r n result) (h' : Unifying σ l r n' result') : n = n' ∧ result = result' := by
  induction h generalizing n' result' with
  | settled left right settled =>
    cases h' with
    | settled left' right' settled' =>
      rw [left.unique left', right.unique right', settled'] at settled
      exact ⟨rfl, (Option.some.inj settled).symm⟩
    | failed left' right' | passed left' right' =>
      rw [left.unique left', right.unique right', settle_fn] at settled
      cases settled
  | failed left right _ ih =>
    cases h' with
    | settled left' right' settled' =>
      rw [← left.unique left', ← right.unique right', settle_fn] at settled'
      cases settled'
    | failed left' right' arguments' =>
      cases left.unique left'
      cases right.unique right'
      obtain ⟨rfl, same⟩ := ih arguments'
      exact ⟨rfl, same⟩
    | passed left' right' arguments' =>
      cases left.unique left'
      cases right.unique right'
      cases (ih arguments').2
  | passed left right _ _ ihArguments ihResults =>
    cases h' with
    | settled left' right' settled' =>
      rw [← left.unique left', ← right.unique right', settle_fn] at settled'
      cases settled'
    | failed left' right' arguments' =>
      cases left.unique left'
      cases right.unique right'
      cases (ihArguments arguments').2
    | passed left' right' arguments' results' =>
      cases left.unique left'
      cases right.unique right'
      obtain ⟨rfl, same⟩ := ihArguments arguments'
      cases same
      obtain ⟨rfl, same⟩ := ihResults results'
      exact ⟨rfl, same⟩

/-! ## Its calls -/

/-- A call: of resolving on a type, or of unification on two types. -/
inductive Invocation where
  | resolve (σ : Subst) (t : Ty)
  | unify (σ : Subst) (l r : Ty)

namespace Invocation

/-- The first call makes the second. Resolving goes on with the entry of an unknown and with the components of a function
type. Unification resolves both types, resolves a solution before it is recorded, and goes on with the components of two
function types, with the results as soon as the arguments have been unified. -/
inductive Makes : Invocation → Invocation → Prop where
  | entry {σ : Subst} {i : Nat} {t : Ty} (entry : σ.get? i = some t) : Makes (.resolve σ (.unknown i)) (.resolve σ t)
  | arg {σ : Subst} {a b : Ty} : Makes (.resolve σ (.fn a b)) (.resolve σ a)
  | res {σ : Subst} {a b : Ty} : Makes (.resolve σ (.fn a b)) (.resolve σ b)
  | left {σ : Subst} {l r : Ty} : Makes (.unify σ l r) (.resolve σ l)
  | right {σ : Subst} {l r : Ty} : Makes (.unify σ l r) (.resolve σ r)
  | solution {σ : Subst} {l r l' r' ty : Ty} {id : Nat} (left : σ.Resolves l l') (right : σ.Resolves r r')
      (demand : Equation.demand (l', r') = .solution id ty) : Makes (.unify σ l r) (.resolve σ ty)
  | arguments {σ : Subst} {l r a b c d : Ty} (left : σ.Resolves l (.fn a b)) (right : σ.Resolves r (.fn c d)) :
      Makes (.unify σ l r) (.unify σ a c)
  | results {σ σ' : Subst} {l r a b c d : Ty} {n : Nat} (left : σ.Resolves l (.fn a b))
      (right : σ.Resolves r (.fn c d)) (arguments : Unifying σ a c n (.ok () σ')) :
      Makes (.unify σ l r) (.unify σ' b d)

/-- No chain of calls that starts here is infinite. -/
def Terminates (call : Invocation) : Prop := Acc (fun inner outer => Makes outer inner) call

end Invocation

theorem Resolves.terminates (h : σ.Resolves t u) : (Invocation.resolve σ t).Terminates := by
  induction h with
  | int | bool | string => exact ⟨_, fun _ made => by cases made⟩
  | free free =>
    refine ⟨_, fun _ made => ?_⟩
    cases made with
    | entry entry =>
      rw [free] at entry
      cases entry
  | entry entry _ ih =>
    refine ⟨_, fun _ made => ?_⟩
    cases made with
    | entry entry' =>
      rw [entry] at entry'
      cases entry'
      exact ih
  | fn _ _ ihArg ihRes =>
    refine ⟨_, fun _ made => ?_⟩
    cases made with
    | arg => exact ihArg
    | res => exact ihRes

/-- All calls of a call of unification end if those do that it makes of itself. -/
theorem terminates_of_nested {l' r' : Ty} (left : σ.Resolves l l') (right : σ.Resolves r r')
    (nested : ∀ a b c d, l' = .fn a b → r' = .fn c d →
      (Invocation.unify σ a c).Terminates ∧
        ∀ n σ', Unifying σ a c n (.ok () σ') → (Invocation.unify σ' b d).Terminates) :
    (Invocation.unify σ l r).Terminates := by
  refine ⟨_, fun _ made => ?_⟩
  cases made with
  | left => exact left.terminates
  | right => exact right.terminates
  | solution left' right' demand =>
    -- the solution is one of the resolved types
    rcases Equation.of_demand_solution demand with eq | eq
    · cases eq
      exact right'.again.terminates
    · cases eq
      exact left'.again.terminates
  | arguments left' right' => exact (nested _ _ _ _ (left.unique left') (right.unique right')).1
  | results left' right' arguments => exact (nested _ _ _ _ (left.unique left') (right.unique right')).2 _ _ arguments

theorem Unifying.terminates (h : Unifying σ l r n result) : (Invocation.unify σ l r).Terminates := by
  induction h with
  | settled left right settled =>
    refine terminates_of_nested left right ?_
    rintro a b c d rfl rfl
    rw [settle_fn] at settled
    cases settled
  | failed left right arguments ih =>
    refine terminates_of_nested left right ?_
    rintro _ _ _ _ ⟨⟩ ⟨⟩
    refine ⟨ih, fun n σ' passed => ?_⟩
    cases (arguments.unique passed).2
  | passed left right arguments _ ihArguments ihResults =>
    refine terminates_of_nested left right ?_
    rintro _ _ _ _ ⟨⟩ ⟨⟩
    refine ⟨ihArguments, fun n σ' passed => ?_⟩
    cases (arguments.unique passed).2
    exact ihResults

end Subst

/-! ## Why it ends -/

/-- Both sides resolved. -/
def Equation.resolve (σ : Subst) (e : Equation) : Equation := (σ.apply e.1, σ.apply e.2)

namespace Solving

variable {p q : Solving} {σ : Subst} {rest : List Equation}

/-- A step takes away an unknown of the equations to come, or some of their constructors and brings no unknown. -/
theorem Step.decreases (step : Step p q) :
    Prod.Lex (· < ·) (· < ·) ((Equation.unknowns q.todo).length, Equation.size q.todo)
      ((Equation.unknowns p.todo).length, Equation.size p.todo) := by
  cases step with
  | drop => exact Subst.lex_rest ..
  | split demand => exact Subst.lex_both demand _
  | solve demand absent => exact .left _ _ (Equation.length_unknowns_assign demand absent)

/-- No run goes on for ever. -/
theorem wellFounded_run : WellFounded fun q p : Solving => TransGen Step p q := by
  have steps : WellFounded fun q p : Solving => Step p q :=
    Subrelation.wf Step.decreases (InvImage.wf _ (Prod.lex ⟨_, wellFounded_lt⟩ ⟨_, wellFounded_lt⟩).wf)
  exact Subrelation.wf transGen_swap.2 steps.transGen

theorem Ready.map_resolve (h : Ready ⟨σ, rest⟩) : rest.map (Equation.resolve σ) = rest := by
  refine (List.map_congr_left fun e he => ?_).trans (List.map_id rest)
  have unsolved := h.resolved e he
  rw [Equation.resolve, Subst.apply_eq_self fun i hi => unsolved i (by simp [Equation.mentions, hi]),
    Subst.apply_eq_self fun i hi => unsolved i (by simp [Equation.mentions, hi]), id]

/-- The equations to come, resolved by an entry that was just found. -/
theorem Ready.map_resolve_set {e : Equation} {id : Nat} {ty : Ty} (h : Ready ⟨σ, e :: rest⟩)
    (demand : e.demand = .solution id ty) (absent : ty.mentions id = false) :
    rest.map (Equation.resolve (σ.set id ty)) = Equation.assignAll rest id ty := by
  obtain ⟨free, same⟩ := h.solution demand
  have resolves := Subst.apply_set h.acyclic free same absent
  have before : rest.map (Equation.resolve σ) = rest :=
    map_resolve ⟨h.acyclic, fun d hd => h.resolved d (List.mem_cons_of_mem _ hd)⟩
  conv_rhs => rw [Equation.assignAll, ← before, List.map_map]
  exact List.map_congr_left fun d _ => by simp only [Equation.resolve, resolves, Function.comp_apply]

/-- What was resolved at one point of a run and again at a later one might have been resolved at the later one only. -/
theorem map_resolve_of_run (run : ReflTransGen Step p q) (h : Ready p) (eqs : List Equation) :
    (eqs.map (Equation.resolve p.subst)).map (Equation.resolve q.subst) = eqs.map (Equation.resolve q.subst) := by
  have keeps : ∀ i t, p.subst.get? i = some t → q.subst.get? i = some t :=
    invariant_of_run (I := fun q => ∀ i t, p.subst.get? i = some t → q.subst.get? i = some t)
      (fun step ready kept i t ht => step.keeps ready (kept i t ht)) run h fun _ _ ht => ht
  have absorbs := (ready_of_run run h).acyclic.apply_apply keeps
  rw [List.map_map]
  exact List.map_congr_left fun d _ => by simp only [Equation.resolve, absorbs, Function.comp_apply]

/-- At every point of solving, the recursion ends on the first equation. Either it succeeds, and solving gets past the
equation with the same entries, or both stop with the same error. -/
theorem exists_unifying {l r : Ty} (ready : Ready ⟨σ, Equation.resolve σ (l, r) :: rest⟩) :
    (∃ n σ', Subst.Unifying σ l r n (.ok () σ') ∧
        TransGen Step ⟨σ, Equation.resolve σ (l, r) :: rest⟩ ⟨σ', rest.map (Equation.resolve σ')⟩) ∨
      ∃ n err q, Subst.Unifying σ l r n (.error err q.subst) ∧
        ReflTransGen Step ⟨σ, Equation.resolve σ (l, r) :: rest⟩ q ∧ q.Ends (.error err q.subst) := by
  -- On the points of the run: both calls that a function type leads to belong to later points.
  induction start : (⟨σ, Equation.resolve σ (l, r) :: rest⟩ : Solving) using wellFounded_run.induction
    generalizing σ l r rest with
  | _ p ih =>
    subst start
    have left := ready.acyclic.resolves l
    have right := ready.acyclic.resolves r
    have at_once {result : EStateM.Result UnifyError Subst Unit}
        (settled : σ.settle (Equation.resolve σ (l, r)) = some result) : Subst.Unifying σ l r 1 result :=
      .settled left right settled
    cases demand : (Equation.resolve σ (l, r)).demand with
    | nothing =>
      have drop : Step ⟨σ, Equation.resolve σ (l, r) :: rest⟩ ⟨σ, rest⟩ := .drop demand
      refine .inl ⟨1, σ, at_once (by rw [Subst.settle, demand]), .single ?_⟩
      rwa [(drop.ready ready).map_resolve]
    | both first second =>
      have split : Step ⟨σ, Equation.resolve σ (l, r) :: rest⟩ ⟨σ, first :: second :: rest⟩ := .split demand
      have ready₁ := split.ready ready
      obtain ⟨eqL, eqR⟩ := Prod.mk.inj (Equation.of_demand_both demand)
      rw [eqL] at left
      rw [eqR] at right
      have same : Equation.resolve σ (first.1, first.2) = first := (List.cons.inj ready₁.map_resolve).1
      rw [← same] at ready₁ split
      obtain ⟨m, σ₁, arguments, run₁⟩ | ⟨m, err, q, arguments, run₁, ends⟩ := ih _ (.single split) ready₁ rfl
      · have ready₂ := ready_of_run run₁.to_reflTransGen ready₁
        obtain ⟨n, σ₂, results, run₂⟩ | ⟨n, err, q, results, run₂, ends⟩ := ih _ (.head split run₁) ready₂ rfl
        · rw [map_resolve_of_run run₂.to_reflTransGen ready₂] at run₂
          exact .inl ⟨m + n + 1, σ₂, .passed left right arguments results, (TransGen.head split run₁).trans run₂⟩
        · exact .inr ⟨m + n + 1, err, q, .passed left right arguments results,
            (TransGen.head split run₁).to_reflTransGen.trans run₂, ends⟩
      · exact .inr ⟨m + 1, err, q, .failed left right arguments, .head split run₁, ends⟩
    | solution id ty =>
      cases occurs : ty.mentions id with
      | true =>
        refine .inr ⟨1, _, _, at_once ?_, .refl, .refused (.occurs demand occurs)⟩
        rw [Subst.settle, demand]
        exact if_pos occurs
      | false =>
        have solve : Step ⟨σ, Equation.resolve σ (l, r) :: rest⟩ ⟨σ.set id ty, Equation.assignAll rest id ty⟩ :=
          .solve demand occurs
        refine .inl ⟨1, σ.set id ty, at_once ?_, .single ?_⟩
        · rw [Subst.settle, demand]
          simp only [occurs, ready.insert_eq demand occurs, Bool.false_eq_true, if_false]
        · rwa [ready.map_resolve_set demand occurs]
    | clash =>
      refine .inr ⟨1, _, _, at_once ?_, .refl, .refused (.clash demand)⟩
      rw [Subst.settle, demand]

end Solving

/-- The recursion ends with what unification returns. -/
theorem Subst.exists_unifying {σ : Subst} (h : σ.Acyclic) (l r : Ty) : ∃ n, Unifying σ l r n (unify l r σ) := by
  have ready : Solving.Ready ⟨σ, [Equation.resolve σ (l, r)]⟩ := Solving.ready_start h
  obtain ⟨n, σ', run, steps⟩ | ⟨n, err, q, run, steps, ends⟩ := Solving.exists_unifying ready
  · have runs : (Solving.start σ l r).Runs (.ok () σ') := ⟨_, steps.to_reflTransGen, .solved⟩
    have eq : unify l r σ = .ok () σ' := runs.solve_eq ready
    exact ⟨n, eq ▸ run⟩
  · have runs : (Solving.start σ l r).Runs (.error err q.subst) := ⟨q, steps, ends⟩
    have eq : unify l r σ = .error err q.subst := runs.solve_eq ready
    exact ⟨n, eq ▸ run⟩

/-- **Unification ends.** Without cycles, no chain of calls is infinite, and the calls come to one result after a number
of them: success, or a mismatch or a failed occurs check. It is the result of `unify`. -/
theorem Check.unify_terminates (s : CheckState) (acyclic : s.subst.Acyclic) (l r : Ty) :
    (Subst.Invocation.unify s.subst l r).Terminates ∧
      ∃ n result, Subst.Unifying s.subst l r n result ∧
        (∀ n' result', Subst.Unifying s.subst l r n' result' → n' = n ∧ result' = result) ∧
        ((∃ σ, result = .ok () σ ∧ Check.unify l r s = .ok () { s with subst := σ }) ∨
          ∃ err σ, result = .error err σ ∧ (∀ cycle, err ≠ .cyclic cycle) ∧
            Check.unify l r s = .error err { s with subst := σ }) := by
  obtain ⟨n, run⟩ := Subst.exists_unifying acyclic l r
  refine ⟨run.terminates, n, _, run, fun n' result' run' => run'.unique run, ?_⟩
  rw [Check.unify]
  cases result : Subst.unify l r s.subst with
  | ok u σ => exact .inl ⟨σ, rfl, rfl⟩
  | error err σ =>
    refine .inr ⟨err, σ, rfl, ?_, rfl⟩
    -- the substitution refuses no solution, which would be no true report
    rintro cycle rfl
    exact Subst.unify_truthful acyclic result

/-- After `u1 ↦ u2 -> u3` and `u2 ↦ u4`, the types `u4 -> u1` and `u6 -> u3 -> u2 -> Int` are unified. The results are
resolved twice more, through the entries of the chain and through those that the arguments leave. -/
theorem Check.unify_terminates_chained :
    Subst.chained.Acyclic ∧
      (Subst.Invocation.unify .chained Equation.infinite.1 Equation.infinite.2).Terminates ∧
      ∃ n σ, Subst.Unifying .chained Equation.infinite.1 Equation.infinite.2 n
        (.error (.occurs 3 (.fn (.unknown 3) .int)) σ) := by
  have occurs : Check.unify Equation.infinite.1 Equation.infinite.2 ⟨.chained, 6⟩ =
      .error (.occurs 3 (.fn (.unknown 3) .int)) ⟨(Subst.chained.set 4 (.unknown 6)).set 6 (.unknown 3), 6⟩ := by cbv
  obtain ⟨terminates, n, result, run, -, outcome⟩ :=
    Check.unify_terminates ⟨.chained, 6⟩ Subst.acyclic_chained Equation.infinite.1 Equation.infinite.2
  refine ⟨Subst.acyclic_chained, terminates, n, ?_⟩
  rw [occurs] at outcome
  obtain ⟨σ, -, impossible⟩ | ⟨err, σ, rfl, -, same⟩ := outcome
  · cases impossible
  · cases same
    exact ⟨_, run⟩

end Monolet
