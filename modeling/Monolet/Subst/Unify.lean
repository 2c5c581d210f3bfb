import Monolet.Subst.Basic

/-!
# Unification

`unify` makes two types equal by recording solutions in a substitution. Both types are resolved first; then
equations are taken apart from left to right. An equation with an unknown on one side is solved by the other
side, the left unknown first, and the solution is put into the equations still to come, so that all of them stay
resolved. Solutions recorded before a failure stay.

The equations still to come lose an unknown whenever one is solved and get smaller otherwise, so unification
ends by the number of their unknowns and then their size.
-/

namespace Monolet

/-- Why two types cannot be made equal: their constructors differ, an unknown would contain itself, or the
substitution refused a solution, which it has no reason to do after the unknown was found not to occur. -/
inductive UnifyError where
  | mismatch (left right : Ty)
  | occurs (id : Nat) (ty : Ty)
  | cyclic (solution : CyclicSolution)

namespace UnifyError

/-- The message of a failed unification. -/
def message : UnifyError → String
  | mismatch left right => "Can't match " ++ left.print ++ " with " ++ right.print
  | occurs id ty => "cannot construct infinite type: " ++ Ty.unknownText id ++ " = " ++ ty.print
  | cyclic solution => solution.message

/-- Is this a mismatch of these two types, in either order? -/
def isMismatchBetween (e : UnifyError) (a b : Ty) : Bool :=
  match e with
  | mismatch left right => (left = a && right = b) || (left = b && right = a)
  | occurs .. | cyclic _ => false

end UnifyError

/-- An equation between two types. -/
abbrev Equation := Ty × Ty

namespace Equation

/-- What an equation between resolved types comes down to. -/
inductive Demand where
  | nothing
  | both (first second : Equation)
  | solution (id : Nat) (ty : Ty)
  | clash

/-- Compare the outermost constructors of both sides. -/
def demand : Equation → Demand
  | (.int, .int) | (.bool, .bool) | (.string, .string) => .nothing
  | (.fn a b, .fn c d) => .both (a, c) (b, d)
  | (.unknown m, .unknown n) => if m = n then .nothing else .solution m (.unknown n)
  | (.unknown m, ty) => .solution m ty
  | (ty, .unknown n) => .solution n ty
  | _ => .clash

/-- Put a solution into both sides of every equation. -/
def assignAll (eqs : List Equation) (id : Nat) (ty : Ty) : List Equation :=
  eqs.map fun e => (e.1.assign id ty, e.2.assign id ty)

/-- Does an unknown occur on either side? -/
def mentions (id : Nat) (e : Equation) : Bool := e.1.mentions id || e.2.mentions id

/-- The unknowns of some equations, each once. -/
def unknowns (eqs : List Equation) : List Nat :=
  (eqs.flatMap fun e => e.1.unknowns ++ e.2.unknowns).foldr List.insert []

/-- The number of constructors in some equations. -/
def size : List Equation → Nat
  | [] => 0
  | e :: rest => e.1.size + e.2.size + size rest

theorem mem_unknowns {id : Nat} {eqs : List Equation} :
    id ∈ unknowns eqs ↔ ∃ e ∈ eqs, e.mentions id = true := by
  have insertAll (l : List Nat) : id ∈ l.foldr List.insert [] ↔ id ∈ l := by
    induction l with
    | nil => simp
    | cons a l ih => simp [ih]
  simp [unknowns, insertAll, mentions, Ty.mem_unknowns]

theorem nodup_unknowns (eqs : List Equation) : (unknowns eqs).Nodup := by
  unfold unknowns
  generalize (eqs.flatMap fun e => e.1.unknowns ++ e.2.unknowns) = l
  induction l with
  | nil => simp
  | cons a l ih =>
    rw [List.foldr_cons, List.insert]
    split
    · exact ih
    · rename_i h
      exact List.nodup_cons.2 ⟨by simpa using h, ih⟩

/-- Equations that mention no new unknowns have no more of them. -/
theorem length_unknowns_le {eqs eqs' : List Equation}
    (h : ∀ id, (∃ e ∈ eqs', e.mentions id = true) → ∃ e ∈ eqs, e.mentions id = true) :
    (unknowns eqs').length ≤ (unknowns eqs).length :=
  (nodup_unknowns eqs').length_le_of_subset fun id hid => mem_unknowns.2 (h id (mem_unknowns.1 hid))

/-- Equations that mention no new unknowns and lost one have fewer of them. -/
theorem length_unknowns_lt {eqs eqs' : List Equation} (lost : Nat)
    (h : ∀ id, (∃ e ∈ eqs', e.mentions id = true) → id ≠ lost ∧ ∃ e ∈ eqs, e.mentions id = true)
    (had : ∃ e ∈ eqs, e.mentions lost = true) :
    (unknowns eqs').length < (unknowns eqs).length := by
  have gone : lost ∉ unknowns eqs' := fun hl => (h lost (mem_unknowns.1 hl)).1 rfl
  have sub : lost :: unknowns eqs' ⊆ unknowns eqs := by
    intro id hid
    rcases List.mem_cons.1 hid with rfl | hid
    · exact mem_unknowns.2 had
    · exact mem_unknowns.2 (h id (mem_unknowns.1 hid)).2
  exact (List.nodup_cons.2 ⟨gone, nodup_unknowns eqs'⟩).length_le_of_subset sub

/-- A demanded solution has its unknown on one side and its type on the other. -/
theorem of_demand_solution {e : Equation} {id : Nat} {ty : Ty} (h : e.demand = .solution id ty) :
    e = (.unknown id, ty) ∨ e = (ty, .unknown id) := by
  fun_cases demand e <;> simp_all [demand]

/-- The unknown of a demanded solution and the unknowns of its type occur in the equation. -/
theorem mentions_of_demand_solution {e : Equation} {id : Nat} {ty : Ty} (h : e.demand = .solution id ty) :
    e.mentions id = true ∧ ∀ k, ty.mentions k = true → e.mentions k = true := by
  rcases of_demand_solution h with rfl | rfl <;> simp_all [mentions, Ty.mentions]

/-- Demanded equations are the components of two function types. -/
theorem of_demand_both {e first second : Equation} (h : e.demand = .both first second) :
    e = (.fn first.1 second.1, .fn first.2 second.2) := by
  fun_cases demand e <;> simp_all [demand]
  obtain ⟨rfl, rfl⟩ := h
  simp

/-- Putting a solution into the other equations removes its unknown. -/
theorem length_unknowns_assign {e : Equation} {rest : List Equation} {id : Nat} {ty : Ty}
    (h : e.demand = .solution id ty) (free : ty.mentions id = false) :
    (unknowns (assignAll rest id ty)).length < (unknowns (e :: rest)).length := by
  obtain ⟨mentionsId, mentionsTy⟩ := mentions_of_demand_solution h
  refine length_unknowns_lt id ?_ ⟨e, by simp, mentionsId⟩
  rintro k ⟨e', he', hk⟩
  obtain ⟨d, hd, rfl⟩ := List.mem_map.1 he'
  simp only [mentions, Bool.or_eq_true, Ty.mentions_assign] at hk
  by_cases hty : ty.mentions k = true
  · exact ⟨by rintro rfl; simp_all, e, by simp, mentionsTy k hty⟩
  · exact ⟨by grind, d, by simp [hd], by simp only [mentions]; grind⟩

end Equation

namespace Subst

/-- Lexicographic descent when the first component does not grow. -/
theorem lex_of_le {a a' b b' : Nat} (ha : a' ≤ a) (hb : b' < b) :
    Prod.Lex (· < ·) (· < ·) (a', b') (a, b) := by
  rcases Nat.lt_or_eq_of_le ha with h | h
  · exact .left _ _ h
  · exact h ▸ .right _ hb

/-- The equations behind the first one are fewer. -/
theorem lex_rest (e : Equation) (rest : List Equation) :
    Prod.Lex (· < ·) (· < ·) ((Equation.unknowns rest).length, Equation.size rest)
      ((Equation.unknowns (e :: rest)).length, Equation.size (e :: rest)) := by
  refine lex_of_le (Equation.length_unknowns_le ?_) ?_
  · grind
  · have := e.1.size_pos
    simp only [Equation.size]
    omega

/-- The components of two function types are smaller. -/
theorem lex_both {e first second : Equation} (h : e.demand = .both first second) (rest : List Equation) :
    Prod.Lex (· < ·) (· < ·) ((Equation.unknowns (first :: second :: rest)).length,
        Equation.size (first :: second :: rest))
      ((Equation.unknowns (e :: rest)).length, Equation.size (e :: rest)) := by
  obtain rfl := Equation.of_demand_both h
  refine lex_of_le (Equation.length_unknowns_le ?_) ?_
  · simp only [List.mem_cons, exists_eq_or_imp, Equation.mentions, Ty.mentions]
    grind
  · simp only [Equation.size, Ty.size]
    omega

/-- Solve equations between resolved types one after the other. -/
def solve (σ : Subst) (eqs : List Equation) : EStateM.Result UnifyError Subst Unit :=
  match eqs with
  | [] => .ok () σ
  | e :: rest =>
    match _h : e.demand with
    | .nothing => σ.solve rest
    | .both first second => σ.solve (first :: second :: rest)
    | .solution id ty =>
      if _free : ty.mentions id then .error (.occurs id ty) σ
      else
        match σ.insert id ty with
        | .ok σ' => σ'.solve (Equation.assignAll rest id ty)
        | .error cycle => .error (.cyclic cycle) σ
    | .clash => .error (.mismatch e.1 e.2) σ
termination_by ((Equation.unknowns eqs).length, Equation.size eqs)
decreasing_by
  · exact lex_rest e rest
  · exact lex_both _h rest
  · exact .left _ _ (Equation.length_unknowns_assign _h (by simpa using _free))

/-- Make two types equal. -/
def unify (left right : Ty) : EStateM UnifyError Subst Unit := fun σ =>
  σ.solve [(σ.apply left, σ.apply right)]

end Subst

end Monolet
