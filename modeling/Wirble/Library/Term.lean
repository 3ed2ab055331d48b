import Mathlib.Logic.Relation
import Mathlib.Algebra.GroupWithZero.Nat
import Mathlib.Data.List.Basic

/-! First-order terms, and the congruence that a set of equations between them generates. -/

/-- A symbol applied to a list of terms. -/
inductive Term (σ : Type*) where
  | app (symbol : σ) (args : List (Term σ))

namespace Term

variable {σ V : Type*}

mutual

/-- Terms are compared symbol by symbol. -/
def decEq [DecidableEq σ] : (left right : Term σ) → Decidable (left = right)
  | app symbol args, app symbol' args' =>
    match decEqList args args' with
    | .isTrue equal => decidable_of_iff (symbol = symbol') (by simp [equal])
    | .isFalse different => .isFalse (by simp [different])

/-- Argument lists are compared from the first to the last. -/
def decEqList [DecidableEq σ] : (left right : List (Term σ)) → Decidable (left = right)
  | [], [] => .isTrue rfl
  | [], _ :: _ | _ :: _, [] => .isFalse (by simp)
  | head :: tail, head' :: tail' =>
    match decEq head head', decEqList tail tail' with
    | .isTrue same, .isTrue others => .isTrue (by rw [same, others])
    | .isFalse different, _ => .isFalse (by simp [different])
    | _, .isFalse different => .isFalse (by simp [different])

end

instance [DecidableEq σ] : DecidableEq (Term σ) := decEq

/-- The symbol at the root of a term. -/
def root : Term σ → σ
  | app symbol _ => symbol

/-- The size of a term counts its symbols. -/
def size : Term σ → Nat
  | app _ args => 1 + (args.map size).sum

/-- Two argument lists that differ in one term only have sizes that differ as these terms do. -/
theorem size_arg (symbol : σ) (before after : List (Term σ)) (term : Term σ) :
    (app symbol (before ++ term :: after)).size =
      1 + (before.map size).sum + (after.map size).sum + term.size := by
  simp only [size, List.map_append, List.map_cons, List.sum_append, List.sum_cons]
  omega

/-- An argument is smaller than the term. -/
theorem size_lt_of_arg {symbol : σ} {args : List (Term σ)} {term : Term σ} (member : term ∈ args) :
    term.size < (app symbol args).size := by
  obtain ⟨before, after, rfl⟩ := List.append_of_mem member
  rw [size_arg]
  omega

/-- Equality up to the equations, used at any position and in either direction. -/
inductive Conv (base : Term σ → Term σ → Prop) : Term σ → Term σ → Prop
  | base {left right : Term σ} : base left right → Conv base left right
  | refl (term : Term σ) : Conv base term term
  | symm {left right : Term σ} : Conv base left right → Conv base right left
  | trans {left middle right : Term σ} :
    Conv base left middle → Conv base middle right → Conv base left right
  | arg (symbol : σ) (before after : List (Term σ)) {left right : Term σ} :
    Conv base left right →
    Conv base (app symbol (before ++ left :: after)) (app symbol (before ++ right :: after))

variable {base : Term σ → Term σ → Prop}

/-- More equations relate more terms. -/
theorem Conv.mono {base' : Term σ → Term σ → Prop}
    (more : ∀ left right, base left right → base' left right) {left right : Term σ}
    (conv : Conv base left right) : Conv base' left right := by
  -- Each step of the derivation is one of the larger relation.
  induction conv with
  | base equation => exact .base (more _ _ equation)
  | refl term => exact .refl term
  | symm _ next => exact next.symm
  | trans _ _ first second => exact first.trans second
  | arg symbol before after _ next => exact .arg symbol before after next

/-- A function is constant on classes when equations and single arguments keep it so. -/
theorem Conv.map_eq {value : Term σ → V}
    (equations : ∀ left right, base left right → value left = value right)
    (congruence : ∀ symbol before after left right, Conv base left right →
      value left = value right →
      value (app symbol (before ++ left :: after)) = value (app symbol (before ++ right :: after)))
    {left right : Term σ} (conv : Conv base left right) : value left = value right := by
  -- The value stays the same through every rule of the closure.
  induction conv with
  | base equation => exact equations _ _ equation
  | refl => rfl
  | symm _ same => exact same.symm
  | trans _ _ first second => exact first.trans second
  | arg symbol before after inner same => exact congruence symbol before after _ _ inner same

/-- Equations between terms of one size relate only terms of one size. -/
theorem Conv.size_eq (equations : ∀ left right, base left right → left.size = right.size)
    {left right : Term σ} (conv : Conv base left right) : left.size = right.size := by
  refine conv.map_eq equations fun symbol before after left right _ same => ?_
  rw [size_arg, size_arg, same]

/-- Equations between terms of one root relate only terms of one root. -/
theorem Conv.root_eq (equations : ∀ left right, base left right → left.root = right.root)
    {left right : Term σ} (conv : Conv base left right) : left.root = right.root :=
  conv.map_eq equations fun _ _ _ _ _ _ _ => rfl

/-- Equations that never mention a term without arguments relate such a term to itself only. -/
theorem Conv.constant (equations : ∀ left right symbol, base left right →
      left ≠ app symbol [] ∧ right ≠ app symbol [])
    {symbol : σ} {term : Term σ} (conv : Conv base (app symbol []) term) :
    term = app symbol [] := by
  -- Being this very term is a property of classes.
  let same : Term σ → Prop := (· = app symbol [])
  have kept : same (app symbol []) = same term := by
    refine conv.map_eq (fun left right equation => ?_) fun other before after _ _ _ _ => ?_
    · have apart := equations left right symbol equation
      exact propext ⟨fun equal => absurd equal apart.1, fun equal => absurd equal apart.2⟩
    · simp [same]
  have stays : same term := cast kept rfl
  exact stays

/-- Convertible argument lists give convertible terms. -/
theorem Conv.congr (symbol : σ) {args args' : List (Term σ)}
    (related : List.Forall₂ (Conv base) args args') :
    Conv base (app symbol args) (app symbol args') := by
  -- The arguments are exchanged from the left, behind those already exchanged.
  suffices step : ∀ done : List (Term σ),
      Conv base (app symbol (done ++ args)) (app symbol (done ++ args')) from step []
  induction related with
  | nil => exact fun done => .refl _
  | @cons left right rest rest' head _ next =>
    intro done
    have exchanged := Conv.arg symbol done rest head
    have others := next (done ++ [right])
    simp only [List.append_assoc, List.singleton_append] at others
    exact exchanged.trans others

/-- Arguments are smaller, so a property that passes from arguments to terms holds of all terms. -/
theorem induction {property : Term σ → Prop}
    (step : ∀ symbol args, (∀ term ∈ args, property term) → property (app symbol args)) :
    ∀ term, property term
  | app symbol args => step symbol args fun term _ => induction step term
termination_by term => term.size
decreasing_by exact size_lt_of_arg ‹_›

/-- The first term occurs in the second. -/
inductive Subterm : Term σ → Term σ → Prop
  | refl (term : Term σ) : Subterm term term
  | arg {symbol : σ} {args : List (Term σ)} {part whole : Term σ} :
    whole ∈ args → Subterm part whole → Subterm part (app symbol args)

/-- A subterm of a subterm is a subterm. -/
theorem Subterm.trans {first second third : Term σ} (left : Subterm first second)
    (right : Subterm second third) : Subterm first third := by
  induction right with
  | refl => exact left
  | arg member _ next => exact .arg member (next left)

/-- One rewrite step at any position. -/
inductive Step (base : Term σ → Term σ → Prop) : Term σ → Term σ → Prop
  | base {left right : Term σ} : base left right → Step base left right
  | arg (symbol : σ) (before after : List (Term σ)) {left right : Term σ} :
    Step base left right →
    Step base (app symbol (before ++ left :: after)) (app symbol (before ++ right :: after))

/-- Any number of rewrite steps. -/
abbrev Steps (base : Term σ → Term σ → Prop) : Term σ → Term σ → Prop :=
  Relation.ReflTransGen (Step base)

/-- No step leaves the term. -/
def Normal (base : Term σ → Term σ → Prop) (term : Term σ) : Prop :=
  ∀ next, ¬ Step base term next

/-- Steps inside an argument are steps of the whole term. -/
theorem Steps.arg (symbol : σ) (before after : List (Term σ)) {left right : Term σ}
    (steps : Steps base left right) :
    Steps base (app symbol (before ++ left :: after)) (app symbol (before ++ right :: after)) := by
  induction steps with
  | refl => exact .refl
  | tail _ step next => exact next.tail (.arg symbol before after step)

/-- Arguments may be rewritten one after the other. -/
theorem Steps.args (symbol : σ) {args args' : List (Term σ)}
    (steps : List.Forall₂ (Steps base) args args') :
    Steps base (app symbol args) (app symbol args') := by
  -- The arguments are rewritten from the left, behind those already rewritten.
  suffices step : ∀ done : List (Term σ),
      Steps base (app symbol (done ++ args)) (app symbol (done ++ args')) from step []
  induction steps with
  | nil => exact fun done => .refl
  | @cons left right rest rest' head _ next =>
    intro done
    have first := Steps.arg symbol done rest head
    have others := next (done ++ [right])
    simp only [List.append_assoc, List.singleton_append] at others
    exact first.trans others

/-- Rewriting a part rewrites the whole. -/
theorem Subterm.steps {part whole part' : Term σ} (inside : Subterm part whole)
    (steps : Steps base part part') : ∃ whole', Steps base whole whole' ∧ Subterm part' whole' := by
  induction inside with
  | refl => exact ⟨part', steps, .refl part'⟩
  -- The part is rewritten inside one argument of the whole.
  | @arg symbol args _ whole member _ next =>
    obtain ⟨whole', outer, inner⟩ := next steps
    obtain ⟨before, after, rfl⟩ := List.append_of_mem member
    exact ⟨_, outer.arg symbol before after, .arg (by simp) inner⟩

/-- Parts of a normal term are normal. -/
theorem Normal.arg {symbol : σ} {args : List (Term σ)} (normal : Normal base (app symbol args))
    {term : Term σ} (member : term ∈ args) : Normal base term := by
  intro next step
  obtain ⟨before, after, rfl⟩ := List.append_of_mem member
  exact normal _ (.arg symbol before after step)

/-- The weight of a term adds up the costs of its symbols. -/
def weight (cost : σ → Nat) : Term σ → Nat
  | app symbol args => cost symbol + (args.map (weight cost)).sum

/-- Steps that lower the weight where they happen lower that of the whole term. -/
theorem Step.weight_lt {cost : σ → Nat}
    (lower : ∀ left right, base left right → right.weight cost < left.weight cost)
    {left right : Term σ} (step : Step base left right) : right.weight cost < left.weight cost := by
  induction step with
  | base equation => exact lower _ _ equation
  | arg symbol before after _ next =>
    -- The cost of the argument falls, and the other arguments keep theirs.
    simp only [weight, List.map_append, List.map_cons, List.sum_append, List.sum_cons]
    omega

end Term
