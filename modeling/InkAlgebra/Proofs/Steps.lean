import Mathlib
import InkAlgebra.Error

/-!
# Rows of steps

A step that can fail, taken on each thing of a row: it succeeds on the row if and only if it does on
each thing, and the results stand to the things as the step says.

§1 is steps of any kind, §2 the results of steps, §3 rows in between.
-/

namespace InkAlgebra

/-! ## §1  Steps of any kind -/

section

variable {m : Type → Type} [Monad m] [LawfulMonad m] {β γ δ : Type}

/-- A row of steps is the same with steps that agree on each of its entries. -/
theorem mapM_congr {step step' : β → m γ} {xs : List β} (h : ∀ x ∈ xs, step x = step' x) :
    xs.mapM step = xs.mapM step' := by
  induction xs with
  | nil => rfl
  | cons x rest ih =>
      obtain ⟨hx, hrest⟩ := List.forall_mem_cons.1 h
      rw [List.mapM_cons, List.mapM_cons, hx, ih hrest]

/-- Steps that change their results in one way change those of a row in this way. -/
theorem mapM_eq_map_mapM {step : β → m γ} {step' : β → m δ} {f : γ → δ}
    (h : ∀ x, step' x = f <$> step x) (xs : List β) :
    xs.mapM step' = List.map f <$> xs.mapM step := by
  induction xs with
  | nil => exact (map_pure (List.map f) []).symm
  | cons x rest ih =>
      rw [List.mapM_cons, List.mapM_cons, h, ih]
      simp only [bind_map_left, map_bind, map_pure, List.map_cons]

end

/-! ## §2  Results -/

section

variable {ε β γ : Type} {step : β → Except ε γ} {xs : List β} {ys : List γ}

theorem mapM_eq_ok_iff_forall₂ :
    xs.mapM step = .ok ys ↔ List.Forall₂ (fun x y => step x = .ok y) xs ys := by
  induction xs generalizing ys with
  | nil => simp [pure, Except.pure, eq_comm]
  | cons x xs ih =>
      rw [List.mapM_cons, List.forall₂_cons_left_iff]
      cases hx : step x with
      | error e => simp [bind, Except.bind]
      | ok y =>
          cases hxs : xs.mapM step with
          | error e => simp [← ih, hxs, bind, Except.bind]
          | ok rest => simp [← ih, hxs, bind, Except.bind, pure, Except.pure, eq_comm]

theorem mapM_eq_some_iff_forall₂ {step : β → Option γ} :
    xs.mapM step = some ys ↔ List.Forall₂ (fun x y => step x = some y) xs ys := by
  induction xs generalizing ys with
  | nil => simp [eq_comm]
  | cons x xs ih =>
      rw [List.mapM_cons, List.forall₂_cons_left_iff]
      cases hx : step x with
      | none => simp
      | some y =>
          cases hxs : xs.mapM step with
          | none => simp [← ih, hxs]
          | some rest => simp [← ih, hxs, eq_comm]

/-- A row of steps that all succeed succeeds. -/
theorem exists_mapM_eq_ok (h : ∀ x ∈ xs, ∃ y, step x = .ok y) : ∃ ys, xs.mapM step = .ok ys := by
  induction xs with
  | nil => exact ⟨[], rfl⟩
  | cons x rest ih =>
      obtain ⟨hx, hrest⟩ := List.forall_mem_cons.1 h
      rw [List.mapM_cons]
      exact exists_bind_eq_ok hx fun y _ => exists_bind_eq_ok (ih hrest) fun ys _ => ⟨y :: ys, rfl⟩

/-- Each result is that of a step. -/
theorem exists_mem_of_mapM_eq_ok (h : xs.mapM step = .ok ys) :
    ∀ y ∈ ys, ∃ x ∈ xs, step x = .ok y := by
  induction mapM_eq_ok_iff_forall₂.1 h with
  | nil => exact fun y hy => absurd hy List.not_mem_nil
  | cons hxy hrest ih =>
      refine List.forall_mem_cons.2 ⟨⟨_, List.mem_cons_self, hxy⟩, fun y hy => ?_⟩
      obtain ⟨x, hx, hstep⟩ := ih (mapM_eq_ok_iff_forall₂.2 hrest) y hy
      exact ⟨x, List.mem_cons_of_mem _ hx, hstep⟩

/-- Each step has its result among the results. -/
theorem exists_result_of_mapM_eq_ok (h : xs.mapM step = .ok ys) :
    ∀ x ∈ xs, ∃ y ∈ ys, step x = .ok y := by
  induction mapM_eq_ok_iff_forall₂.1 h with
  | nil => exact fun x hx => absurd hx List.not_mem_nil
  | cons hxy hrest ih =>
      refine List.forall_mem_cons.2 ⟨⟨_, List.mem_cons_self, hxy⟩, fun x hx => ?_⟩
      obtain ⟨y, hy, hstep⟩ := ih (mapM_eq_ok_iff_forall₂.2 hrest) x hx
      exact ⟨y, List.mem_cons_of_mem _ hy, hstep⟩

end

/-! ## §3  Rows in between -/

section

variable {β γ : Type}

/-- A row of things in between, each fit for its left and its right neighbour. -/
theorem exists_forall₂_iff {R : β → γ → Prop} {S : γ → β → Prop} {xs : List β} :
    (∃ ys, List.Forall₂ R xs ys ∧ List.Forall₂ S ys xs) ↔ ∀ x ∈ xs, ∃ y, R x y ∧ S y x := by
  constructor
  · rintro ⟨ys, hR, hS⟩
    induction xs generalizing ys with
    | nil =>
        intro x hx
        cases hx
    | cons x xs ih =>
        cases hR with
        | cons hxy hR =>
            cases hS with
            | cons hyx hS => exact List.forall_mem_cons.2 ⟨⟨_, hxy, hyx⟩, ih _ hR hS⟩
  · intro h
    induction xs with
    | nil => exact ⟨[], .nil, .nil⟩
    | cons x xs ih =>
        obtain ⟨⟨y, hxy, hyx⟩, hrest⟩ := List.forall_mem_cons.1 h
        obtain ⟨ys, hR, hS⟩ := ih hrest
        exact ⟨y :: ys, .cons hxy hR, .cons hyx hS⟩

theorem map_eq_of_forall₂ {R : β → β → Prop} {f : β → γ} (hR : ∀ x y, R x y → f y = f x)
    {xs ys : List β} (h : List.Forall₂ R xs ys) : ys.map f = xs.map f := by
  induction h with
  | nil => rfl
  | cons h _ ih => rw [List.map_cons, List.map_cons, hR _ _ h, ih]

end

end InkAlgebra
