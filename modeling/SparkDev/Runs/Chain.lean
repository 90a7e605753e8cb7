import Mathlib.Data.List.Basic

/-!
# Runs of a labelled step relation

A run from `s` is a list of labels, each with the state it led to. `Chain R s tr`
says that `R` holds at every step of the run `tr`: with `R` the step relation it
says that `tr` is a run, with another relation it states a property of every step.

* `chain_invariant`: what every step preserves holds after the run.
* `chain_iff`: to show that two properties hold along the same runs, compare them
  step by step under an invariant that need only survive the steps that satisfy them.
-/

namespace SparkDev.Runs

variable {σ ℓ : Type*}

/-- `R` holds at every step of the run. -/
def Chain (R : σ → ℓ → σ → Prop) : σ → List (ℓ × σ) → Prop
  | _, [] => True
  | s, (l, t) :: tr => R s l t ∧ Chain R t tr

/-- The state a run ends in. -/
def final : σ → List (ℓ × σ) → σ
  | s, [] => s
  | _, (_, t) :: tr => final t tr

/-- `t` is reached from `s` by some run. -/
def Reach (R : σ → ℓ → σ → Prop) (s t : σ) : Prop := ∃ tr, Chain R s tr ∧ final s tr = t

variable {R P Q : σ → ℓ → σ → Prop} {I : σ → Prop} {s t : σ} {l : ℓ} {tr tr' : List (ℓ × σ)}

@[simp] theorem chain_nil : Chain R s [] := trivial

@[simp] theorem chain_cons : Chain R s ((l, t) :: tr) ↔ R s l t ∧ Chain R t tr := Iff.rfl

@[simp] theorem final_nil : final s ([] : List (ℓ × σ)) = s := rfl

@[simp] theorem final_cons : final s ((l, t) :: tr) = final t tr := rfl

theorem final_append : ∀ (tr : List (ℓ × σ)) (s : σ), final s (tr ++ tr') = final (final s tr) tr' := by
  intro tr
  induction tr with
  | nil => intro s; rfl
  | cons p tr ih => intro s; exact ih p.2

theorem chain_append : ∀ (tr : List (ℓ × σ)) (s : σ),
    Chain R s (tr ++ tr') ↔ Chain R s tr ∧ Chain R (final s tr) tr' := by
  intro tr
  induction tr with
  | nil => intro s; simp
  | cons p tr ih =>
    intro s
    obtain ⟨l, t⟩ := p
    rw [List.cons_append, chain_cons, chain_cons, final_cons, ih t, and_assoc]

theorem reach_refl (s : σ) : Reach R s s := ⟨[], trivial, rfl⟩

theorem reach_step (h : R s l t) : Reach R s t := ⟨[(l, t)], ⟨h, trivial⟩, rfl⟩

theorem Reach.trans {u : σ} (h : Reach R s t) (h' : Reach R t u) : Reach R s u := by
  obtain ⟨tr, hc, rfl⟩ := h
  obtain ⟨tr', hc', rfl⟩ := h'
  exact ⟨tr ++ tr', (chain_append tr s).2 ⟨hc, hc'⟩, final_append tr s⟩

theorem chain_and : ∀ (tr : List (ℓ × σ)) (s : σ),
    Chain (fun s l t => P s l t ∧ Q s l t) s tr ↔ Chain P s tr ∧ Chain Q s tr := by
  intro tr
  induction tr with
  | nil => intro s; simp
  | cons p tr ih =>
    intro s
    obtain ⟨l, t⟩ := p
    rw [chain_cons, chain_cons, chain_cons, ih t, and_and_and_comm]

/-- A run ends where it starts or in the state of one of its steps. -/
theorem final_mem : ∀ (tr : List (ℓ × σ)) (s : σ), final s tr = s ∨ ∃ x ∈ tr, x.2 = final s tr := by
  intro tr
  induction tr with
  | nil => intro s; exact Or.inl rfl
  | cons x tr ih =>
    intro s
    right
    rcases ih x.2 with h | ⟨y, hy, h⟩
    · exact ⟨x, List.mem_cons_self, h.symm⟩
    · exact ⟨y, List.mem_cons_of_mem _ hy, h⟩

/-- **The invariant rule.** -/
theorem chain_invariant (hstep : ∀ s l t, I s → R s l t → I t) :
    ∀ (tr : List (ℓ × σ)) (s : σ), I s → Chain R s tr → I (final s tr) := by
  intro tr
  induction tr with
  | nil => intro s hs _; exact hs
  | cons p tr ih =>
    intro s hs h
    obtain ⟨l, t⟩ := p
    exact ih t (hstep s l t hs h.1) h.2

theorem reach_invariant (hstep : ∀ s l t, I s → R s l t → I t) (hs : I s) (h : Reach R s t) : I t := by
  obtain ⟨tr, hc, rfl⟩ := h
  exact chain_invariant hstep tr s hs hc

/-- **Simulation.** Steps that are steps under `f` give runs that are runs under `f`. -/
theorem reach_map {σ' ℓ' : Type*} {R' : σ' → ℓ' → σ' → Prop} (f : σ → σ')
    (hf : ∀ s l t, R s l t → ∃ l', R' (f s) l' (f t)) (h : Reach R s t) : Reach R' (f s) (f t) := by
  obtain ⟨tr, hc, rfl⟩ := h
  induction tr generalizing s with
  | nil => exact reach_refl (f s)
  | cons p tr ih =>
    obtain ⟨l, t⟩ := p
    obtain ⟨l', hl⟩ := hf s l t hc.1
    exact (reach_step hl).trans (ih hc.2)

/-- A fact about the labels of a run holds at every step. -/
theorem chain_labels {p : ℓ → Prop} : ∀ (tr : List (ℓ × σ)) (s : σ), (∀ x ∈ tr, p x.1) →
    Chain (fun _ l _ => p l) s tr := by
  intro tr
  induction tr with
  | nil => intro s _; trivial
  | cons x tr ih =>
    intro s h
    obtain ⟨hx, htr⟩ := List.forall_mem_cons.1 h
    exact ⟨hx, ih x.2 htr⟩

/-- Every step of a run from an invariant state starts in an invariant state, so a fact
about such steps holds along the run. -/
theorem chain_of_invariant (hstep : ∀ s l t, I s → R s l t → I t)
    (hP : ∀ s l t, I s → R s l t → P s l t) :
    ∀ (tr : List (ℓ × σ)) (s : σ), I s → Chain R s tr → Chain P s tr := by
  intro tr
  induction tr with
  | nil => intro s _ _; trivial
  | cons p tr ih =>
    intro s hs h
    obtain ⟨l, t⟩ := p
    exact ⟨hP s l t hs h.1, ih t (hstep s l t hs h.1) h.2⟩

/-- **Comparing two properties of a run step by step.** The invariant has to survive only
the steps at which the property holds: at the first step where it fails both sides fail. -/
theorem chain_iff (hiff : ∀ s l t, I s → R s l t → (P s l t ↔ Q s l t))
    (hstep : ∀ s l t, I s → R s l t → P s l t → I t) :
    ∀ (tr : List (ℓ × σ)) (s : σ), I s → Chain R s tr → (Chain P s tr ↔ Chain Q s tr) := by
  intro tr
  induction tr with
  | nil => intro s _ _; exact Iff.rfl
  | cons p tr ih =>
    intro s hs h
    obtain ⟨l, t⟩ := p
    rw [chain_cons, chain_cons, ← hiff s l t hs h.1]
    -- the tail matters only where the first step satisfies both, and then the invariant survives
    exact and_congr_right fun hP => ih t (hstep s l t hs h.1 hP) h.2

end SparkDev.Runs
