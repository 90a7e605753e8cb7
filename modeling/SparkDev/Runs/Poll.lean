import Mathlib.Data.Nat.Notation
import Mathlib.Order.Basic

/-!
# Asking again until something is decided

A loop that asks `f 0`, `f 1`, … and stops at the first answer that decides something.
`firstSome f n i` makes at most `n` tries, from `f i` on.

* `firstSome_eq_some`: it finds `b` exactly when some try within the bound is `some b` and
  all tries before it are undecided.
* `exists_from_succ`: what happens in one of several tries happens in the first or a later one.
-/

namespace SparkDev.Runs

variable {β : Type*}

/-- The first decided answer among `f i`, …, `f (i + n - 1)`. -/
def firstSome (f : ℕ → Option β) : ℕ → ℕ → Option β
  | 0, _ => none
  | n + 1, i =>
    match f i with
    | some b => some b
    | none => firstSome f n (i + 1)

theorem exists_from_succ {P : ℕ → Prop} {i n : ℕ} : (∃ k, i ≤ k ∧ k < i + (n + 1) ∧ P k) ↔
    P i ∨ ∃ k, i + 1 ≤ k ∧ k < i + 1 + n ∧ P k := by
  constructor
  · rintro ⟨k, hi, hk, hp⟩
    rcases Nat.eq_or_lt_of_le hi with rfl | hlt
    · exact Or.inl hp
    · exact Or.inr ⟨k, hlt, by omega, hp⟩
  · rintro (hp | ⟨k, hi, hk, hp⟩)
    · exact ⟨i, Nat.le_refl i, by omega, hp⟩
    · exact ⟨k, by omega, by omega, hp⟩

variable {f : ℕ → Option β} {b : β}

theorem firstSome_eq_none : ∀ {n i : ℕ}, firstSome f n i = none ↔ ∀ k, i ≤ k → k < i + n → f k = none := by
  intro n
  induction n with
  | zero =>
    intro i
    exact iff_of_true rfl fun k hi hk => absurd hi (by omega)
  | succ n ih =>
    intro i
    unfold firstSome
    rcases h : f i with _ | b
    · simp only
      rw [ih]
      constructor
      · intro hall k hi hk
        rcases Nat.eq_or_lt_of_le hi with rfl | hlt
        · exact h
        · exact hall k hlt (by omega)
      · intro hall k hi hk
        exact hall k (by omega) (by omega)
    · refine iff_of_false (Option.some_ne_none b) fun hall => ?_
      rw [hall i (Nat.le_refl i) (by omega)] at h
      cases h

/-- **What the loop finds.** -/
theorem firstSome_eq_some : ∀ {n i : ℕ}, firstSome f n i = some b ↔
    ∃ k, i ≤ k ∧ k < i + n ∧ f k = some b ∧ ∀ j, i ≤ j → j < k → f j = none := by
  intro n
  induction n with
  | zero =>
    intro i
    refine iff_of_false (fun h => by cases h) ?_
    rintro ⟨k, hi, hk, -⟩
    omega
  | succ n ih =>
    intro i
    unfold firstSome
    rcases h : f i with _ | b'
    · simp only
      rw [ih]
      constructor
      · rintro ⟨k, hi, hk, hf, hbefore⟩
        refine ⟨k, by omega, by omega, hf, fun j hj hjk => ?_⟩
        rcases Nat.eq_or_lt_of_le hj with rfl | hlt
        · exact h
        · exact hbefore j hlt hjk
      · rintro ⟨k, hi, hk, hf, hbefore⟩
        rcases Nat.eq_or_lt_of_le hi with rfl | hlt
        · rw [h] at hf
          cases hf
        · exact ⟨k, hlt, by omega, hf, fun j hj hjk => hbefore j (by omega) hjk⟩
    · constructor
      · intro he
        exact ⟨i, Nat.le_refl i, by omega, h.trans he, fun j hj hji => absurd hj (by omega)⟩
      · rintro ⟨k, hi, hk, hf, hbefore⟩
        -- the first try decides
        rcases Nat.eq_or_lt_of_le hi with rfl | hlt
        · rw [← hf, h]
        · rw [hbefore i (Nat.le_refl i) hlt] at h
          cases h

/-- Some number of tries finds `b`. -/
theorem exists_firstSome_eq_some : (∃ n, firstSome f n 0 = some b) ↔
    ∃ k, f k = some b ∧ ∀ j < k, f j = none := by
  constructor
  · rintro ⟨n, h⟩
    obtain ⟨k, -, -, hf, hbefore⟩ := firstSome_eq_some.1 h
    exact ⟨k, hf, fun j hj => hbefore j (Nat.zero_le j) hj⟩
  · rintro ⟨k, hf, hbefore⟩
    exact ⟨k + 1, firstSome_eq_some.2 ⟨k, Nat.zero_le k, by omega, hf, fun j _ hj => hbefore j hj⟩⟩

end SparkDev.Runs
