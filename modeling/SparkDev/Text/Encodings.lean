import Mathlib.Data.List.Basic
import Mathlib.Data.Nat.Digits.Defs

/-!
# What can be read back from a text

Numbers are read back from their decimal digits. Texts joined by a separator character are
read back up to the pieces between the separators: which of the pieces belonged to one text
is lost.

* `intercalate_eq_iff`: two joined texts are equal exactly when their pieces are.
-/

namespace SparkDev.Text

theorem toString_inj {m n : ℕ} (h : toString m = toString n) : m = n := by
  have hlist := congrArg String.toList h
  have hread := congrArg (fun digits => Nat.ofDigitChars 10 digits 0) hlist
  simpa [Nat.toString_eq_ofList_toDigits] using hread

theorem isDigit_of_mem_toString {n : ℕ} {c : Char} (h : c ∈ (toString n).toList) : c.isDigit = true := by
  rw [Nat.toString_eq_ofList_toDigits, String.toList_ofList] at h
  exact Nat.isDigit_of_mem_toDigits (by decide) (by decide) h

theorem toString_ofNat (n : ℕ) : toString (n : ℤ) = toString n := rfl

theorem toString_negSucc (n : ℕ) : toString (Int.negSucc n) = "-" ++ toString (n + 1) := rfl

/-- A decimal has digits and perhaps a sign. -/
theorem mem_toString_int {n : ℤ} {c : Char} (h : c ∈ (toString n).toList) : c.isDigit = true ∨ c = '-' := by
  rcases n with n | n
  · rw [Int.ofNat_eq_natCast, toString_ofNat] at h
    exact Or.inl (isDigit_of_mem_toString h)
  · rw [toString_negSucc, String.toList_append, List.mem_append] at h
    rcases h with h | h
    · exact Or.inr (List.mem_singleton.1 h)
    · exact Or.inl (isDigit_of_mem_toString h)

theorem toString_ne_minus (m n : ℕ) : toString m ≠ "-" ++ toString n := by
  intro h
  have hmem : '-' ∈ (toString m).toList := by
    rw [h, String.toList_append]
    exact List.mem_append_left _ List.mem_cons_self
  exact absurd (isDigit_of_mem_toString hmem) (by decide)

theorem toString_int_inj {m n : ℤ} (h : toString m = toString n) : m = n := by
  rcases m with m | m <;> rcases n with n | n
  · exact congrArg Int.ofNat (toString_inj h)
  · exact absurd h (toString_ne_minus m (n + 1))
  · exact absurd h.symm (toString_ne_minus n (m + 1))
  · rw [toString_negSucc, toString_negSucc, String.append_right_inj] at h
    have hsucc : m + 1 = n + 1 := toString_inj h
    rw [Nat.succ_injective hsucc]

variable {α : Type*} [DecidableEq α] {c : α} {xs ys : List (List α)}

/-- Cutting a joined text at the separator cuts each of its parts. -/
theorem splitOn_intercalate_flatMap (c : α) (hxs : xs ≠ []) :
    ([c].intercalate xs).splitOn c = xs.flatMap fun x => x.splitOn c := by
  induction xs with
  | nil => exact absurd rfl hxs
  | cons x xs ih =>
    rcases xs with _ | ⟨y, ys⟩
    · simp
    · have htail := ih (List.cons_ne_nil y ys)
      rw [List.intercalate_cons_cons, List.append_assoc, List.singleton_append,
        List.splitOn_append_cons_self, htail]
      exact List.flatMap_cons.symm

/-- **Two joined texts are equal exactly when they have the same pieces.** -/
theorem intercalate_eq_iff (c : α) (hxs : xs ≠ []) (hys : ys ≠ []) :
    [c].intercalate xs = [c].intercalate ys ↔
      (xs.flatMap fun x => x.splitOn c) = ys.flatMap fun y => y.splitOn c := by
  rw [← splitOn_intercalate_flatMap c hxs, ← splitOn_intercalate_flatMap c hys]
  constructor
  · intro h
    rw [h]
  · intro h
    have hjoin := congrArg [c].intercalate h
    rwa [List.intercalate_splitOn, List.intercalate_splitOn] at hjoin

/-- The pieces of a text are those of no other. -/
theorem splitOn_inj {x y : List α} (h : x.splitOn c = y.splitOn c) : x = y := by
  have hjoin := congrArg [c].intercalate h
  rwa [List.intercalate_splitOn, List.intercalate_splitOn] at hjoin

end SparkDev.Text
