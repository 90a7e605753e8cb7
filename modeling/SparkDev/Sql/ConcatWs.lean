import Mathlib.Logic.Relation
import SparkDev.Text.Encodings

/-!
# `concat_ws`

`concat_ws(sep, …)` joins its arguments and skips the nulls.

* `concatWs_eq_iff`: on arguments without nulls, two results are equal exactly when the
  arguments have the same pieces between separators.
* `pieces_eq_iff`: that is, when the arguments can be turned into each other by moving a
  separator, with the text beside it, into the next argument or back (`Shift`).
-/

namespace SparkDev.Sql

open Text

/-- `concat_ws(sep, values…)`. -/
def concatWs (sep : String) (values : List (Option String)) : String :=
  sep.intercalate values.reduceOption

/-- The pieces of a list of texts, cut at a separator character. -/
def pieces (sep : Char) (values : List String) : List (List Char) :=
  values.flatMap fun v => v.toList.splitOn sep

/-- What stands after a separator in one text is moved, the separator with it, to the front of
the next one. -/
inductive Shift (sep : Char) : List String → List String → Prop
  | next (a b c : String) (values : List String) :
    Shift sep ((a ++ String.singleton sep ++ b) :: c :: values) (a :: (b ++ String.singleton sep ++ c) :: values)
  | later (v : String) {values values' : List String} :
    Shift sep values values' → Shift sep (v :: values) (v :: values')

variable {sep : Char} {values values' : List String} {v v' : String}

theorem concatWs_some (sep : String) (values : List String) :
    concatWs sep (values.map some) = sep.intercalate values := by
  unfold concatWs List.reduceOption
  rw [List.filterMap_map]
  exact congrArg sep.intercalate List.filterMap_some

theorem concatWs_eq_iff (hlen : values.length = values'.length) :
    concatWs (String.singleton sep) (values.map some) =
        concatWs (String.singleton sep) (values'.map some) ↔
      pieces sep values = pieces sep values' := by
  rcases values with _ | ⟨v, values⟩
  · obtain rfl := List.length_eq_zero_iff.1 hlen.symm
    exact iff_of_true rfl rfl
  have hne' : values' ≠ [] := by
    intro h
    rw [h] at hlen
    cases hlen
  have hcons : (v :: values).map String.toList ≠ [] := by simp
  have hcons' : values'.map String.toList ≠ [] := by simpa using hne'
  rw [concatWs_some, concatWs_some, ← String.toList_inj, String.toList_intercalate,
    String.toList_intercalate, String.toList_singleton, intercalate_eq_iff sep hcons hcons']
  unfold pieces
  rw [List.flatMap_map, List.flatMap_map]

theorem pieces_cons (sep : Char) (v : String) (values : List String) :
    pieces sep (v :: values) = v.toList.splitOn sep ++ pieces sep values := List.flatMap_cons

/-- A text without the separator is one piece. -/
theorem pieces_cons_of_notMem (h : sep ∉ v.toList) (values : List String) :
    pieces sep (v :: values) = v.toList :: pieces sep values := by
  rw [pieces_cons, List.splitOn_eq_singleton h, List.singleton_append]

theorem pieces_singleton_inj (h : pieces sep [v] = pieces sep [v']) : v = v' := by
  have hpieces : v.toList.splitOn sep = v'.toList.splitOn sep := by simpa [pieces] using h
  exact String.toList_inj.1 (splitOn_inj hpieces)

/-! ## Which texts have the same pieces -/

theorem pieces_shift (h : Shift sep values values') : pieces sep values = pieces sep values' := by
  induction h with
  | next a b c values =>
    have hcut : ∀ a b : String, (a ++ String.singleton sep ++ b).toList.splitOn sep =
        a.toList.splitOn sep ++ b.toList.splitOn sep := by
      intro a b
      rw [String.toList_append, String.toList_append, String.toList_singleton, List.append_assoc,
        List.singleton_append, List.splitOn_append_cons_self]
    rw [pieces_cons, pieces_cons, pieces_cons, pieces_cons, hcut, hcut, List.append_assoc, List.append_assoc]
  | later v _ ih => rw [pieces_cons, pieces_cons, ih]

theorem pieces_of_shifts (h : Relation.EqvGen (Shift sep) values values') :
    pieces sep values = pieces sep values' := by
  induction h with
  | rel _ _ h => exact pieces_shift h
  | refl _ => rfl
  | symm _ _ _ ih => exact ih.symm
  | trans _ _ _ _ _ ih ih' => exact ih.trans ih'

theorem shifts_later (v : String) (h : Relation.EqvGen (Shift sep) values values') :
    Relation.EqvGen (Shift sep) (v :: values) (v :: values') := by
  induction h with
  | rel _ _ h => exact .rel _ _ (.later v h)
  | refl _ => exact .refl _
  | symm _ _ _ ih => exact .symm _ _ ih
  | trans _ _ _ _ _ ih ih' => exact .trans _ _ _ ih ih'

/-- The first of several texts can be cut down to its first piece. -/
theorem exists_shift_first (sep : Char) (v w : String) (values : List String) :
    ∃ p w' : String, sep ∉ p.toList ∧ Relation.EqvGen (Shift sep) (v :: w :: values) (p :: w' :: values) := by
  by_cases hmem : sep ∈ v.toList
  · obtain ⟨a, b, hab, ha⟩ := List.eq_append_cons_of_mem hmem
    have hv : v = String.ofList a ++ String.singleton sep ++ String.ofList b := by
      rw [← String.toList_inj, String.toList_append, String.toList_append, String.toList_ofList,
        String.toList_ofList, String.toList_singleton, List.append_assoc, List.singleton_append, hab]
    refine ⟨String.ofList a, String.ofList b ++ String.singleton sep ++ w, by rwa [String.toList_ofList], ?_⟩
    rw [hv]
    exact .rel _ _ (.next _ _ w values)
  · exact ⟨v, w, hmem, .refl _⟩

/-- **Texts with the same pieces** are those that shifts turn into each other. -/
theorem pieces_eq_iff (hlen : values.length = values'.length) :
    pieces sep values = pieces sep values' ↔ Relation.EqvGen (Shift sep) values values' := by
  refine ⟨fun h => ?_, pieces_of_shifts⟩
  induction hn : values.length generalizing values values' with
  | zero =>
    obtain rfl := List.length_eq_zero_iff.1 hn
    obtain rfl := List.length_eq_zero_iff.1 hlen.symm
    exact .refl _
  | succ n ih =>
    obtain ⟨v, vs, rfl⟩ := List.exists_cons_of_length_eq_add_one hn
    obtain ⟨v', vs', rfl⟩ := List.exists_cons_of_length_eq_add_one (hlen.symm.trans hn)
    have hvs : vs.length = n := Nat.succ_injective hn
    have hlen' : vs.length = vs'.length := Nat.succ_injective hlen
    rcases vs with _ | ⟨w, ws⟩
    · obtain rfl := List.length_eq_zero_iff.1 hlen'.symm
      rw [pieces_singleton_inj h]
      exact .refl _
    rcases vs' with _ | ⟨w', ws'⟩
    · cases hlen'
    -- cut both down to their first pieces, which are equal, and go on behind them
    obtain ⟨p, u, hp, hshift⟩ := exists_shift_first sep v w ws
    obtain ⟨p', u', hp', hshift'⟩ := exists_shift_first sep v' w' ws'
    have hcut : pieces sep (p :: u :: ws) = pieces sep (p' :: u' :: ws') :=
      (pieces_of_shifts hshift).symm.trans (h.trans (pieces_of_shifts hshift'))
    rw [pieces_cons_of_notMem hp, pieces_cons_of_notMem hp', List.cons.injEq, String.toList_inj] at hcut
    obtain ⟨rfl, htail⟩ := hcut
    have hrest : Relation.EqvGen (Shift sep) (u :: ws) (u' :: ws') := ih hlen' htail hvs
    exact .trans _ _ _ hshift (.trans _ _ _ (shifts_later p hrest) (.symm _ _ hshift'))

end SparkDev.Sql
