import SparkDev.Dbt.Orders
import SparkDev.Runs.Chain

/-!
# One row for each order

A run of `fct_orders` builds the table or, when its `MERGE` fails, leaves it alone. The
`MERGE` looks at `unique_key` to match the rows it selects with those of the table; it
does not compare the selected rows with each other, and a full build compares nothing.

* `ran_unique_iff`: what keeps `order_id` unique in one run.
* `order_id_unique_iff`: it stays unique along a run of builds exactly when every run
  that does not fail inserts rows with distinct ids.
* `two_versions_twice`: a full build over two visible versions of an order.
-/

namespace SparkDev.Dbt

open Sql Runs

/-- The table before and after one run. -/
inductive Ran : Option (List Order) → Build → Option (List Order) → Prop where
  | built {this : Option (List Order)} {b : Build} {t : List Order} (h : fctOrders b this = some t) :
      Ran this b (some t)
  | failed {this : Option (List Order)} {b : Build} (h : fctOrders b this = none) : Ran this b this

/-- No `order_id` occurs twice in the table, when there is one. -/
def OrderIdUnique (this : Option (List Order)) : Prop := ∀ t ∈ this, UniqueKey Order.orderId t

/-- No row of the table matches several of the rows an incremental build selects. -/
def Accepts (b : Build) (this : Option (List Order)) : Prop :=
  isIncremental b this = true →
    ∀ t ∈ this, ∀ r ∈ t, ¬1 < (newRows b t).countP fun o => keyEq r.orderId o.orderId

/-- The rows a build inserts: all that are visible, or the selected rows whose id the table
does not have. -/
def insertedRows (b : Build) : Option (List Order) → List Order
  | none => b.stg
  | some t =>
    if b.fullRefresh then b.stg
    else (newRows b t).filter fun o => !t.any fun r => keyEq r.orderId o.orderId

variable {b : Build} {this this' : Option (List Order)} {t t' : List Order}

theorem orderIdUnique_none : OrderIdUnique none := by
  rintro t ⟨⟩

theorem fctOrders_isSome_iff : (∃ t', fctOrders b this = some t') ↔ Accepts b this := by
  unfold Accepts
  rcases this with _ | t
  · simp [fctOrders, isIncremental]
  rcases hf : b.fullRefresh
  · rw [fctOrders_incremental hf]
    have hon : ∀ r : Order, ((upsertAll Order.orderId).on r) = fun o => keyEq r.orderId o.orderId :=
      fun _ => rfl
    simp [MergeClauses.merge, isIncremental, hf, hon]
  · simp [fctOrders, isIncremental, hf]

/-- **What one run needs.** On a table with unique ids, a run that does not fail keeps them
unique exactly when the rows it inserts have distinct ids. -/
theorem built_unique_iff (hthis : OrderIdUnique this) (h : fctOrders b this = some t') :
    UniqueKey Order.orderId t' ↔ UniqueKey Order.orderId (insertedRows b this) := by
  rcases this with _ | t
  · cases h
    rfl
  rcases hf : b.fullRefresh
  · rw [fctOrders_incremental hf] at h
    have hmerge := MergeClauses.merge_unique_iff (m := upsertAll Order.orderId) (hthis t rfl) h
    have hins : insertedRows b (some t) =
        (newRows b t).filter fun o => !t.any fun r => keyEq r.orderId o.orderId := by
      simp [insertedRows, hf]
    rw [upsertAll_insert] at hmerge
    rw [hins]
    exact hmerge
  · simp only [fctOrders, insertedRows, hf, if_true, Option.some.injEq] at h ⊢
    rw [h]

theorem ran_unique_iff (hthis : OrderIdUnique this) (h : Ran this b this') :
    OrderIdUnique this' ↔ (Accepts b this → UniqueKey Order.orderId (insertedRows b this)) := by
  rcases h with h | h
  · rw [← built_unique_iff hthis h]
    have hok : Accepts b this := fctOrders_isSome_iff.1 ⟨_, h⟩
    constructor
    · intro hu _
      exact hu _ rfl
    · rintro hu _ ⟨⟩
      exact hu hok
  · -- a run that fails leaves the table as it was
    refine iff_of_true hthis fun hok => ?_
    obtain ⟨t, ht⟩ := fctOrders_isSome_iff.2 hok
    rw [h] at ht
    cases ht

theorem insertedRows_sublist (b : Build) (this : Option (List Order)) :
    (insertedRows b this).Sublist b.stg := by
  rcases this with _ | t
  · exact List.Sublist.refl _
  simp only [insertedRows]
  split
  · exact List.Sublist.refl _
  · exact List.filter_sublist.trans List.filter_sublist

/-- A run over a `stg_orders` with unique ids. -/
def RanUnique (this : Option (List Order)) (b : Build) (this' : Option (List Order)) : Prop :=
  UniqueKey Order.orderId b.stg ∧ Ran this b this'

theorem ranUnique_step (hthis : OrderIdUnique this) (h : RanUnique this b this') :
    OrderIdUnique this' := by
  rw [ran_unique_iff hthis h.2]
  intro _
  exact List.Nodup.sublist ((insertedRows_sublist b this).filterMap _) h.1

/-- **Every table built from unique orders has unique ids.** -/
theorem reach_unique (h : Reach RanUnique none this) : OrderIdUnique this :=
  reach_invariant (I := OrderIdUnique) (fun _ _ _ hs hst => ranUnique_step hs hst)
    orderIdUnique_none h

/-- **When `order_id` stays unique.** Along every sequence of full and incremental runs, over
any contents of `stg_orders`, no id occurs twice after any of them exactly when each of them that
does not fail inserts rows whose ids are distinct. -/
theorem order_id_unique_iff {tr : List (Build × Option (List Order))} (h : Chain Ran none tr) :
    Chain (fun _ _ this' => OrderIdUnique this') none tr ↔
      Chain (fun this b _ => Accepts b this → UniqueKey Order.orderId (insertedRows b this)) none tr :=
  chain_iff (I := OrderIdUnique) (fun _ _ _ hs hst => ran_unique_iff hs hst)
    (fun _ _ _ _ _ hu => hu) tr none orderIdUnique_none h

/-- The build that recaptures the late order. -/
def labLookback : Build := { loadThrough := march3 + 48 * hour, lookbackHours := 48, orders := seedOrders }

/-- The full build of the seed, then that one. -/
def labRuns : List (Build × Option (List Order)) :=
  [(labFull, some [seedOrders[0]]),
   (labLookback, some [seedOrders[0], seedOrders[1], seedOrders[2]])]

/-- The orders of the seed that load on time. -/
def onTime : List Order := [seedOrders[0], seedOrders[2]]

theorem labRuns_chain : Chain Ran none labRuns :=
  ⟨.built (by decide +kernel), .built (by decide +kernel), trivial⟩

theorem order_id_unique_iff_lab : Chain (fun _ _ this' => OrderIdUnique this') none labRuns :=
  (order_id_unique_iff labRuns_chain).2 ⟨fun _ => by decide +kernel, fun _ => by decide +kernel, trivial⟩

/-- An order that was placed, and the row its status correction landed as. -/
def twoVersions : List Order :=
  [⟨some 1, some "C001", some 20, some "pending", some 0, some 0⟩,
   ⟨some 1, some "C001", some 20, some "completed", some 0, some hour⟩]

/-- One full build over both of them. -/
def twoVersionsRun : List (Build × Option (List Order)) :=
  [({ fullRefresh := true, orders := twoVersions }, some twoVersions)]

/-- **A full build takes both versions.** -/
theorem two_versions_twice :
    Chain Ran none twoVersionsRun ∧ ¬Chain (fun _ _ this' => OrderIdUnique this') none twoVersionsRun := by
  refine ⟨⟨.built (by decide +kernel), trivial⟩, ?_⟩
  rintro ⟨h, -⟩
  exact absurd (h twoVersions rfl) (by decide)

end SparkDev.Dbt
