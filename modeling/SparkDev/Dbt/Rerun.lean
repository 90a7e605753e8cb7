import SparkDev.Dbt.Uniqueness

/-!
# Running an incremental build again

The second of two equal runs reads its watermark from what the first one wrote. When the
first replaces the latest row by a version with an earlier event time, the watermark
moves back, and the second run selects rows the first one did not.

* `maxOf_built`: where the watermark stands after a run.
* `rerun_noop_iff`: the second run changes nothing exactly when every visible row past
  that mark has an id and was selected by the first run or is in the table already.
* `correction_moves_watermark_back`: a corrected event time makes it add a row.
-/

namespace SparkDev.Dbt

open Sql Runs

/-- `max(ordered_at)` after an incremental build, over the rows it selects and those of the
table that none of them replaces. -/
def maxAfter (b : Build) (t : List Order) : Option ℤ :=
  maxOf ((newRows b t ++ t.filter fun r =>
    !(newRows b t).any fun o => keyEq r.orderId o.orderId).map Order.orderedAt)

/-- Every visible row past the mark the build leaves has an id, and the build selects it or the
table has it. -/
def Settled (b : Build) (t : List Order) : Prop :=
  ∀ o ∈ b.stg, (∃ x ∈ o.orderedAt, ∃ m ∈ maxAfter b t, m - b.lookbackHours * hour < x) →
    o.orderId ≠ none ∧ (o ∈ newRows b t ∨ o ∈ t)

instance (b : Build) (t : List Order) : Decidable (Settled b t) :=
  inferInstanceAs (Decidable (∀ o ∈ b.stg,
    (∃ x ∈ o.orderedAt, ∃ m ∈ maxAfter b t, m - b.lookbackHours * hour < x) →
      o.orderId ≠ none ∧ (o ∈ newRows b t ∨ o ∈ t)))

variable {b : Build} {t t' t'' : List Order} {o : Order}

/-- What the table has after an incremental build. -/
theorem mem_built (hinc : b.fullRefresh = false) (hstg : UniqueKey Order.orderId b.stg)
    (h : fctOrders b (some t) = some t') :
    o ∈ t' ↔ o ∈ newRows b t ∨ (o ∈ t ∧ ∀ s ∈ newRows b t, keyEq o.orderId s.orderId = false) := by
  rw [fctOrders_incremental hinc] at h
  exact upsertAll_mem (newRows_unique hstg t) h

/-- A visible row the table had is there still: a selected row with its id is the row itself. -/
theorem mem_built_of_stg (hinc : b.fullRefresh = false) (hstg : UniqueKey Order.orderId b.stg)
    (h : fctOrders b (some t) = some t') (ho : o ∈ b.stg) :
    o ∈ t' ↔ o ∈ newRows b t ∨ o ∈ t := by
  rw [fctOrders_incremental hinc] at h
  exact upsertAll_mem_of_unique hstg (newRows_unique hstg t) (fun s hs => (mem_newRows.1 hs).1) ho h

/-- **Where the watermark stands after a run.** -/
theorem maxOf_built (hinc : b.fullRefresh = false) (hstg : UniqueKey Order.orderId b.stg)
    (h : fctOrders b (some t) = some t') : maxOf (t'.map Order.orderedAt) = maxAfter b t := by
  refine maxOf_congr fun x => ?_
  have hmem : ∀ r, r ∈ t' ↔ r ∈ newRows b t ++ t.filter fun r =>
      !(newRows b t).any fun o => keyEq r.orderId o.orderId := by
    intro r
    rw [mem_built hinc hstg h, List.mem_append, List.mem_filter, Bool.not_eq_true', List.any_eq_false]
    simp only [Bool.not_eq_true]
  simp only [List.mem_map, hmem]

/-- The second run changes nothing exactly when what it selects has an id and is there. -/
theorem rerun_perm_iff (ht : UniqueKey Order.orderId t) (hinc : b.fullRefresh = false)
    (hstg : UniqueKey Order.orderId b.stg) (h : fctOrders b (some t) = some t')
    (h' : fctOrders b (some t') = some t'') :
    t''.Perm t' ↔ ∀ o ∈ newRows b t', o.orderId ≠ none ∧ o ∈ t' := by
  have ht' : UniqueKey Order.orderId t' := by
    rw [fctOrders_incremental hinc] at h
    exact MergeClauses.merge_unique (m := upsertAll Order.orderId) ht (newRows_unique hstg t) h
  rw [fctOrders_incremental hinc] at h'
  exact upsertAll_self_iff ht' (newRows_unique hstg t') h'

/-- **When a re-run is a no-op.** For every table that runs over any contents of `stg_orders`
can leave, and every incremental build on it: both runs succeed, and the second leaves the table
as it is exactly when the visible rows past the mark that the first run leaves have an id and
were selected by it or in the table before. -/
theorem rerun_noop_iff (hreach : Reach RanUnique none (some t)) (hinc : b.fullRefresh = false)
    (hstg : UniqueKey Order.orderId b.stg) :
    ∃ t' t'', fctOrders b (some t) = some t' ∧ fctOrders b (some t') = some t'' ∧
      (t''.Perm t' ↔ Settled b t) := by
  have ht : UniqueKey Order.orderId t := reach_unique hreach t rfl
  obtain ⟨t', h⟩ := MergeClauses.merge_isSome (m := upsertAll Order.orderId) (newRows_unique hstg t) t
  obtain ⟨t'', h'⟩ := MergeClauses.merge_isSome (m := upsertAll Order.orderId) (newRows_unique hstg t') t'
  rw [← fctOrders_incremental hinc] at h h'
  refine ⟨t', t'', h, h', ?_⟩
  rw [rerun_perm_iff ht hinc hstg h h']
  unfold Settled
  rw [← maxOf_built hinc hstg h]
  -- the second run selects the visible rows past the mark
  constructor
  · intro hall o ho hpast
    obtain ⟨hid, hmem⟩ := hall o (mem_newRows.2 ⟨ho, hpast⟩)
    exact ⟨hid, (mem_built_of_stg hinc hstg h ho).1 hmem⟩
  · intro hall o ho
    obtain ⟨hvis, hpast⟩ := mem_newRows.1 ho
    obtain ⟨hid, hmem⟩ := hall o hvis hpast
    exact ⟨hid, (mem_built_of_stg hinc hstg h hvis).2 hmem⟩

/-- The full build of the seed leaves a table. -/
theorem reach_labFull : Reach RanUnique none (some (fullRefresh labFull)) :=
  reach_step ⟨by decide +kernel, .built (fctOrders_full (by decide))⟩

theorem rerun_noop_iff_lab :
    ∃ t' t'', fctOrders labLookback (some (fullRefresh labFull)) = some t' ∧
      fctOrders labLookback (some t') = some t'' ∧ t''.Perm t' := by
  obtain ⟨t', t'', h, h', hiff⟩ :=
    rerun_noop_iff (b := labLookback) reach_labFull (by decide) (by decide +kernel)
  have hsettled : Settled labLookback (fullRefresh labFull) := by decide +kernel
  exact ⟨t', t'', h, h', hiff.2 hsettled⟩

/-- The one order, at hour 100. -/
def placed : Build where
  fullRefresh := true
  orders := [⟨some 1, none, none, none, some (100 * hour), some 0⟩]

/-- Its event time is corrected to hour 70, and an order of hour 50 has landed. -/
def corrected : Build where
  lookbackHours := 40
  orders := [⟨some 1, none, none, none, some (70 * hour), some 0⟩,
    ⟨some 3, none, none, none, some (50 * hour), some 0⟩]

/-- **A correction moves the watermark back**, and the second run adds the order of hour 50. -/
theorem correction_moves_watermark_back :
    Reach RanUnique none (some placed.stg) ∧ UniqueKey Order.orderId corrected.stg ∧
    ¬∃ t' t'', fctOrders corrected (some placed.stg) = some t' ∧
      fctOrders corrected (some t') = some t'' ∧ t''.Perm t' := by
  refine ⟨reach_step ⟨by decide +kernel, .built rfl⟩, by decide +kernel, ?_⟩
  rintro ⟨t', t'', h, h', hperm⟩
  have hfirst : fctOrders corrected (some placed.stg) = some [corrected.orders[0]] := by decide +kernel
  cases h.symm.trans hfirst
  have hsecond : fctOrders corrected (some [corrected.orders[0]]) = some corrected.orders := by
    decide +kernel
  cases h'.symm.trans hsecond
  exact absurd hperm.length_eq (by decide)

end SparkDev.Dbt
