import SparkDev.Dbt.Orders

/-!
# The append-only fact with an evolving column

`fct_orders_evolving` appends the orders whose id is past `max(order_id)` of the table.
There is no key to match on: what keeps an id from being appended twice is that the
maximum is read from the table itself. `sync_all_columns` adds and drops the `tax`
column between runs.

* `evolving_unique`: no id occurs twice, however the load time and the column change.
* `evolving_visible`: when orders become visible in the order of their ids, every run
  leaves the visible ones.
* `evolving_exact`: the two together.
-/

namespace SparkDev.Dbt

open Sql

/-- A row of `fct_orders_evolving`; `tax` is null where the table has no such column. -/
structure EvolvingRow where
  orderId : Option ℤ
  amount : Option ℚ
  status : Option String
  tax : Option ℚ
  deriving DecidableEq, Repr

/-- The table, with or without the `tax` column. -/
structure EvolvingTable where
  hasTax : Bool
  rows : List EvolvingRow
  noTax : hasTax = false → ∀ r ∈ rows, r.tax = none

/-- One `dbt run -s stg_orders fct_orders_evolving`. -/
structure EvolvingRun where
  fullRefresh : Bool := false
  loadThrough : ℤ := 4070908800000000
  addTax : Bool := false
  deriving DecidableEq

/-- `round(x, 2)`, half away from zero. -/
def round2 (x : ℚ) : ℚ :=
  if 0 ≤ x then ((x * 100 + 1 / 2).floor : ℚ) / 100 else -(((-x) * 100 + 1 / 2).floor : ℚ) / 100

/-- The `SELECT` list. -/
def selectEvolving (addTax : Bool) (o : Order) : EvolvingRow where
  orderId := o.orderId
  amount := o.amount
  status := o.status
  tax := if addTax then o.amount.map fun amount => round2 (amount * (8 / 100)) else none

/-- `sync_all_columns`: a column that is added is null in the rows there are, one that the
`SELECT` no longer has is dropped. -/
def syncAllColumns (addTax : Bool) (r : EvolvingRow) : EvolvingRow :=
  if addTax then r else { r with tax := none }

/-- The rows that are kept, with the columns of the `SELECT`, and the selected orders. -/
def EvolvingTable.write (addTax : Bool) (kept : List EvolvingRow) (selected : List Order) :
    EvolvingTable where
  hasTax := addTax
  rows := kept.map (syncAllColumns addTax) ++ selected.map (selectEvolving addTax)
  noTax := by
    rintro rfl r hr
    rcases List.mem_append.1 hr with hr | hr
    · obtain ⟨r, -, rfl⟩ := List.mem_map.1 hr
      rfl
    · obtain ⟨o, -, rfl⟩ := List.mem_map.1 hr
      rfl

/-- The orders an incremental run appends. -/
def pastMax (t : EvolvingTable) (stg : List Order) : List Order :=
  stg.filter fun o =>
    (compare (fun a b => decide (b < a)) o.orderId (maxOf (t.rows.map EvolvingRow.orderId))).holds

/-- One run of `fct_orders_evolving` on the table it finds. -/
def fctOrdersEvolving (orders : List Order) (this : Option EvolvingTable) (run : EvolvingRun) :
    EvolvingTable :=
  let stg := stgOrders run.loadThrough orders
  match this with
  | some t =>
    if run.fullRefresh then .write run.addTax [] stg else .write run.addTax t.rows (pastMax t stg)
  | none => .write run.addTax [] stg

/-- The table after some runs. -/
def evolveAll (orders : List Order) : Option EvolvingTable → List EvolvingRun → Option EvolvingTable :=
  List.foldl fun this run => some (fctOrdersEvolving orders this run)

variable {orders stg kept : List Order} {t : EvolvingTable} {this : Option EvolvingTable} {o : Order}
  {run run' : EvolvingRun} {runs : List EvolvingRun} {addTax : Bool}

theorem syncAllColumns_orderId (addTax : Bool) (r : EvolvingRow) :
    (syncAllColumns addTax r).orderId = r.orderId := by
  unfold syncAllColumns
  split <;> rfl

theorem mem_pastMax : o ∈ pastMax t stg ↔ o ∈ stg ∧ ∃ k ∈ o.orderId,
    ∃ m ∈ maxOf (t.rows.map EvolvingRow.orderId), m < k := by
  unfold pastMax
  rw [List.mem_filter, Truth.holds_iff, compare_eq_tt]
  simp

/-! ## Ids are unique -/

theorem write_nil_unique (hstg : UniqueKey Order.orderId stg) :
    UniqueKey EvolvingRow.orderId (EvolvingTable.write addTax [] stg).rows :=
  hstg.map fun _ => rfl

/-- What is appended is past every id of the table. -/
theorem write_unique (ht : UniqueKey EvolvingRow.orderId t.rows) (hstg : UniqueKey Order.orderId stg) :
    UniqueKey EvolvingRow.orderId (EvolvingTable.write addTax t.rows (pastMax t stg)).rows := by
  have hnew : UniqueKey Order.orderId (pastMax t stg) := hstg.filter _
  refine (ht.map (syncAllColumns_orderId addTax)).append (hnew.map fun _ => rfl) ?_
  rintro r hr s hs k hrk hsk
  obtain ⟨r, hmem, rfl⟩ := List.mem_map.1 hr
  obtain ⟨o, ho, rfl⟩ := List.mem_map.1 hs
  rw [syncAllColumns_orderId] at hrk
  obtain ⟨-, k', hk', m, hm, hlt⟩ := mem_pastMax.1 ho
  cases hsk.symm.trans hk'
  -- the maximum is at least the id of the table's row, which is that of the new one
  have hle : k ≤ m := (maxOf_eq_some.1 hm).2 k (List.mem_map.2 ⟨r, hmem, hrk⟩)
  omega

/-- The ids of the table, when there is one, are unique. -/
def IdsUnique (this : Option EvolvingTable) : Prop := ∀ t ∈ this, UniqueKey EvolvingRow.orderId t.rows

theorem fctOrdersEvolving_unique (hset : UniqueKey Order.orderId orders) (hthis : IdsUnique this) :
    IdsUnique (some (fctOrdersEvolving orders this run)) := by
  have hstg : UniqueKey Order.orderId (stgOrders run.loadThrough orders) := hset.filter _
  rintro t ⟨⟩
  rcases this with _ | t
  · exact write_nil_unique hstg
  · simp only [fctOrdersEvolving]
    split
    · exact write_nil_unique hstg
    · exact write_unique (hthis t rfl) hstg

/-- **No id occurs twice**, after any sequence of runs. -/
theorem evolving_unique (hset : UniqueKey Order.orderId orders) : ∀ (runs : List EvolvingRun)
    (this : Option EvolvingTable), IdsUnique this → IdsUnique (evolveAll orders this runs) := by
  intro runs
  induction runs with
  | nil => intro this hthis; exact hthis
  | cons run runs ih => intro this hthis; exact ih _ (fctOrdersEvolving_unique hset hthis)

/-! ## Nothing is lost in the order of the ids -/

/-- The columns the table has in every run. -/
def EvolvingRow.cols (r : EvolvingRow) : Option ℤ × Option ℚ × Option String :=
  (r.orderId, r.amount, r.status)

/-- The same columns of an order. -/
def Order.cols (o : Order) : Option ℤ × Option ℚ × Option String := (o.orderId, o.amount, o.status)

/-- The table holds these orders, as far as its constant columns go. -/
def Shows (t : EvolvingTable) (stg : List Order) : Prop :=
  (t.rows.map EvolvingRow.cols).Perm (stg.map Order.cols)

/-- `run'` comes after `run`: no less is loaded, and every order it sees that `run` did not
has an id past those that `run` saw. -/
structure InKeyOrder (orders : List Order) (run run' : EvolvingRun) : Prop where
  loadThrough_le : run.loadThrough ≤ run'.loadThrough
  newer : ∀ o ∈ stgOrders run'.loadThrough orders, o ∉ stgOrders run.loadThrough orders →
    ∀ k ∈ o.orderId, ∀ r ∈ stgOrders run.loadThrough orders, ∀ l ∈ r.orderId, l < k

instance (orders : List Order) (run run' : EvolvingRun) : Decidable (InKeyOrder orders run run') :=
  decidable_of_iff (run.loadThrough ≤ run'.loadThrough ∧
      ∀ o ∈ stgOrders run'.loadThrough orders, o ∉ stgOrders run.loadThrough orders →
        ∀ k ∈ o.orderId, ∀ r ∈ stgOrders run.loadThrough orders, ∀ l ∈ r.orderId, l < k)
    ⟨fun ⟨h₁, h₂⟩ => ⟨h₁, h₂⟩, fun h => ⟨h.1, h.2⟩⟩

theorem syncAllColumns_cols (addTax : Bool) (r : EvolvingRow) :
    (syncAllColumns addTax r).cols = r.cols := by
  unfold syncAllColumns
  split <;> rfl

theorem write_cols (addTax : Bool) (kept : List EvolvingRow) (selected : List Order) :
    (EvolvingTable.write addTax kept selected).rows.map EvolvingRow.cols =
      kept.map EvolvingRow.cols ++ selected.map Order.cols := by
  unfold EvolvingTable.write
  rw [List.map_append, List.map_map, List.map_map]
  congr 1
  exact List.map_congr_left fun r _ => syncAllColumns_cols addTax r

/-- The ids of the table are those of the orders it shows. -/
theorem Shows.maxOf_eq (h : Shows t stg) :
    maxOf (t.rows.map EvolvingRow.orderId) = maxOf (stg.map Order.orderId) := by
  have hids := h.map Prod.fst
  rw [List.map_map, List.map_map] at hids
  exact maxOf_congr fun x => hids.mem_iff

theorem InKeyOrder.subset (h : InKeyOrder orders run run') (ho : o ∈ stgOrders run.loadThrough orders) :
    o ∈ stgOrders run'.loadThrough orders := by
  obtain ⟨hm, l, hl, hle⟩ := mem_stgOrders.1 ho
  exact mem_stgOrders.2 ⟨hm, l, hl, hle.trans h.loadThrough_le⟩

/-- What an incremental run appends is what became visible. -/
theorem mem_pastMax_iff (hid : ∀ o ∈ orders, o.orderId ≠ none) (hin : InKeyOrder orders run run')
    (hne : stgOrders run.loadThrough orders ≠ []) (ht : Shows t (stgOrders run.loadThrough orders))
    (ho : o ∈ stgOrders run'.loadThrough orders) :
    o ∈ pastMax t (stgOrders run'.loadThrough orders) ↔ o ∉ stgOrders run.loadThrough orders := by
  obtain ⟨k, hk⟩ := Option.ne_none_iff_exists'.1 (hid o (mem_stgOrders.1 ho).1)
  rw [mem_pastMax, ht.maxOf_eq]
  constructor
  · rintro ⟨-, k', hk', m, hm, hlt⟩ hold
    cases hk.symm.trans hk'
    have hle : k ≤ m := (maxOf_eq_some.1 hm).2 k (List.mem_map.2 ⟨o, hold, hk⟩)
    omega
  · intro hnew
    obtain ⟨r, hr⟩ := List.exists_mem_of_ne_nil _ hne
    obtain ⟨l, hl⟩ := Option.ne_none_iff_exists'.1 (hid r (mem_stgOrders.1 hr).1)
    have hids : some l ∈ (stgOrders run.loadThrough orders).map Order.orderId :=
      List.mem_map.2 ⟨r, hr, hl⟩
    obtain ⟨m, hm⟩ := exists_maxOf hids
    obtain ⟨s, hs, hsm⟩ := List.mem_map.1 (maxOf_eq_some.1 hm).1
    exact ⟨ho, k, hk, m, hm, hin.newer o ho hnew k hk s hs m hsm⟩

/-- **One run.** From a table that shows what the run before saw, the run leaves one that shows
what it sees itself. -/
theorem fctOrdersEvolving_shows (hset : UniqueKey Order.orderId orders)
    (hid : ∀ o ∈ orders, o.orderId ≠ none) (hin : InKeyOrder orders run run')
    (hne : stgOrders run.loadThrough orders ≠ []) (ht : Shows t (stgOrders run.loadThrough orders)) :
    Shows (fctOrdersEvolving orders (some t) run') (stgOrders run'.loadThrough orders) := by
  have hnodup : orders.Nodup := hset.nodup hid
  simp only [fctOrdersEvolving]
  split
  · unfold Shows
    rw [write_cols]
    exact List.Perm.refl _
  · -- the visible orders are those visible before and those appended
    let stg := stgOrders run.loadThrough orders
    let stg' := stgOrders run'.loadThrough orders
    -- an order is past the maximum exactly when it was not visible before
    have hsplit : (stg ++ pastMax t stg').Perm stg' := by
      refine (List.perm_ext_iff_of_nodup ?_ (hnodup.filter _)).2 fun o => ?_
      · refine List.Nodup.append (hnodup.filter _) ((hnodup.filter _).filter _) fun o hold hnew => ?_
        exact (mem_pastMax_iff hid hin hne ht (hin.subset hold)).1 hnew hold
      · rw [List.mem_append]
        constructor
        · rintro (hold | hnew)
          · exact hin.subset hold
          · exact (mem_pastMax.1 hnew).1
        · intro ho
          by_cases hold : o ∈ stg
          · exact Or.inl hold
          · exact Or.inr ((mem_pastMax_iff hid hin hne ht ho).2 hold)
    unfold Shows
    rw [write_cols]
    refine (List.Perm.append_right _ ht).trans ?_
    rw [← List.map_append]
    exact hsplit.map Order.cols

/-- **Nothing is lost**, by induction on the runs: the table shows what the last run saw, which
is never nothing. -/
theorem evolving_visible (hset : UniqueKey Order.orderId orders) (hid : ∀ o ∈ orders, o.orderId ≠ none) :
    ∀ (runs : List EvolvingRun) (run : EvolvingRun) (t : EvolvingTable),
      stgOrders run.loadThrough orders ≠ [] → (run :: runs).IsChain (InKeyOrder orders) →
      Shows t (stgOrders run.loadThrough orders) →
      ∃ t', evolveAll orders (some t) runs = some t' ∧
        Shows t' (stgOrders (runs.getLast?.getD run).loadThrough orders) := by
  intro runs
  induction runs with
  | nil => intro run t _ _ ht; exact ⟨t, rfl, ht⟩
  | cons run' runs ih =>
    intro run t hne hchain ht
    rw [List.isChain_cons_cons] at hchain
    have hstep := fctOrdersEvolving_shows hset hid hchain.1 hne ht
    have hne' : stgOrders run'.loadThrough orders ≠ [] := by
      obtain ⟨o, ho⟩ := List.exists_mem_of_ne_nil _ hne
      exact List.ne_nil_of_mem (hchain.1.subset ho)
    obtain ⟨t', hrun, ht'⟩ := ih run' _ hne' hchain.2 hstep
    refine ⟨t', hrun, ?_⟩
    rw [List.getLast?_cons, Option.getD_some]
    exact ht'

/-- **The append-only fact never duplicates, and loses nothing in the order of the keys.** Over
orders with an id of their own: after every sequence of full and incremental runs, whatever their
load times and whether they add the column, no id occurs twice; and when the first build sees an
order, load times do not decrease and newly visible ids exceed those visible before, then after
every run the table shows exactly the orders that run sees. -/
theorem evolving_exact (hset : UniqueKey Order.orderId orders) (hid : ∀ o ∈ orders, o.orderId ≠ none) :
    (∀ runs, IdsUnique (evolveAll orders none runs)) ∧
    ∀ run runs, stgOrders run.loadThrough orders ≠ [] → (run :: runs).IsChain (InKeyOrder orders) →
      ∀ p, p <+: runs → ∃ t, evolveAll orders none (run :: p) = some t ∧
        Shows t (stgOrders (p.getLast?.getD run).loadThrough orders) := by
  constructor
  · intro runs
    have hnone : IdsUnique none := by rintro t ⟨⟩
    exact evolving_unique hset runs none hnone
  · intro run runs hne hchain p hp
    have hpre : run :: p <+: run :: runs := List.cons_prefix_cons.2 ⟨rfl, hp⟩
    have hfirst : Shows (fctOrdersEvolving orders none run) (stgOrders run.loadThrough orders) := by
      unfold Shows fctOrdersEvolving
      rw [write_cols]
      exact List.Perm.refl _
    have hchain' : (run :: p).IsChain (InKeyOrder orders) := List.IsChain.prefix hchain hpre
    exact evolving_visible hset hid p run _ hne hchain' hfirst

/-- Three runs over the seed, the second with the new column and the third without. -/
def labEvolving : List EvolvingRun :=
  [{ loadThrough := march3 + 24 * hour }, { loadThrough := march3 + 33 * hour, addTax := true },
    { loadThrough := march3 + 48 * hour }]

theorem evolving_exact_lab :
    IdsUnique (evolveAll seedOrders none labEvolving) ∧
    ∃ t, evolveAll seedOrders none labEvolving = some t ∧
      Shows t (stgOrders (march3 + 48 * hour) seedOrders) := by
  have hset : UniqueKey Order.orderId seedOrders := by decide +kernel
  have hexact := evolving_exact hset (by simp [seedOrders])
  exact ⟨hexact.1 labEvolving,
    hexact.2 _ _ (by decide +kernel) (by decide +kernel) labEvolving.tail (List.prefix_refl _)⟩

end SparkDev.Dbt
