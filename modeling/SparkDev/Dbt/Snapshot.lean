import SparkDev.Dbt.Customers
import SparkDev.Sql.Versions

/-!
# `customers_snapshot`

The snapshot keeps the versions of `snap_customers_src` by `customer_id`, with
`strategy='check'` on `membership_tier`. Its source is `stg_customers` with the tier of `C001`
flipped by the var `promote_c001`.

`snapshot_asOf`: whatever `dbt snapshot` does as long as it follows that strategy, after any runs,
with any vars and any staging rows, the query for a point in time gives each customer one row, with
the tier that the last run up to then had seen.
-/

namespace SparkDev.Dbt

open Sql

/-- A row of `snap_customers_src`. -/
structure SnapCustomer where
  customerId : Option String
  fullName : Option String
  membershipTier : Option String
  deriving DecidableEq, Repr

/-- `snap_customers_src`, with the var `promote_c001`. -/
def snapCustomersSrc (promoteC001 : String) (stg : List StgCustomersRow) : List SnapCustomer :=
  stg.map fun c =>
    { customerId := c.customerId
      fullName := c.fullName
      membershipTier :=
        if ((Sql.eq c.customerId (some "C001")).and (Sql.eq (some promoteC001) (some "yes"))).holds then
          some "platinum"
        else c.membershipTier }

/-- One `dbt snapshot`: its time, the var, and what `stg_customers` has. -/
structure SnapshotRun where
  now : ℤ
  promoteC001 : String
  stg : List StgCustomersRow

/-- The source of a run. -/
def SnapshotRun.source (r : SnapshotRun) : ℤ × List SnapCustomer := (r.now, snapCustomersSrc r.promoteC001 r.stg)

/-- `unique_key='customer_id'`, `strategy='check'`, `check_cols=['membership_tier']`. -/
abbrev CustomersStrategy (snapshot : ℤ → List SnapCustomer → List (Version SnapCustomer ℤ) →
    List (Version SnapCustomer ℤ)) : Prop :=
  CheckStrategy SnapCustomer.customerId SnapCustomer.membershipTier snapshot

/-- The table after some runs, oldest first, given what `dbt snapshot` does. -/
def customersSnapshot (snapshot : ℤ → List SnapCustomer → List (Version SnapCustomer ℤ) →
    List (Version SnapCustomer ℤ)) (runs : List SnapshotRun) : List (Version SnapCustomer ℤ) :=
  snapshotRuns snapshot (runs.map SnapshotRun.source)

/-- The open versions of a customer, as the query `dbt_valid_to is null` has them. -/
def currentRows (T : List (Version SnapCustomer ℤ)) (k : String) : List SnapCustomer :=
  (current (versionsOf SnapCustomer.customerId T k)).map Version.row

/-- The row of a customer in the last of the runs that had the customer. -/
def lastSeen (runs : List SnapshotRun) (k : String) : Option SnapCustomer :=
  (runs.filterMap fun r => lookup SnapCustomer.customerId (snapCustomersSrc r.promoteC001 r.stg) k).getLast?

variable {runs pre post : List SnapshotRun} {t : ℤ}

/-- The source has the ids of staging. -/
theorem snapCustomersSrc_unique {promote : String} {stg : List StgCustomersRow}
    (h : UniqueKey StgCustomersRow.customerId stg) :
    UniqueKey SnapCustomer.customerId (snapCustomersSrc promote stg) := h.map fun _ => rfl

/-- The known row of a customer has the tier of the last run that had the customer. -/
theorem tier_known (runs : List SnapshotRun) (k : String) :
    (knownRow SnapCustomer.customerId SnapCustomer.membershipTier (runs.map SnapshotRun.source) k).map
        SnapCustomer.membershipTier = (lastSeen runs k).map SnapCustomer.membershipTier := by
  rw [tracked_knownRow, List.filterMap_map]
  rfl

/-- **Point in time.** Whatever `dbt snapshot` does as long as it follows the check strategy: after any
runs at increasing times, with any vars, over staging tables with unique ids, among the rows valid at a
time `t` no customer occurs twice, a customer is there exactly when a run up to `t` had seen it, with
the tier that the last such run had seen, and after the last run the versions of a customer with no
`dbt_valid_to` are those that are valid. A customer that left the source stays. -/
theorem snapshot_asOf (snapshot : ℤ → List SnapCustomer → List (Version SnapCustomer ℤ) →
    List (Version SnapCustomer ℤ)) (hc : CustomersStrategy snapshot) (pre post : List SnapshotRun) (t : ℤ)
    (hunique : ∀ r ∈ pre ++ post, UniqueKey StgCustomersRow.customerId r.stg)
    (htimes : ((pre ++ post).map SnapshotRun.now).Pairwise (· < ·)) (hpre : ∀ r ∈ pre, r.now ≤ t)
    (hpost : ∀ r ∈ post, t < r.now) :
    UniqueKey SnapCustomer.customerId (asOf t (customersSnapshot snapshot (pre ++ post))) ∧
      (∀ k, (lookup SnapCustomer.customerId (asOf t (customersSnapshot snapshot (pre ++ post))) k).map
        SnapCustomer.membershipTier = (lastSeen pre k).map SnapCustomer.membershipTier) ∧
      (post = [] → ∀ k, currentRows (customersSnapshot snapshot (pre ++ post)) k =
        asOf t (versionsOf SnapCustomer.customerId (customersSnapshot snapshot (pre ++ post)) k)) := by
  -- each run of the snapshot sees the keys of staging
  have hS : ∀ r ∈ pre.map SnapshotRun.source ++ post.map SnapshotRun.source,
      UniqueKey SnapCustomer.customerId r.2 := by
    intro r hr
    rw [← List.map_append] at hr
    obtain ⟨r', hr', rfl⟩ := List.mem_map.1 hr
    exact snapCustomersSrc_unique (hunique r' hr')
  have ht : ((pre.map SnapshotRun.source ++ post.map SnapshotRun.source).map Prod.fst).Pairwise (· < ·) := by
    rw [← List.map_append, List.map_map]
    exact htimes
  have hle : ∀ r ∈ pre.map SnapshotRun.source, r.1 ≤ t := by
    intro r hr
    obtain ⟨r', hr', rfl⟩ := List.mem_map.1 hr
    exact hpre r' hr'
  have hgt : ∀ r ∈ post.map SnapshotRun.source, t < r.1 := by
    intro r hr
    obtain ⟨r', hr', rfl⟩ := List.mem_map.1 hr
    exact hpost r' hr'
  obtain ⟨⟨hU, hrow⟩, hlast⟩ := asOf_runs hc _ _ hS ht hle hgt
  unfold customersSnapshot
  rw [List.map_append]
  refine ⟨hU, fun k => ?_, fun hnil k => ?_⟩
  · rw [hrow k, tier_known]
  · subst hnil
    rw [List.map_nil, List.append_nil]
    exact (hlast rfl k).symm

/-- A snapshot that follows the strategy. -/
abbrev customersCheck : ℤ → List SnapCustomer → List (Version SnapCustomer ℤ) → List (Version SnapCustomer ℤ) :=
  checkSnapshot SnapCustomer.customerId SnapCustomer.membershipTier

theorem customersCheck_strategy : CustomersStrategy customersCheck := checkSnapshot_checkStrategy _ _

/-- The two runs of the lab: `C001` is promoted in between. -/
def promotion : List SnapshotRun := [⟨100, "no", [alice]⟩, ⟨200, "yes", [alice]⟩]

/-- Between the runs `C001` has the tier of the first one, after them that of the second. -/
theorem snapshot_asOf_promotion :
    (lookup SnapCustomer.customerId (asOf 150 (customersSnapshot customersCheck promotion)) "C001").map
        SnapCustomer.membershipTier = some (some "gold") ∧
      (lookup SnapCustomer.customerId (asOf 250 (customersSnapshot customersCheck promotion)) "C001").map
        SnapCustomer.membershipTier = some (some "platinum") := by
  have hunique : ∀ r ∈ promotion, UniqueKey StgCustomersRow.customerId r.stg := by decide
  constructor
  · exact (snapshot_asOf customersCheck customersCheck_strategy (promotion.take 1) (promotion.drop 1) 150 hunique
      (by decide) (by decide) (by decide)).2.1 "C001"
  · exact (snapshot_asOf customersCheck customersCheck_strategy promotion [] 250 hunique (by decide) (by decide)
      (by decide)).2.1 "C001"

end SparkDev.Dbt
