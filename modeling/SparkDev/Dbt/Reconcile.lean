import SparkDev.Dbt.Quarantine

/-!
# The singular test `assert_orders_reconcile`

The test compares the number of raw rows with the number of rows in the two tables. A
count alone could hide a lost row behind a doubled one; here nothing is ever doubled,
since no row is in both tables, so every difference of the counts is a lost row.

* `reconcile_iff`: the test fails exactly when some raw row is in neither table.
* `quarantineReason_eq`: the reason is the name of the first rule that is violated.
* `reconcile_sound_complete`: both, for the tables of every build.
-/

namespace SparkDev.Dbt

open Sql

/-- `assert_orders_reconcile`: the rows the test returns, none when it passes. -/
def assertOrdersReconcile (raw clean : List QualityOrder) (quarantine : List QuarantinedOrder) :
    List String :=
  let parts := clean.length + quarantine.length
  if raw.length ≠ parts then ["reconcile_mismatch"] else []

/-- The three rules in the order of the `CASE`, each with the condition that violates it. -/
def rules (validCustomers : List (Option String)) : List (String × (QualityOrder → Truth)) :=
  [("non_positive_amount", nonPositiveAmount),
   ("invalid_status", fun s => (isIn s.status acceptedStatuses).not),
   ("orphan_customer", fun s => (isIn s.customerId validCustomers).not)]

/-- The first rule whose violation is TRUE on a row. -/
def firstViolated (validCustomers : List (Option String)) (s : QualityOrder) :
    Option (String × (QualityOrder → Truth)) :=
  (rules validCustomers).find? fun rule => (rule.2 s).holds

/-- `s` is a row of `orders_quarantine`, whatever the reason beside it. -/
def InQuarantine (s : QualityOrder) (quarantine : List QuarantinedOrder) : Prop :=
  s ∈ quarantine.map QuarantinedOrder.toQualityOrder

variable {validCustomers : List (Option String)} {raw : List QualityOrder} {s : QualityOrder}

theorem assertOrdersReconcile_ne_nil {clean : List QualityOrder} {quarantine : List QuarantinedOrder} :
    assertOrdersReconcile raw clean quarantine ≠ [] ↔ raw.length ≠ clean.length + quarantine.length := by
  unfold assertOrdersReconcile
  by_cases h : raw.length = clean.length + quarantine.length
  · simp [h]
  · simp [h]

theorem mem_ordersClean : s ∈ ordersClean validCustomers raw ↔
    s ∈ raw ∧ cleanWhere validCustomers s = .tt := by
  unfold ordersClean
  rw [List.mem_filter, Truth.holds_iff]

theorem inQuarantine_iff : InQuarantine s (ordersQuarantine validCustomers raw) ↔
    s ∈ raw ∧ cleanWhere validCustomers s = .ff := by
  unfold InQuarantine
  rw [map_ordersQuarantine, List.mem_filter, Truth.holds_iff, Truth.not_eq_tt]

/-- A raw row is lost exactly when the rules are UNKNOWN on it. -/
theorem lost_iff (hs : s ∈ raw) : (s ∉ ordersClean validCustomers raw ∧
    ¬InQuarantine s (ordersQuarantine validCustomers raw)) ↔ cleanWhere validCustomers s = .unknown := by
  rw [mem_ordersClean, inQuarantine_iff]
  rcases cleanWhere validCustomers s <;> simp [hs]

/-- The rows of the two tables and those lost are the raw rows. -/
theorem length_split (validCustomers : List (Option String)) (raw : List QualityOrder) :
    (ordersClean validCustomers raw).length + (ordersQuarantine validCustomers raw).length +
      (raw.filter fun s => decide (cleanWhere validCustomers s = .unknown)).length = raw.length := by
  have hq : (ordersQuarantine validCustomers raw).length =
      (raw.filter fun s => (cleanWhere validCustomers s).not.holds).length := by
    rw [← map_ordersQuarantine, List.length_map]
  rw [hq]
  exact length_filter_holds (cleanWhere validCustomers) raw

/-- **The test fails exactly when a row is lost.** -/
theorem reconcile_iff (validCustomers : List (Option String)) (raw : List QualityOrder) :
    assertOrdersReconcile raw (ordersClean validCustomers raw) (ordersQuarantine validCustomers raw) ≠ [] ↔
      ∃ s ∈ raw, s ∉ ordersClean validCustomers raw ∧
        ¬InQuarantine s (ordersQuarantine validCustomers raw) := by
  have hsplit := length_split validCustomers raw
  have hlost : (∃ s ∈ raw, cleanWhere validCustomers s = .unknown) ↔
      0 < (raw.filter fun s => decide (cleanWhere validCustomers s = .unknown)).length := by
    rw [List.length_pos_iff_exists_mem]
    simp only [List.mem_filter, decide_eq_true_eq]
  have hiff : (∃ s ∈ raw, s ∉ ordersClean validCustomers raw ∧
      ¬InQuarantine s (ordersQuarantine validCustomers raw)) ↔
        ∃ s ∈ raw, cleanWhere validCustomers s = .unknown :=
    exists_congr fun s => and_congr_right fun hs => lost_iff hs
  rw [assertOrdersReconcile_ne_nil, hiff, hlost]
  omega

/-- The `CASE` names the first violated rule. -/
theorem quarantineReason_eq (validCustomers : List (Option String)) (s : QualityOrder) :
    quarantineReason validCustomers s = (firstViolated validCustomers s).map Prod.fst := by
  unfold quarantineReason firstViolated rules
  rcases h₁ : (nonPositiveAmount s).holds
  · rcases h₂ : (isIn s.status acceptedStatuses).not.holds
    · rcases h₃ : (isIn s.customerId validCustomers).not.holds <;> simp [h₁, h₂, h₃]
    · simp [h₁, h₂]
  · simp [h₁]

/-- A row that the `WHERE` of `orders_quarantine` keeps violates one of the rules. -/
theorem exists_firstViolated (h : (quarantineWhere validCustomers s).holds = true) :
    ∃ rule, firstViolated validCustomers s = some rule := by
  rw [Truth.holds_iff] at h
  unfold quarantineWhere at h
  rw [Truth.or_eq_tt, Truth.or_eq_tt] at h
  unfold firstViolated
  rw [← Option.isSome_iff_exists, List.find?_isSome]
  rcases h with (h | h) | h
  · exact ⟨_, List.mem_cons_self, Truth.holds_iff.2 h⟩
  · exact ⟨_, List.mem_cons_of_mem _ List.mem_cons_self, Truth.holds_iff.2 h⟩
  · exact ⟨_, List.mem_cons_of_mem _ (List.mem_cons_of_mem _ List.mem_cons_self), Truth.holds_iff.2 h⟩

/-- **The reconcile test is sound and complete, and the reason is always set.** For every raw
table and every list of customers, with nulls anywhere: the test fails exactly when some raw row
is in neither table or in both, no row is ever in both, and every quarantined row carries the
name of the first rule whose violation is TRUE on it. -/
theorem reconcile_sound_complete (validCustomers : List (Option String)) (raw : List QualityOrder) :
    (assertOrdersReconcile raw (ordersClean validCustomers raw) (ordersQuarantine validCustomers raw) ≠ [] ↔
      ∃ s ∈ raw,
        (s ∉ ordersClean validCustomers raw ∧ ¬InQuarantine s (ordersQuarantine validCustomers raw)) ∨
        (s ∈ ordersClean validCustomers raw ∧ InQuarantine s (ordersQuarantine validCustomers raw))) ∧
    (∀ s ∈ raw,
      ¬(s ∈ ordersClean validCustomers raw ∧ InQuarantine s (ordersQuarantine validCustomers raw))) ∧
    ∀ q ∈ ordersQuarantine validCustomers raw, ∃ rule,
      firstViolated validCustomers q.toQualityOrder = some rule ∧ q.quarantineReason = some rule.1 := by
  have hboth : ∀ s ∈ raw,
      ¬(s ∈ ordersClean validCustomers raw ∧ InQuarantine s (ordersQuarantine validCustomers raw)) :=
    fun s _ ⟨hc, hq⟩ => clean_quarantine_disjoint hc hq
  refine ⟨?_, hboth, fun q hq => ?_⟩
  · rw [reconcile_iff]
    refine exists_congr fun s => and_congr_right fun hs => ?_
    exact ⟨Or.inl, fun h => h.resolve_right (hboth s hs)⟩
  · unfold ordersQuarantine at hq
    obtain ⟨s, hs, rfl⟩ := List.mem_map.1 hq
    obtain ⟨rule, hrule⟩ := exists_firstViolated (List.mem_filter.1 hs).2
    refine ⟨rule, hrule, ?_⟩
    simp only [quarantineReason_eq, hrule, Option.map_some]

end SparkDev.Dbt
