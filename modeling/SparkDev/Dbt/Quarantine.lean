import SparkDev.Sql.Logic
import SparkDev.Sql.Double

/-!
# The quarantine split: `orders_clean` and `orders_quarantine`

`orders_clean` keeps the rows on which three rules hold, `orders_quarantine` the
rows on which one of their negations does. By De Morgan the second condition is
the negation of the first (`quarantineWhere_eq`), also in three-valued logic, so
the two tables split the raw one exactly when no row leaves the rules UNKNOWN.

* `quarantine_splits_iff`: the split is a partition exactly when every raw row
  definitely violates a rule or has all three rules known.
* `null_amount_in_neither`: a row without an amount is in neither table.
-/

namespace SparkDev.Dbt

open Sql

/-- A row of `stg_orders_quality`. -/
structure QualityOrder where
  orderId : Option ℤ
  customerId : Option String
  amount : Option Double
  status : Option String
  orderedAt : Option ℤ
  deriving DecidableEq, Repr

/-- A row of `orders_quarantine`. -/
structure QuarantinedOrder extends QualityOrder where
  quarantineReason : Option String
  deriving DecidableEq, Repr

/-- `('completed', 'refunded', 'pending')`. -/
def acceptedStatuses : List (Option String) := [some "completed", some "refunded", some "pending"]

/-- `s.amount > 0`. -/
def positiveAmount (s : QualityOrder) : Truth := compare (fun a b => decide (b < a)) s.amount (some 0)

/-- `s.amount <= 0`. -/
def nonPositiveAmount (s : QualityOrder) : Truth :=
  compare (fun a b => decide (a ≤ b)) s.amount (some 0)

/-- The `WHERE` of `orders_clean`. `validCustomers` is the `customer_id` column of `stg_customers`. -/
def cleanWhere (validCustomers : List (Option String)) (s : QualityOrder) : Truth :=
  ((positiveAmount s).and (isIn s.status acceptedStatuses)).and (isIn s.customerId validCustomers)

/-- `orders_clean`. -/
def ordersClean (validCustomers : List (Option String)) (src : List QualityOrder) : List QualityOrder :=
  src.filter fun s => (cleanWhere validCustomers s).holds

/-- The `WHERE` of `orders_quarantine`. -/
def quarantineWhere (validCustomers : List (Option String)) (s : QualityOrder) : Truth :=
  ((nonPositiveAmount s).or (isIn s.status acceptedStatuses).not).or (isIn s.customerId validCustomers).not

/-- The `CASE` of `orders_quarantine`. -/
def quarantineReason (validCustomers : List (Option String)) (s : QualityOrder) : Option String :=
  if (nonPositiveAmount s).holds then some "non_positive_amount"
  else if (isIn s.status acceptedStatuses).not.holds then some "invalid_status"
  else if (isIn s.customerId validCustomers).not.holds then some "orphan_customer"
  else none

/-- `orders_quarantine`. -/
def ordersQuarantine (validCustomers : List (Option String)) (src : List QualityOrder) :
    List QuarantinedOrder :=
  (src.filter fun s => (quarantineWhere validCustomers s).holds).map fun s =>
    ⟨s, quarantineReason validCustomers s⟩

/-- `clean` and `quarantine` hold every row of `raw` once for each time it is there, and no
row is in both. -/
structure Splits (raw clean quarantine : List QualityOrder) : Prop where
  perm : raw.Perm (clean ++ quarantine)
  disjoint : ∀ s ∈ clean, s ∉ quarantine

/-- A rule is definitely violated: the amount is not positive, the status is not an
accepted one, or the customer is not one of those known (nobody is, when there are none). -/
def Violates (validCustomers : List (Option String)) (s : QualityOrder) : Prop :=
  (∃ a, s.amount = some a ∧ a ≤ 0) ∨ (s.status ≠ none ∧ s.status ∉ acceptedStatuses) ∨
    (validCustomers = [] ∨ (s.customerId ≠ none ∧ none ∉ validCustomers ∧ s.customerId ∉ validCustomers))

/-- Nothing the rules read is `NULL`, except that a customer who is found is known beside
a `NULL` in the list. -/
def Known (validCustomers : List (Option String)) (s : QualityOrder) : Prop :=
  s.amount ≠ none ∧ s.status ≠ none ∧ s.customerId ≠ none ∧
    (s.customerId ∈ validCustomers ∨ none ∉ validCustomers)

variable {validCustomers : List (Option String)} {raw : List QualityOrder} {s : QualityOrder}

theorem nonPositiveAmount_eq (s : QualityOrder) : nonPositiveAmount s = (positiveAmount s).not := by
  unfold nonPositiveAmount positiveAmount
  rw [← compare_not]
  congr 1
  funext a b
  by_cases h : b < a
  · simp [h, not_le.2 h]
  · simp [h, not_lt.1 h]

/-- The `WHERE` of `orders_quarantine` is the negation of the one of `orders_clean`. -/
theorem quarantineWhere_eq (validCustomers : List (Option String)) (s : QualityOrder) :
    quarantineWhere validCustomers s = (cleanWhere validCustomers s).not := by
  unfold quarantineWhere cleanWhere
  rw [Truth.not_and, Truth.not_and, nonPositiveAmount_eq]

theorem map_ordersQuarantine (validCustomers : List (Option String)) (raw : List QualityOrder) :
    (ordersQuarantine validCustomers raw).map QuarantinedOrder.toQualityOrder =
      raw.filter fun s => (cleanWhere validCustomers s).not.holds := by
  unfold ordersQuarantine
  rw [List.map_map]
  simp only [quarantineWhere_eq]
  exact List.map_id _

/-- No row is in both tables, whatever its nulls. -/
theorem clean_quarantine_disjoint (hc : s ∈ ordersClean validCustomers raw) :
    s ∉ (ordersQuarantine validCustomers raw).map QuarantinedOrder.toQualityOrder := by
  rw [map_ordersQuarantine]
  intro hq
  have ht := (List.mem_filter.1 hc).2
  have hf := (List.mem_filter.1 hq).2
  rw [Truth.holds_iff] at ht hf
  rw [Truth.not_eq_tt, ht] at hf
  cases hf

theorem positiveAmount_eq_ff : positiveAmount s = .ff ↔ ∃ a, s.amount = some a ∧ a ≤ 0 := by
  unfold positiveAmount
  rw [compare_eq_ff]
  simp

theorem positiveAmount_eq_tt : positiveAmount s = .tt ↔ ∃ a, s.amount = some a ∧ 0 < a := by
  unfold positiveAmount
  rw [compare_eq_tt]
  simp

theorem isIn_accepted_eq_ff (o : Option String) :
    isIn o acceptedStatuses = .ff ↔ o ≠ none ∧ o ∉ acceptedStatuses := by
  rw [isIn_eq_ff]
  simp [acceptedStatuses]

/-- The `WHERE` of `orders_clean` is FALSE exactly on a violation. -/
theorem cleanWhere_eq_ff : cleanWhere validCustomers s = .ff ↔ Violates validCustomers s := by
  unfold cleanWhere Violates
  rw [Truth.and_eq_ff, Truth.and_eq_ff, positiveAmount_eq_ff, isIn_accepted_eq_ff, isIn_eq_ff, or_assoc]

theorem known_of_cleanWhere (h : cleanWhere validCustomers s = .tt) : Known validCustomers s := by
  unfold cleanWhere at h
  rw [Truth.and_eq_tt, Truth.and_eq_tt, positiveAmount_eq_tt, isIn_eq_tt, isIn_eq_tt] at h
  obtain ⟨⟨⟨a, ha, _⟩, hs, _⟩, hc, hm⟩ := h
  exact ⟨by rw [ha]; exact Option.some_ne_none a, hs, hc, Or.inl hm⟩

/-- A row that has all rules known and violates none passes them. -/
theorem cleanWhere_of_known (hk : Known validCustomers s) (hv : ¬Violates validCustomers s) :
    cleanWhere validCustomers s = .tt := by
  obtain ⟨ha, hs, hc, hm⟩ := hk
  unfold Violates at hv
  push Not at hv
  obtain ⟨hva, hvs, hvn, hvc⟩ := hv
  obtain ⟨a, ha⟩ := Option.ne_none_iff_exists'.1 ha
  unfold cleanWhere
  rw [Truth.and_eq_tt, Truth.and_eq_tt, positiveAmount_eq_tt, isIn_eq_tt, isIn_eq_tt]
  refine ⟨⟨⟨a, ha, hva a ha⟩, hs, hvs hs⟩, hc, ?_⟩
  rcases hm with hm | hm
  · exact hm
  · exact hvc hc hm

theorem cleanWhere_ne_unknown_iff : cleanWhere validCustomers s ≠ .unknown ↔
    Violates validCustomers s ∨ Known validCustomers s := by
  rw [Truth.ne_unknown_iff, cleanWhere_eq_ff]
  constructor
  · rintro (h | h)
    · exact Or.inl h
    · exact Or.inr (known_of_cleanWhere h)
  · rintro (h | h)
    · exact Or.inl h
    · by_cases hv : Violates validCustomers s
      · exact Or.inl hv
      · exact Or.inr (cleanWhere_of_known h hv)

/-- **When the quarantine split is a partition**: exactly when every raw row definitely
violates a rule or has all three rules known. -/
theorem quarantine_splits_iff (validCustomers : List (Option String)) (raw : List QualityOrder) :
    Splits raw (ordersClean validCustomers raw)
        ((ordersQuarantine validCustomers raw).map QuarantinedOrder.toQualityOrder) ↔
      ∀ s ∈ raw, Violates validCustomers s ∨ Known validCustomers s := by
  have hperm := filter_partition_iff (cleanWhere validCustomers) raw
  simp only [cleanWhere_ne_unknown_iff] at hperm
  rw [← hperm, ← map_ordersQuarantine]
  exact ⟨fun h => h.perm, fun h => ⟨h, fun s hs => clean_quarantine_disjoint hs⟩⟩

/-- A row whose amount is missing, with an accepted status and a known customer. -/
def nullAmountOrder : QualityOrder := ⟨some 2005, some "C001", none, some "completed", some 0⟩

/-- **A row in neither table.** -/
theorem null_amount_in_neither :
    ordersClean [some "C001"] [nullAmountOrder] = [] ∧
      ordersQuarantine [some "C001"] [nullAmountOrder] = [] ∧
      ¬Splits [nullAmountOrder] (ordersClean [some "C001"] [nullAmountOrder])
        ((ordersQuarantine [some "C001"] [nullAmountOrder]).map QuarantinedOrder.toQualityOrder) := by
  have hc : ordersClean [some "C001"] [nullAmountOrder] = [] := by decide
  have hq : ordersQuarantine [some "C001"] [nullAmountOrder] = [] := by decide
  refine ⟨hc, hq, fun h => ?_⟩
  have hp := h.perm
  rw [hc, hq] at hp
  exact absurd hp.length_eq (by decide)

end SparkDev.Dbt
