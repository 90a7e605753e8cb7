import Mathlib.Data.Set.Function
import SparkDev.Dbt.Orders
import SparkDev.Sql.ConcatWs

/-!
# `surrogate_key`

The macro joins the columns with `'|'` and hashes the result. Two things are lost on the
way: a `NULL` is spelled like the text `'_null_'`, and a `'|'` inside a value looks like
one between two values.

* `keyInput_eq_iff`: what is hashed determines the pieces the values spell, and no more.
* `surrogate_key_iff`: two rows are kept apart exactly when they are not `Confusable`, that is
  when writing out `NULL`s and moving `'|'`s between columns does not turn one into the other.
* `dimOrdersKeyed_key_iff`: in `dim_orders_keyed` only a missing customer and a customer called
  `'_null_'` are confused.
-/

namespace SparkDev.Dbt

open Sql Text

variable {ρ : Type*}

/-- `coalesce(c, '_null_')`. -/
def coalesceNull (c : Option String) : String := c.getD "_null_"

/-- What `surrogate_key(cols)` passes to `md5`, each column as its cast to string. -/
def keyInput (cols : List (ρ → Option String)) (r : ρ) : String :=
  concatWs "|" (cols.map fun c => some (coalesceNull (c r)))

/-- `surrogate_key(cols)`. -/
def surrogateKey (md5 : String → String) (cols : List (ρ → Option String)) (r : ρ) : String :=
  md5 (keyInput cols r)

/-- The values of the columns. -/
def keyTuple (cols : List (ρ → Option String)) (r : ρ) : List (Option String) := cols.map fun c => c r

/-- The pieces of the values between `'|'`s, a `NULL` spelled `_null_`. -/
def spelled (t : List (Option String)) : List (List Char) := pieces '|' (t.map coalesceNull)

/-- Different tuples that, with `NULL` written `_null_`, are turned into each other by moving `'|'`s,
with the text beside them, into the next column or back. -/
def Confusable (t t' : List (Option String)) : Prop :=
  t ≠ t' ∧ Relation.EqvGen (Shift '|') (t.map coalesceNull) (t'.map coalesceNull)

variable {cols : List (ρ → Option String)} {r r' : ρ} {t t' : List (Option String)}
  {md5 : String → String}

theorem keyInput_eq (cols : List (ρ → Option String)) (r : ρ) :
    keyInput cols r = concatWs (String.singleton '|') (((keyTuple cols r).map coalesceNull).map some) := by
  unfold keyInput keyTuple
  rw [List.map_map, List.map_map]
  rfl

theorem length_keyTuple (cols : List (ρ → Option String)) (r : ρ) : (keyTuple cols r).length = cols.length :=
  List.length_map _

theorem keyInput_eq_iff :
    keyInput cols r = keyInput cols r' ↔ spelled (keyTuple cols r) = spelled (keyTuple cols r') := by
  rw [keyInput_eq, keyInput_eq]
  exact concatWs_eq_iff (by rw [List.length_map, List.length_map, length_keyTuple, length_keyTuple])

theorem spelled_eq_iff (hlen : t.length = t'.length) :
    spelled t = spelled t' ↔ Relation.EqvGen (Shift '|') (t.map coalesceNull) (t'.map coalesceNull) :=
  pieces_eq_iff (by rw [List.length_map, List.length_map, hlen])

theorem surrogateKey_eq_iff (hmd5 : Set.InjOn md5 {keyInput cols r, keyInput cols r'}) :
    surrogateKey md5 cols r = surrogateKey md5 cols r' ↔ keyInput cols r = keyInput cols r' := by
  unfold surrogateKey
  constructor
  · intro h
    exact hmd5 (Set.mem_insert _ _) (Set.mem_insert_of_mem _ rfl) h
  · intro h
    rw [h]

/-- **What the key keeps apart**: two rows whose values are not confusable, when `md5` is
injective on what it gets. -/
theorem surrogate_key_iff (md5 : String → String) (cols : List (ρ → Option String)) (r r' : ρ)
    (hmd5 : Set.InjOn md5 {keyInput cols r, keyInput cols r'}) :
    ((keyInput cols r = keyInput cols r' → keyTuple cols r = keyTuple cols r') ∧
        (surrogateKey md5 cols r = surrogateKey md5 cols r' → keyTuple cols r = keyTuple cols r')) ↔
      ¬Confusable (keyTuple cols r) (keyTuple cols r') := by
  have hlen : (keyTuple cols r).length = (keyTuple cols r').length := by
    rw [length_keyTuple, length_keyTuple]
  rw [surrogateKey_eq_iff hmd5, and_self, keyInput_eq_iff, spelled_eq_iff hlen]
  unfold Confusable
  rw [not_and', not_not]

/-- A key over two text columns. -/
def pairCols : List (String × String → Option String) := [fun t => some t.1, fun t => some t.2]

/-- Two customers of one order. -/
theorem surrogate_key_iff_plain : keyInput pairCols ("2000", "C001") ≠ keyInput pairCols ("2000", "C002") := by
  intro h
  have hinj : Set.InjOn (id : String → String)
      {keyInput pairCols ("2000", "C001"), keyInput pairCols ("2000", "C002")} :=
    Function.injective_id.injOn
  have hkept := (surrogate_key_iff id pairCols ("2000", "C001") ("2000", "C002") hinj).2
    fun hc => absurd (pieces_of_shifts hc.2) (by decide)
  exact absurd (hkept.1 h) (by decide)

/-- **Different rows with one key**: a `'|'` inside a value, and a `NULL` beside the text
`'_null_'`. -/
theorem confused_keys :
    keyInput pairCols ("a|b", "c") = keyInput pairCols ("a", "b|c") ∧
      keyInput [id] (none : Option String) = keyInput [id] (some "_null_") ∧
      ¬∀ (cols : List (Option String → Option String)) (r r' : Option String), cols ≠ [] →
        keyInput cols r = keyInput cols r' → keyTuple cols r = keyTuple cols r' := by
  have hnull : keyInput [id] (none : Option String) = keyInput [id] (some "_null_") := by decide
  refine ⟨by decide, hnull, fun hall => ?_⟩
  have htuple := hall [id] none (some "_null_") (List.cons_ne_nil _ _) hnull
  exact absurd htuple (by decide)

/-! ## Where nothing is lost -/

/-- A value that cannot be taken for another. -/
def Plain (c : Option String) : Prop := c ≠ some "_null_" ∧ ∀ v, c = some v → '|' ∉ v.toList

theorem notMem_coalesceNull {c : Option String} (h : ∀ v, c = some v → '|' ∉ v.toList) :
    '|' ∉ (coalesceNull c).toList := by
  rcases c with _ | v
  · decide
  · exact h v rfl

theorem coalesceNull_inj {c c' : Option String} (hc : c ≠ some "_null_") (hc' : c' ≠ some "_null_")
    (h : coalesceNull c = coalesceNull c') : c = c' := by
  rcases c with _ | v <;> rcases c' with _ | v'
  · rfl
  · exact absurd (congrArg some h.symm) hc'
  · exact absurd (congrArg some h) hc
  · exact congrArg some h

/-- Plain values of one arity are never confused. -/
theorem eq_of_spelled : ∀ {t t' : List (Option String)}, t.length = t'.length →
    (∀ c ∈ t, Plain c) → (∀ c ∈ t', Plain c) → spelled t = spelled t' → t = t' := by
  intro t
  induction t with
  | nil =>
    intro t' hlen _ _ _
    exact (List.length_eq_zero_iff.1 hlen.symm).symm
  | cons c t ih =>
    intro t' hlen ht ht' h
    rcases t' with _ | ⟨c', t'⟩
    · cases hlen
    obtain ⟨hc, ht⟩ := List.forall_mem_cons.1 ht
    obtain ⟨hc', ht'⟩ := List.forall_mem_cons.1 ht'
    unfold spelled at h
    rw [List.map_cons, List.map_cons, pieces_cons_of_notMem (notMem_coalesceNull hc.2),
      pieces_cons_of_notMem (notMem_coalesceNull hc'.2), List.cons.injEq, String.toList_inj] at h
    have htail : t = t' := ih (Nat.succ_injective hlen) ht ht' h.2
    rw [coalesceNull_inj hc.1 hc'.1 h.1, htail]

theorem not_confusable_of_plain (hlen : t.length = t'.length) (ht : ∀ c ∈ t, Plain c)
    (ht' : ∀ c ∈ t', Plain c) : ¬Confusable t t' :=
  fun h => h.1 (eq_of_spelled hlen ht ht' ((spelled_eq_iff hlen).2 h.2))

/-! ## `dim_orders_keyed` -/

/-- A row of `dim_orders_keyed`. -/
structure KeyedOrder where
  orderKey : String
  orderId : Option ℤ
  customerId : Option String
  amount : Option ℚ
  status : Option String

/-- `['order_id', 'customer_id']`, cast to string. -/
def orderKeyCols : List (Order → Option String) :=
  [fun o => o.orderId.map toString, Order.customerId]

/-- `dim_orders_keyed`. -/
def dimOrdersKeyed (md5 : String → String) (fctOrders : List Order) : List KeyedOrder :=
  fctOrders.map fun o => ⟨surrogateKey md5 orderKeyCols o, o.orderId, o.customerId, o.amount, o.status⟩

variable {o o' : Order}

/-- The cast of a number holds no `'|'` and is not `'_null_'`. -/
theorem plain_orderId (n : Option ℤ) : Plain (n.map toString) := by
  have hchar : ∀ k : ℤ, ∀ c ∈ (toString k).toList, c ≠ '|' ∧ c ≠ '_' := by
    intro k c hc
    rcases mem_toString_int hc with h | h
    · constructor <;> rintro rfl <;> exact absurd h (by decide)
    · subst h
      decide
  rcases n with _ | k
  · exact ⟨Option.some_ne_none _ |>.symm, fun v hv => absurd hv.symm (Option.some_ne_none v)⟩
  · constructor
    · intro h
      have hk : toString k = "_null_" := Option.some_injective _ h
      have hmem : '_' ∈ (toString k).toList := by
        rw [hk]
        decide
      exact (hchar k '_' hmem).2 rfl
    · intro v hv hmem
      obtain rfl : toString k = v := Option.some_injective _ hv
      exact (hchar k '|' hmem).1 rfl

/-- Equal keys: equal ids, and customers that read the same, a missing one as `_null_`. -/
theorem orderKey_eq_iff (hmd5 : Set.InjOn md5 {keyInput orderKeyCols o, keyInput orderKeyCols o'}) :
    surrogateKey md5 orderKeyCols o = surrogateKey md5 orderKeyCols o' ↔
      o.orderId = o'.orderId ∧ coalesceNull o.customerId = coalesceNull o'.customerId := by
  have hid : ∀ n : Option ℤ, '|' ∉ (coalesceNull (n.map toString)).toList :=
    fun n => notMem_coalesceNull (plain_orderId n).2
  have hspelled : ∀ o : Order, spelled (keyTuple orderKeyCols o) =
      (coalesceNull (o.orderId.map toString)).toList :: pieces '|' [coalesceNull o.customerId] :=
    fun o => pieces_cons_of_notMem (hid o.orderId) _
  rw [surrogateKey_eq_iff hmd5, keyInput_eq_iff, hspelled, hspelled, List.cons.injEq, String.toList_inj]
  constructor
  · rintro ⟨hn, hc⟩
    have hcast := coalesceNull_inj (plain_orderId o.orderId).1 (plain_orderId o'.orderId).1 hn
    exact ⟨Option.map_injective (fun _ _ => toString_int_inj) hcast, pieces_singleton_inj hc⟩
  · rintro ⟨hn, hc⟩
    rw [hn, hc]
    exact ⟨rfl, rfl⟩

/-- **The keys of `dim_orders_keyed`** are those of their rows. -/
theorem dimOrdersKeyed_key_iff {fctOrders : List Order} {k k' : KeyedOrder}
    (hmd5 : Set.InjOn md5 {x | ∃ o ∈ fctOrders, x = keyInput orderKeyCols o})
    (hk : k ∈ dimOrdersKeyed md5 fctOrders) (hk' : k' ∈ dimOrdersKeyed md5 fctOrders) :
    k.orderKey = k'.orderKey ↔
      k.orderId = k'.orderId ∧ coalesceNull k.customerId = coalesceNull k'.customerId := by
  obtain ⟨o, ho, rfl⟩ := List.mem_map.1 hk
  obtain ⟨o', ho', rfl⟩ := List.mem_map.1 hk'
  refine orderKey_eq_iff (hmd5.mono ?_)
  rintro x (rfl | rfl)
  · exact ⟨o, ho, rfl⟩
  · exact ⟨o', ho', rfl⟩

end SparkDev.Dbt
