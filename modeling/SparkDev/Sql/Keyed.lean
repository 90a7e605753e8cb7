import Mathlib.Data.List.Perm.Basic
import Mathlib.Data.List.Nodup

/-!
# Bags of rows with a nullable key

A table is a list of rows read as a bag: two tables are the same when one is a
permutation of the other. A row has a nullable key, compared as SQL compares
(`NULL` equals nothing, not even `NULL`).

* `UniqueKey`: no non-null key occurs twice. Rows with a null key are unconstrained.
* `lookup`: the row stored under a key.
* `perm_of_lookup`: a table with unique keys is determined, as a bag, by its
  lookups and its null-keyed rows. Every equality of tables in this development
  goes through it.
-/

namespace SparkDev.Sql

variable {α κ : Type*} {key : α → Option κ} {T T' : List α} {k : κ} {r : α}

/-! ## UniqueKey keys -/

/-- No non-null key occurs twice. -/
def UniqueKey (key : α → Option κ) (T : List α) : Prop := (T.filterMap key).Nodup

instance [DecidableEq κ] (key : α → Option κ) (T : List α) : Decidable (UniqueKey key T) :=
  inferInstanceAs (Decidable (List.Nodup _))

/-- The rows whose key is null. -/
def nullRows (key : α → Option κ) (T : List α) : List α := T.filter fun r => (key r).isNone

theorem unique_iff_pairwise :
    UniqueKey key T ↔ T.Pairwise fun a b => ∀ k, key a = some k → key b ≠ some k := by
  unfold UniqueKey List.Nodup
  rw [List.pairwise_filterMap]
  constructor
  · intro h
    exact h.imp fun {a b} hab k ha hb => hab k ha k hb rfl
  · intro h
    refine h.imp fun {a b} hab k ha k' hb hkk => ?_
    subst hkk
    exact hab k ha hb

theorem unique_nil : UniqueKey key ([] : List α) := List.nodup_nil

theorem UniqueKey.perm (h : UniqueKey key T) (hp : T.Perm T') : UniqueKey key T' :=
  (hp.filterMap key).nodup_iff.1 h

theorem UniqueKey.filter (h : UniqueKey key T) (p : α → Bool) : UniqueKey key (T.filter p) :=
  h.sublist (List.filter_sublist.filterMap key)

/-- Keys that are distinct as options are unique. -/
theorem unique_of_nodup_map (h : (T.map key).Nodup) : UniqueKey key T := by
  rw [unique_iff_pairwise]
  have h' : T.Pairwise fun a b => key a ≠ key b := List.pairwise_map.1 h
  exact h'.imp fun {a b} hab k ha hb => hab (ha.trans hb.symm)

theorem UniqueKey.append (hT : UniqueKey key T) (hT' : UniqueKey key T')
    (hne : ∀ a ∈ T, ∀ b ∈ T', ∀ k, key a = some k → key b ≠ some k) : UniqueKey key (T ++ T') := by
  rw [unique_iff_pairwise] at *
  exact List.pairwise_append.2 ⟨hT, hT', hne⟩

/-- Two rows with the same key are one row. -/
theorem UniqueKey.eq_of_key (hU : UniqueKey key T) {a b : α} (ha : a ∈ T) (hb : b ∈ T)
    (hka : key a = some k) (hkb : key b = some k) : a = b := by
  rw [unique_iff_pairwise] at hU
  have hfwd : T.Pairwise fun x y => key x = some k → key y = some k → x = y :=
    hU.imp fun h hx hy => absurd hy (h k hx)
  have hbwd : T.Pairwise fun x y => key y = some k → key x = some k → y = x :=
    hU.imp fun h hy hx => absurd hy (h k hx)
  exact hfwd.forall_of_forall_of_flip (fun _ _ _ _ => rfl) hbwd ha hb hka hkb

/-- The rows with a key are duplicate free. -/
theorem UniqueKey.nodup_keyed (h : UniqueKey key T) : (T.filter fun r => !(key r).isNone).Nodup := by
  rw [unique_iff_pairwise] at h
  refine List.Pairwise.imp_of_mem ?_ (h.filter _)
  intro a b ha _ hab he
  subst he
  obtain ⟨k, hk⟩ := Option.isSome_iff_exists.1 (by simpa using (List.mem_filter.1 ha).2)
  exact hab k hk hk

/-- A table whose rows all have a key is duplicate free. -/
theorem UniqueKey.nodup (h : UniqueKey key T) (hn : ∀ r ∈ T, key r ≠ none) : T.Nodup := by
  have hkeyed : (T.filter fun r => !(key r).isNone) = T :=
    List.filter_eq_self.2 fun r hr => by simpa [Option.isSome_iff_ne_none] using hn r hr
  have hnodup := h.nodup_keyed
  rw [hkeyed] at hnodup
  exact hnodup

theorem nullRows_eq_nil : nullRows key T = [] ↔ ∀ r ∈ T, key r ≠ none := by
  unfold nullRows
  rw [List.filter_eq_nil_iff]
  simp

theorem UniqueKey.map {β : Type*} {key' : β → Option κ} {f : α → β} (hU : UniqueKey key T)
    (hf : ∀ r, key' (f r) = key r) : UniqueKey key' (T.map f) := by
  unfold UniqueKey
  rw [List.filterMap_map]
  have he : key' ∘ f = key := funext hf
  rw [he]
  exact hU

/-! ## Lookups -/

variable [DecidableEq κ]

/-- `a = b` is TRUE in SQL: both keys are present and equal. -/
def keyEq : Option κ → Option κ → Bool
  | some a, some b => decide (a = b)
  | _, _ => false

@[simp] theorem keyEq_some (o : Option κ) (k : κ) : keyEq o (some k) = true ↔ o = some k := by
  cases o <;> simp [keyEq]

theorem keyEq_some_eq (o : Option κ) (k : κ) : keyEq o (some k) = decide (o = some k) := by
  rw [Bool.eq_iff_iff, keyEq_some, decide_eq_true_eq]

@[simp] theorem keyEq_none_right (o : Option κ) : keyEq o none = false := by
  cases o <;> rfl

theorem keyEq_iff {a b : Option κ} : keyEq a b = true ↔ ∃ k, a = some k ∧ b = some k := by
  cases b with
  | none => simp
  | some k => simp

/-- With unique keys, at most one row has a key equal to `o`. -/
theorem UniqueKey.countP_le_one (hU : UniqueKey key T) (o : Option κ) :
    T.countP (fun r => keyEq o (key r)) ≤ 1 := by
  rw [unique_iff_pairwise] at hU
  induction T with
  | nil => simp
  | cons a T ih =>
    rw [List.pairwise_cons] at hU
    obtain ⟨ha, hT⟩ := hU
    rw [List.countP_cons]
    split
    · rename_i h
      obtain ⟨k, ho, hak⟩ := keyEq_iff.1 h
      -- the head has the key, so no later row does
      have h0 : T.countP (fun r => keyEq o (key r)) = 0 := by
        rw [List.countP_eq_zero]
        intro b hb hob
        obtain ⟨k', ho', hbk⟩ := keyEq_iff.1 hob
        rw [ho, Option.some.injEq] at ho'
        subst ho'
        exact ha b hb k hak hbk
      omega
    · exact ih hT

/-- The row stored under key `k`. -/
def lookup (key : α → Option κ) (T : List α) (k : κ) : Option α :=
  T.find? fun r => decide (key r = some k)

theorem lookup_eq_none : lookup key T k = none ↔ ∀ r ∈ T, key r ≠ some k := by
  unfold lookup
  rw [List.find?_eq_none]
  simp

theorem lookup_key (h : lookup key T k = some r) : key r = some k := by
  simpa using List.find?_some h

theorem lookup_mem (h : lookup key T k = some r) : r ∈ T := List.mem_of_find?_eq_some h

/-- With unique keys, the row under `k` is the only row with that key. -/
theorem UniqueKey.lookup_iff (hU : UniqueKey key T) :
    lookup key T k = some r ↔ r ∈ T ∧ key r = some k := by
  constructor
  · intro h
    exact ⟨lookup_mem h, lookup_key h⟩
  · rintro ⟨hr, hk⟩
    cases h : lookup key T k with
    | none => exact absurd hk (lookup_eq_none.1 h r hr)
    | some r' => rw [hU.eq_of_key (lookup_mem h) hr (lookup_key h) hk]

/-- Lookups do not see the order of the rows. -/
theorem UniqueKey.lookup_perm (hU : UniqueKey key T) (hp : T.Perm T') (k : κ) :
    lookup key T k = lookup key T' k := by
  apply Option.ext
  intro r
  rw [hU.lookup_iff, (hU.perm hp).lookup_iff, hp.mem_iff]

/-- **A keyed table is its lookups.** Two tables with unique keys, the same lookups and
the same null-keyed rows are the same bag. -/
theorem perm_of_lookup (hU : UniqueKey key T) (hU' : UniqueKey key T')
    (hl : ∀ k, lookup key T k = lookup key T' k)
    (hn : (nullRows key T).Perm (nullRows key T')) : T.Perm T' := by
  have hkeyed : (T.filter fun r => !(key r).isNone).Perm (T'.filter fun r => !(key r).isNone) := by
    rw [List.perm_ext_iff_of_nodup hU.nodup_keyed hU'.nodup_keyed]
    intro r
    rw [List.mem_filter, List.mem_filter]
    refine and_congr_left fun hr => ?_
    obtain ⟨k, hk⟩ := Option.isSome_iff_exists.1 (by simpa using hr)
    have h1 := hU.lookup_iff (k := k) (r := r)
    have h2 := hU'.lookup_iff (k := k) (r := r)
    rw [hl k] at h1
    exact ⟨fun h => (h2.1 (h1.2 ⟨h, hk⟩)).1, fun h => (h1.1 (h2.2 ⟨h, hk⟩)).1⟩
  -- each table is its null-keyed rows and its keyed rows
  have hsplit : ∀ U : List α, (nullRows key U ++ U.filter fun r => !(key r).isNone).Perm U :=
    fun U => List.filter_append_perm _ U
  exact (hsplit T).symm.trans ((hn.append hkeyed).trans (hsplit T'))

/-- Mapping the rows without touching their keys. -/
theorem lookup_map {β : Type*} {key' : β → Option κ} {f : α → β} (hf : ∀ r, key' (f r) = key r)
    (T : List α) (k : κ) : lookup key' (T.map f) k = (lookup key T k).map f := by
  unfold lookup
  rw [List.find?_map]
  congr 2
  funext r
  rw [Function.comp_apply, hf]

/-- With unique keys at most one row has a key. -/
theorem UniqueKey.filter_key (hU : UniqueKey key T) (k : κ) :
    (T.filter fun r => decide (key r = some k)) = (lookup key T k).toList := by
  rcases hk : lookup key T k with _ | r
  · rw [lookup_eq_none] at hk
    rw [List.filter_eq_nil_iff.2]
    · rfl
    · intro r hr hrk
      exact hk r hr (of_decide_eq_true hrk)
  · obtain ⟨hr, hrk⟩ := hU.lookup_iff.1 hk
    have hnodup : (T.filter fun r => decide (key r = some k)).Nodup := by
      refine (hU.filter _).nodup fun r' hr' hnone => ?_
      have hrk' := of_decide_eq_true (List.mem_filter.1 hr').2
      exact Option.some_ne_none k (hrk'.symm.trans hnone)
    refine List.perm_singleton.1 ((List.perm_ext_iff_of_nodup hnodup (List.nodup_singleton r)).2 fun r' => ?_)
    rw [List.mem_filter, List.mem_singleton, decide_eq_true_eq, ← hU.lookup_iff, hk, Option.some.injEq]
    exact eq_comm

/-- A table with at most one row of each key. -/
theorem lookup_of_filter {f : κ → Option α} (h : ∀ k, (T.filter fun r => decide (key r = some k)) = (f k).toList) :
    UniqueKey key T ∧ ∀ k, lookup key T k = f k := by
  constructor
  · unfold UniqueKey
    rw [List.nodup_iff_count_le_one]
    intro k
    have hcount : (T.filterMap key).count k = (T.filter fun r => decide (key r = some k)).length := by
      rw [List.count_filterMap, List.countP_eq_length_filter]
      congr 2
      funext r
      rw [Bool.eq_iff_iff, beq_iff_eq, decide_eq_true_eq]
    rw [hcount, h k]
    rcases f k with _ | r
    · exact Nat.zero_le 1
    · exact Nat.le_refl 1
  · intro k
    unfold lookup
    rw [← List.head?_filter, h k]
    rcases f k with _ | r <;> rfl

theorem lookup_append (T T' : List α) (k : κ) :
    lookup key (T ++ T') k = (lookup key T k).or (lookup key T' k) := List.find?_append

end SparkDev.Sql
