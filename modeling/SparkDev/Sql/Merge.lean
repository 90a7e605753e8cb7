import SparkDev.Sql.Keyed

/-!
# `MERGE INTO target USING source ON target.key = source.key`

A `MERGE` is given by what its `WHEN MATCHED` clauses do to a target row
(`matched`, `none` when they delete it) and what its `WHEN NOT MATCHED` clauses
insert for a source row (`notMatched`). The statement fails, and leaves the
table alone, when a target row matches several source rows.

* `MergeClauses.merge_isSome`: with unique source keys it does not fail.
* `MergeClauses.merge_lookup`: it acts on each key separately, by
  `MergeClauses.apply`. This is the only fact about `MERGE` the rest of the
  development uses, with `merge_unique` and `merge_nullRows`.
* `upsertAll_mem`, `upsertAll_self_iff`: what a table has after an upsert of whole rows, and
  when it is as before.
* `upsertAll_perm_iff`: when upserting rows of a keyed table completes a part of it.
-/

namespace SparkDev.Sql

/-- The clauses of a `MERGE`. The `ON` condition compares the two keys; no clause changes
the key of a matched row, and an inserted row has the key of its source row. -/
structure MergeClauses (τ σ κ : Type*) [DecidableEq κ] where
  targetKey : τ → Option κ
  sourceKey : σ → Option κ
  matched : τ → σ → Option τ
  notMatched : σ → Option τ
  matched_key : ∀ t s t', keyEq (targetKey t) (sourceKey s) = true → matched t s = some t' →
    targetKey t' = targetKey t
  notMatched_key : ∀ s t, notMatched s = some t → targetKey t = sourceKey s

namespace MergeClauses

variable {τ σ κ : Type*} [DecidableEq κ]

/-- The `ON` condition. -/
def on (m : MergeClauses τ σ κ) (t : τ) (s : σ) : Bool := keyEq (m.targetKey t) (m.sourceKey s)

/-- A target row after the statement. -/
def update (m : MergeClauses τ σ κ) (S : List σ) (t : τ) : Option τ :=
  match S.find? (m.on t) with
  | none => some t
  | some s => m.matched t s

/-- The row inserted for a source row. -/
def insert (m : MergeClauses τ σ κ) (T : List τ) (s : σ) : Option τ :=
  if T.any (fun t => m.on t s) then none else m.notMatched s

/-- The table after the statement, `none` when it fails. -/
def merge (m : MergeClauses τ σ κ) (T : List τ) (S : List σ) : Option (List τ) :=
  if T.any (fun t => decide (1 < S.countP (m.on t))) then none
  else some (T.filterMap (m.update S) ++ S.filterMap (m.insert T))

/-- What the statement does to one key, given the source row and the target row there. -/
def apply (m : MergeClauses τ σ κ) : Option σ → Option τ → Option τ
  | none, o => o
  | some s, none => m.notMatched s
  | some s, some t => m.matched t s

variable {m : MergeClauses τ σ κ} {T T' : List τ} {S : List σ} {k : κ}

/-- Mapping rows to some of their keys gives a sublist of the keys. -/
theorem filterMap_sublist {α β : Type*} {f g : α → Option β} (h : ∀ a, f a = none ∨ f a = g a) :
    ∀ l : List α, (l.filterMap f).Sublist (l.filterMap g) := by
  intro l
  induction l with
  | nil => exact List.Sublist.slnil
  | cons a l ih =>
    rw [List.filterMap_cons, List.filterMap_cons]
    rcases h a with h | h
    · rw [h]
      cases g a with
      | none => exact ih
      | some b => exact ih.cons b
    · rw [h]
      cases g a with
      | none => exact ih
      | some b => exact ih.cons_cons b

/-- **With unique source keys a `MERGE` succeeds.** -/
theorem merge_isSome (hS : UniqueKey m.sourceKey S) (T : List τ) : ∃ T', m.merge T S = some T' := by
  have h : T.any (fun t => decide (1 < S.countP (m.on t))) = false := by
    rw [List.any_eq_false]
    intro t _
    have hle : S.countP (m.on t) ≤ 1 := hS.countP_le_one (m.targetKey t)
    simp only [decide_eq_true_eq]
    omega
  exact ⟨_, by unfold merge; rw [h]; rfl⟩

theorem merge_eq (h : m.merge T S = some T') :
    T' = T.filterMap (m.update S) ++ S.filterMap (m.insert T) := by
  unfold merge at h
  split at h
  · cases h
  · exact (Option.some.inj h).symm

theorem update_of_key {t : τ} (ht : m.targetKey t = some k) :
    m.update S t = m.apply (lookup m.sourceKey S k) (some t) := by
  have hon : m.on t = fun s => decide (m.sourceKey s = some k) := by
    funext s
    unfold on
    rw [ht]
    cases m.sourceKey s <;> simp [keyEq, eq_comm]
  unfold update lookup
  rw [hon]
  cases S.find? (fun s => decide (m.sourceKey s = some k)) <;> rfl

theorem update_of_null {t : τ} (ht : m.targetKey t = none) : m.update S t = some t := by
  have hon : S.find? (m.on t) = none := by
    rw [List.find?_eq_none]
    intro s _
    unfold on
    rw [ht]
    simp [keyEq]
  unfold update
  rw [hon]

theorem insert_of_key {s : σ} (hs : m.sourceKey s = some k) :
    m.insert T s = if lookup m.targetKey T k = none then m.notMatched s else none := by
  have hon : (T.any fun t => m.on t s) = !(lookup m.targetKey T k).isNone := by
    unfold on lookup
    rw [hs, Bool.eq_iff_iff]
    simp
  unfold insert
  rw [hon]
  cases lookup m.targetKey T k <;> simp

/-- A row that stays keeps its key. -/
theorem update_key {t t' : τ} (h : m.update S t = some t') : m.targetKey t' = m.targetKey t := by
  unfold update at h
  cases hf : S.find? (m.on t) with
  | none => rw [hf] at h; cases h; rfl
  | some s =>
    rw [hf] at h
    have hon : m.on t s = true := List.find?_some hf
    exact m.matched_key t s t' hon h

theorem insert_key {s : σ} {t : τ} (h : m.insert T s = some t) : m.targetKey t = m.sourceKey s := by
  unfold insert at h
  split at h
  · cases h
  · exact m.notMatched_key s t h

/-- **What uniqueness after a `MERGE` rests on**: of unique target keys, the inserted rows
alone. They share no key with the target, but may share one with each other. -/
theorem merge_unique_iff (hT : UniqueKey m.targetKey T) (h : m.merge T S = some T') :
    UniqueKey m.targetKey T' ↔ UniqueKey m.targetKey (S.filterMap (m.insert T)) := by
  have hA : ((T.filterMap (m.update S)).filterMap m.targetKey).Sublist (T.filterMap m.targetKey) := by
    rw [List.filterMap_filterMap]
    refine filterMap_sublist (fun t => ?_) T
    rcases hu : m.update S t with _ | t'
    · exact Or.inl rfl
    · exact Or.inr (update_key hu)
  rw [merge_eq h]
  unfold UniqueKey
  rw [List.filterMap_append, List.nodup_append]
  constructor
  · rintro ⟨-, hins, -⟩
    exact hins
  · intro hins
    refine ⟨hT.sublist hA, hins, ?_⟩
    -- an inserted key is not a key of the target
    intro k hk k' hk' he
    subst he
    obtain ⟨t, ht, htk⟩ := List.mem_filterMap.1 (hA.subset hk)
    obtain ⟨t', ht', hkey⟩ := List.mem_filterMap.1 hk'
    obtain ⟨s, hs, hi⟩ := List.mem_filterMap.1 ht'
    rw [insert_of_key ((insert_key hi).symm.trans hkey)] at hi
    split at hi
    · rename_i hn
      exact lookup_eq_none.1 hn t ht htk
    · cases hi

/-- **A `MERGE` keeps the target's keys unique** when the source keys are. -/
theorem merge_unique (hT : UniqueKey m.targetKey T) (hS : UniqueKey m.sourceKey S)
    (h : m.merge T S = some T') : UniqueKey m.targetKey T' := by
  rw [merge_unique_iff hT h]
  unfold UniqueKey
  rw [List.filterMap_filterMap]
  refine List.Nodup.sublist (filterMap_sublist (fun s => ?_) S) hS
  rcases hi : m.insert T s with _ | t
  · exact Or.inl rfl
  · exact Or.inr (insert_key hi)

/-- **A `MERGE` acts on each key separately.** -/
theorem merge_lookup (hT : UniqueKey m.targetKey T) (hS : UniqueKey m.sourceKey S)
    (h : m.merge T S = some T') (k : κ) :
    lookup m.targetKey T' k = m.apply (lookup m.sourceKey S k) (lookup m.targetKey T k) := by
  have hU := merge_unique hT hS h
  apply Option.ext
  intro r
  rw [hU.lookup_iff, merge_eq h, List.mem_append, List.mem_filterMap, List.mem_filterMap]
  constructor
  · rintro ⟨⟨t, ht, hu⟩ | ⟨s, hs, hi⟩, hk⟩
    · have htk : m.targetKey t = some k := (update_key hu).symm.trans hk
      rw [hT.lookup_iff.2 ⟨ht, htk⟩, ← update_of_key htk, hu]
    · have hsk : m.sourceKey s = some k := (insert_key hi).symm.trans hk
      rw [hS.lookup_iff.2 ⟨hs, hsk⟩]
      rw [insert_of_key hsk] at hi
      split at hi
      · rename_i hn; rw [hn]; exact hi
      · cases hi
  · intro ha
    -- a row under `k` afterwards is the matched target row or the inserted source row
    cases hlT : lookup m.targetKey T k with
    | some t =>
      have htk := lookup_key hlT
      rw [hlT, ← update_of_key htk] at ha
      exact ⟨Or.inl ⟨t, lookup_mem hlT, ha⟩, (update_key ha).trans htk⟩
    | none =>
      rw [hlT] at ha
      cases hlS : lookup m.sourceKey S k with
      | none => rw [hlS] at ha; cases ha
      | some s =>
        have hsk := lookup_key hlS
        rw [hlS] at ha
        have hi : m.insert T s = some r := by rw [insert_of_key hsk, if_pos hlT]; exact ha
        exact ⟨Or.inr ⟨s, lookup_mem hlS, hi⟩, (insert_key hi).trans hsk⟩

/-- Null-keyed target rows match nothing and stay, when no source row has a null key. -/
theorem merge_nullRows (hS : ∀ s ∈ S, m.sourceKey s ≠ none) (h : m.merge T S = some T') :
    nullRows m.targetKey T' = nullRows m.targetKey T := by
  rw [merge_eq h]
  unfold nullRows
  rw [List.filter_append]
  have hB : (S.filterMap (m.insert T)).filter (fun r => (m.targetKey r).isNone) = [] := by
    rw [List.filter_eq_nil_iff]
    intro r hr hn
    obtain ⟨s, hs, hi⟩ := List.mem_filterMap.1 hr
    rw [insert_key hi, Option.isNone_iff_eq_none] at hn
    exact hS s hs hn
  rw [hB, List.append_nil]
  clear h hB
  -- on the target: a row without a key is never matched
  induction T with
  | nil => rfl
  | cons t T ih =>
    cases hk : m.targetKey t with
    | none =>
      rw [List.filterMap_cons_some (update_of_null hk), List.filter_cons_of_pos (by simp [hk]),
        List.filter_cons_of_pos (by simp [hk]), ih]
    | some k =>
      rw [List.filter_cons_of_neg (by simp [hk]), ← ih, List.filterMap_cons]
      cases hu : m.update S t with
      | none => rfl
      | some t' => exact List.filter_cons_of_neg (by simp [update_key hu, hk])

end MergeClauses

/-! ## Whole-row upserts -/

variable {ρ κ : Type*} [DecidableEq κ] {key : ρ → Option κ} {R S T T' : List ρ} {k : κ}

/-- `WHEN MATCHED THEN UPDATE SET *`, `WHEN NOT MATCHED THEN INSERT *`. -/
def upsertAll (key : ρ → Option κ) : MergeClauses ρ ρ κ where
  targetKey := key
  sourceKey := key
  matched _ s := some s
  notMatched s := some s
  matched_key t s t' hon h := by
    obtain ⟨k, ht, hs⟩ := keyEq_iff.1 hon
    cases h
    exact hs.trans ht.symm
  notMatched_key s t h := by cases h; rfl

/-- The source row of a key wins over the target row. -/
theorem upsertAll_lookup (hT : UniqueKey key T) (hS : UniqueKey key S)
    (h : (upsertAll key).merge T S = some T') (k : κ) :
    lookup key T' k = (lookup key S k).or (lookup key T k) := by
  have hl := MergeClauses.merge_lookup (m := upsertAll key) hT hS h k
  change lookup key T' k = (upsertAll key).apply (lookup key S k) (lookup key T k) at hl
  rw [hl]
  rcases lookup key S k with _ | s <;> rcases lookup key T k with _ | t <;> rfl

/-- The rows an upsert inserts are those whose key the target does not have. -/
theorem upsertAll_insert (T S : List ρ) : S.filterMap ((upsertAll key).insert T) =
    S.filter fun s => !T.any fun t => keyEq (key t) (key s) := by
  rw [← List.filterMap_eq_filter]
  congr 1
  funext s
  unfold MergeClauses.insert Option.guard
  rcases hany : T.any fun t => keyEq (key t) (key s) <;>
    simp [upsertAll, MergeClauses.on, hany]

/-- After an upsert the table has the source rows, and the target rows that none of them
replaced. -/
theorem upsertAll_mem {r : ρ} (hS : UniqueKey key S) (h : (upsertAll key).merge T S = some T') :
    r ∈ T' ↔ r ∈ S ∨ (r ∈ T ∧ ∀ s ∈ S, keyEq (key r) (key s) = false) := by
  have hfind : ∀ t, S.find? ((upsertAll key).on t) = none ↔ ∀ s ∈ S, keyEq (key t) (key s) = false := by
    intro t
    rw [List.find?_eq_none]
    exact forall₂_congr fun s _ => by simp [upsertAll, MergeClauses.on]
  rw [MergeClauses.merge_eq h, List.mem_append, upsertAll_insert, List.mem_filterMap, List.mem_filter]
  constructor
  · -- a row of the result is a target row with no source row, or a source row
    rintro (⟨t, ht, hu⟩ | ⟨hr, -⟩)
    · unfold MergeClauses.update at hu
      rcases hf : S.find? ((upsertAll key).on t) with _ | s
      · rw [hf] at hu
        cases hu
        exact Or.inr ⟨ht, (hfind _).1 hf⟩
      · rw [hf] at hu
        cases hu
        exact Or.inl (List.mem_of_find?_eq_some hf)
    · exact Or.inl hr
  · rintro (hr | ⟨hr, hno⟩)
    · rcases hany : T.any fun t => keyEq (key t) (key r)
      · exact Or.inr ⟨hr, rfl⟩
      · -- the target row of this key is replaced, and `r` is the only source row of it
        obtain ⟨t, ht, hkey⟩ := List.any_eq_true.1 hany
        obtain ⟨k, htk, hrk⟩ := keyEq_iff.1 hkey
        refine Or.inl ⟨t, ht, ?_⟩
        rw [MergeClauses.update_of_key htk]
        have hlookup : lookup key S k = some r := hS.lookup_iff.2 ⟨hr, hrk⟩
        rw [show lookup (upsertAll key).sourceKey S k = some r from hlookup]
        rfl
    · refine Or.inl ⟨r, hr, ?_⟩
      rw [MergeClauses.update, (hfind r).2 hno]

/-- A row of the keyed table `R` that the sources come from is there after an upsert exactly when
it was selected or was there before: what would replace it is the row itself. -/
theorem upsertAll_mem_of_unique {r : ρ} (hR : UniqueKey key R) (hSu : UniqueKey key S)
    (hS : ∀ s ∈ S, s ∈ R) (hr : r ∈ R) (h : (upsertAll key).merge T S = some T') :
    r ∈ T' ↔ r ∈ S ∨ r ∈ T := by
  rw [upsertAll_mem hSu h]
  constructor
  · rintro (hsel | ⟨hold, -⟩)
    · exact Or.inl hsel
    · exact Or.inr hold
  · rintro (hsel | hold)
    · exact Or.inl hsel
    · by_cases hmatch : ∃ s ∈ S, keyEq (key r) (key s) = true
      · obtain ⟨s, hs, hkey⟩ := hmatch
        obtain ⟨k, hrk, hsk⟩ := keyEq_iff.1 hkey
        have hsr : s = r := hR.eq_of_key (hS s hs) hr hsk hrk
        exact Or.inl (hsr ▸ hs)
      · simp only [not_exists, not_and, Bool.not_eq_true] at hmatch
        exact Or.inr ⟨hold, hmatch⟩

/-- An upsert replaces rows and adds those it inserts. -/
theorem upsertAll_length (h : (upsertAll key).merge T S = some T') :
    T'.length = T.length + (S.filter fun s => !T.any fun t => keyEq (key t) (key s)).length := by
  have hstay : ∀ t, ((upsertAll key).update S t).isSome = true := by
    intro t
    unfold MergeClauses.update
    rcases S.find? ((upsertAll key).on t) with _ | s <;> rfl
  rw [MergeClauses.merge_eq h, List.length_append, upsertAll_insert, List.length_filterMap_eq_countP]
  congr 1
  exact List.countP_eq_length.2 fun t _ => hstay t

/-- **When an upsert changes nothing**: exactly when it selects keyed rows that the target has. -/
theorem upsertAll_self_iff (hT : UniqueKey key T) (hS : UniqueKey key S)
    (h : (upsertAll key).merge T S = some T') :
    T'.Perm T ↔ ∀ s ∈ S, key s ≠ none ∧ s ∈ T := by
  constructor
  · intro hp s hs
    refine ⟨?_, hp.mem_iff.1 ((upsertAll_mem hS h).2 (Or.inl hs))⟩
    -- a row without a key would have been inserted
    have hlen := upsertAll_length h
    rw [hp.length_eq, Nat.left_eq_add, List.length_eq_zero_iff, List.filter_eq_nil_iff] at hlen
    intro hnull
    have hany := hlen s hs
    simp [hnull] at hany
  · intro hall
    have hU : UniqueKey key T' := MergeClauses.merge_unique (m := upsertAll key) hT hS h
    have hnull : nullRows key T' = nullRows key T :=
      MergeClauses.merge_nullRows (m := upsertAll key) (fun s hs => (hall s hs).1) h
    refine perm_of_lookup hU hT (fun k => ?_) (by rw [hnull])
    rw [upsertAll_lookup hT hS h]
    rcases hs : lookup key S k with _ | s
    · rw [Option.none_or]
    · rw [Option.some_or]
      exact (hT.lookup_iff.2 ⟨(hall s (lookup_mem hs)).2, lookup_key hs⟩).symm

/-- **Upserting rows of a keyed table into a part of it completes the table**, when every
row is in one of the two. Rows that are in both are merged onto themselves. -/
theorem upsertAll_perm (hR : UniqueKey key R) (hn : ∀ r ∈ R, key r ≠ none)
    (hTu : UniqueKey key T) (hSu : UniqueKey key S) (hT : ∀ r ∈ T, r ∈ R) (hS : ∀ r ∈ S, r ∈ R)
    (hcov : ∀ r ∈ R, r ∈ T ∨ r ∈ S) (h : (upsertAll key).merge T S = some T') : T'.Perm R := by
  have hU : UniqueKey key T' := MergeClauses.merge_unique (m := upsertAll key) hTu hSu h
  have hnull : nullRows key T' = nullRows key T :=
    MergeClauses.merge_nullRows (m := upsertAll key) (fun s hs => hn s (hS s hs)) h
  refine perm_of_lookup hU hR (fun k => ?_) ?_
  · rw [upsertAll_lookup hTu hSu h]
    rcases hs : lookup key S k with _ | s
    · rw [Option.none_or]
      rcases ht : lookup key T k with _ | t
      · symm
        rw [lookup_eq_none] at hs ht ⊢
        intro r hr
        rcases hcov r hr with hm | hm
        · exact ht r hm
        · exact hs r hm
      · exact (hR.lookup_iff.2 ⟨hT t (lookup_mem ht), lookup_key ht⟩).symm
    · rw [Option.some_or]
      exact (hR.lookup_iff.2 ⟨hS s (lookup_mem hs), lookup_key hs⟩).symm
  · rw [hnull, nullRows_eq_nil.2 fun r hr => hn r (hT r hr), nullRows_eq_nil.2 hn]

/-- **When an upsert completes a part of a keyed table**: exactly when the target is in the part,
and the sources have what it lacks of it. -/
theorem upsertAll_perm_iff {V : List ρ} (hR : UniqueKey key R) (hn : ∀ r ∈ R, key r ≠ none)
    (hVu : UniqueKey key V) (hV : ∀ v ∈ V, v ∈ R) (hTu : UniqueKey key T) (hT : ∀ r ∈ T, r ∈ R)
    (hSu : UniqueKey key S) (hS : ∀ s ∈ S, s ∈ V) (h : (upsertAll key).merge T S = some T') :
    T'.Perm V ↔ (∀ r ∈ T, r ∈ V) ∧ ∀ v ∈ V, v ∉ T → v ∈ S := by
  have hmem : ∀ r ∈ R, (r ∈ T' ↔ r ∈ S ∨ r ∈ T) := fun r hr =>
    upsertAll_mem_of_unique hR hSu (fun s hs => hV s (hS s hs)) hr h
  constructor
  · intro hp
    refine ⟨fun r hr => ?_, fun v hv hnew => ?_⟩
    · exact hp.mem_iff.1 ((hmem r (hT r hr)).2 (Or.inr hr))
    · exact ((hmem v (hV v hv)).1 (hp.mem_iff.2 hv)).resolve_right hnew
  · rintro ⟨hsub, hcov⟩
    refine upsertAll_perm hVu (fun v hv => hn v (hV v hv)) hTu hSu hsub hS (fun v hv => ?_) h
    by_cases hold : v ∈ T
    · exact Or.inl hold
    · exact Or.inr (hcov v hv hold)

end SparkDev.Sql
