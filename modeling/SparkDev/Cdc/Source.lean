import SparkDev.Cdc.Sink

/-!
# The source table and its capture by Debezium

The source table changes by single-row DML, with Postgres's meaning: an insert of
a present id fails, an update or delete of an absent id touches nothing, and a
statement that changes nothing emits no event. Debezium emits an `r` event for
each row of the snapshot, then a `c`, `u` or `d` event for each later effective
statement, each `d` followed by a tombstone.

`Captured T log`: the newest event of each id in `log` leaves in a mirror exactly
what the source `T` holds. `captured_log`: the capture of every history does this.
-/

namespace SparkDev.Cdc

open Sql

/-- A row of the source table (`seed_orders`: every column is `NOT NULL`). -/
structure SourceRow where
  id : ℤ
  customer : String
  amount : ℚ
  status : String
  updated : ℤ
  deriving DecidableEq, Repr

/-- The primary key. -/
def SourceRow.key (r : SourceRow) : Option ℤ := some r.id

/-- The row image of an event about the row. -/
def SourceRow.image (r : SourceRow) : RowImage :=
  ⟨some r.id, some r.customer, some r.amount, some r.status, some r.updated⟩

/-- The row as the mirror should hold it. -/
def SourceRow.mirrored (r : SourceRow) : MirrorRow :=
  ⟨some r.id, some r.customer, some r.amount, some r.status, some r.updated⟩

theorem mirrored_id (r : SourceRow) : r.mirrored.id = r.key := rfl

/-- Every mirrored row has an id. -/
theorem nullRows_mirrored (S : List SourceRow) :
    nullRows MirrorRow.id (S.map SourceRow.mirrored) = [] := by
  rw [nullRows_eq_nil]
  intro r hr
  obtain ⟨s, -, rfl⟩ := List.mem_map.1 hr
  simp [SourceRow.mirrored]

/-- `seed_orders`; `clock` gives the `DEFAULT now()` of each row. -/
def seedOrders (clock : ℕ → ℤ) (n : ℕ) : List SourceRow :=
  (List.range n).map fun i : ℕ =>
    ⟨(i : ℤ), "cust-" ++ toString (i % 7), 10 + (i : ℚ) * (3 / 2), "NEW", clock i⟩

theorem mem_seedOrders {clock : ℕ → ℤ} {n : ℕ} {r : SourceRow} : r ∈ seedOrders clock n ↔ ∃ i < n,
    r = ⟨(i : ℤ), "cust-" ++ toString (i % 7), 10 + (i : ℚ) * (3 / 2), "NEW", clock i⟩ := by
  unfold seedOrders
  rw [List.mem_map]
  constructor
  · rintro ⟨i, hi, rfl⟩
    exact ⟨i, List.mem_range.1 hi, rfl⟩
  · rintro ⟨i, hi, rfl⟩
    exact ⟨i, List.mem_range.2 hi, rfl⟩

theorem seedOrders_unique (clock : ℕ → ℤ) (n : ℕ) : UniqueKey SourceRow.key (seedOrders clock n) := by
  refine unique_of_nodup_map ?_
  unfold seedOrders
  rw [List.map_map]
  refine List.Nodup.map (fun i j h => ?_) List.nodup_range
  have hij : (i : ℤ) = j := Option.some.inj h
  omega

/-- A committed single-row statement. An update gives the row's new contents. -/
inductive Dml where
  | insert (r : SourceRow)
  | update (r : SourceRow)
  | delete (id : ℤ)
  deriving DecidableEq, Repr

/-- The id a statement is about. -/
def Dml.id : Dml → ℤ
  | .insert r => r.id
  | .update r => r.id
  | .delete k => k

/-- The source table after a statement. -/
def Dml.exec (T : List SourceRow) : Dml → List SourceRow
  | .insert r => if lookup SourceRow.key T r.id = none then T ++ [r] else T
  | .update r => T.map fun x => if x.id = r.id then r else x
  | .delete k => T.filter fun x => decide (x.id ≠ k)

/-- The row a statement writes under its id, `none` for a delete. -/
def Dml.row : Dml → Option SourceRow
  | .insert r => some r
  | .update r => some r
  | .delete _ => none

/-- The statement finds what it needs: an insert a free id, any other one a row. -/
def Dml.Effective (T : List SourceRow) : Dml → Prop
  | .insert r => lookup SourceRow.key T r.id = none
  | .update r => lookup SourceRow.key T r.id ≠ none
  | .delete k => lookup SourceRow.key T k ≠ none

/-- The source table after a list of statements. -/
def execAll (T : List SourceRow) (ops : List Dml) : List SourceRow := ops.foldl Dml.exec T

/-- How the table's replica identity fills `before`: for an update anything, for a delete
at least the primary key. -/
structure Replica where
  updated : SourceRow → Option RowImage
  deleted : SourceRow → RowImage
  deleted_id : ∀ r, (deleted r).id = some r.id

variable (rep : Replica)

/-- The records Debezium emits for a statement on table `T`. -/
def Replica.events (T : List SourceRow) (lsn : Option ℤ) : Dml → List Record
  | .insert r =>
    match lookup SourceRow.key T r.id with
    | none => [⟨some ⟨none, some r.image, some .c, lsn⟩⟩]
    | some _ => []
  | .update r =>
    match lookup SourceRow.key T r.id with
    | none => []
    | some old => [⟨some ⟨rep.updated old, some r.image, some .u, lsn⟩⟩]
  | .delete k =>
    match lookup SourceRow.key T k with
    | none => []
    | some old => [⟨some ⟨some (rep.deleted old), none, some .d, lsn⟩⟩, ⟨none⟩]

/-- The snapshot event of a row. -/
def snapshotEvent (lsn : Option ℤ) (r : SourceRow) : Record :=
  ⟨some ⟨none, some r.image, some .r, lsn⟩⟩

/-- The records of statements committed after the snapshot. -/
def Replica.live : List SourceRow → List (Dml × Option ℤ) → List Record
  | _, [] => []
  | T, (op, lsn) :: ops => rep.events T lsn op ++ Replica.live (op.exec T) ops

/-- A history of the source: the statements before the snapshot, the LSN of each row's
snapshot event, the statements after it with the LSNs of their events. -/
structure History where
  before : List Dml
  snapLsn : ℤ → Option ℤ
  after : List (Dml × Option ℤ)

/-- The table the snapshot reads. -/
def History.snapshot (h : History) : List SourceRow := execAll [] h.before

/-- The table in the end. -/
def History.table (h : History) : List SourceRow := execAll h.snapshot (h.after.map Prod.fst)

/-- The topic, in commit order. -/
def History.log (h : History) : List Record :=
  h.snapshot.map (fun r => snapshotEvent (h.snapLsn r.id) r) ++ rep.live h.snapshot h.after

/-- `REPLICA IDENTITY DEFAULT`: no `before` for an update, the primary key for a delete. -/
def Replica.keyOnly : Replica where
  updated _ := none
  deleted r := ⟨some r.id, none, none, none, none⟩
  deleted_id _ := rfl

/-- A short history: one row updated, one deleted and inserted again. -/
def History.short : History where
  before := [.insert ⟨1, "ann", 10, "NEW", 0⟩, .insert ⟨2, "bob", 20, "NEW", 0⟩]
  snapLsn _ := some 10
  after := [(.update ⟨1, "ann", 777, "PAID", 0⟩, some 11), (.delete 2, some 12),
    (.insert ⟨2, "cat", 5, "NEW", 1⟩, some 13)]

variable {T : List SourceRow} {log evs : List Record} {r : SourceRow} {k : ℤ} {lsn : Option ℤ}

/-! ## The source table -/

theorem exec_unique (hT : UniqueKey SourceRow.key T) (op : Dml) : UniqueKey SourceRow.key (op.exec T) := by
  cases op with
  | insert r =>
    simp only [Dml.exec]
    split
    · rename_i hn
      unfold UniqueKey
      rw [List.filterMap_append, List.nodup_append]
      refine ⟨hT, List.nodup_singleton _, ?_⟩
      intro a ha b hb hab
      obtain ⟨x, hx, hxa⟩ := List.mem_filterMap.1 ha
      have hbr : b = r.id := List.mem_singleton.1 hb
      subst hab
      subst hbr
      exact lookup_eq_none.1 hn x hx hxa
    · exact hT
  | update r =>
    have he : (T.map fun x => if x.id = r.id then r else x).filterMap SourceRow.key =
        T.filterMap SourceRow.key := by
      rw [List.filterMap_map]
      refine List.filterMap_congr fun x _ => ?_
      simp only [Function.comp_apply, SourceRow.key]
      split
      · rename_i h; rw [h]
      · rfl
    simp only [Dml.exec]
    unfold UniqueKey
    rw [he]
    exact hT
  | delete k => exact hT.filter _

theorem execAll_unique (ops : List Dml) (hT : UniqueKey SourceRow.key T) :
    UniqueKey SourceRow.key (execAll T ops) := by
  induction ops generalizing T with
  | nil => exact hT
  | cons op ops ih => exact ih (exec_unique hT op)

/-- **A statement touches its own id only.** -/
theorem exec_other (op : Dml) (hk : k ≠ op.id) :
    lookup SourceRow.key (op.exec T) k = lookup SourceRow.key T k := by
  cases op with
  | insert r =>
    simp only [Dml.exec]
    split
    · unfold lookup
      rw [List.find?_append]
      have hne : ¬ r.id = k := fun h => hk h.symm
      simp [SourceRow.key, hne]
    · rfl
  | update r =>
    simp only [Dml.id] at hk
    simp only [Dml.exec]
    -- an update keeps the ids, so a lookup of another id goes past the same rows
    induction T with
    | nil => rfl
    | cons x T ih =>
      unfold lookup at ih ⊢
      rw [List.map_cons]
      by_cases hx : x.id = r.id
      · rw [if_pos hx, List.find?_cons_of_neg (by simpa [SourceRow.key] using Ne.symm hk),
          List.find?_cons_of_neg (by simpa [SourceRow.key, hx] using Ne.symm hk)]
        exact ih
      · rw [if_neg hx]
        by_cases hxk : x.id = k
        · rw [List.find?_cons_of_pos (by simp [SourceRow.key, hxk]),
            List.find?_cons_of_pos (by simp [SourceRow.key, hxk])]
        · rw [List.find?_cons_of_neg (by simpa [SourceRow.key] using hxk),
            List.find?_cons_of_neg (by simpa [SourceRow.key] using hxk)]
          exact ih
  | delete k' =>
    simp only [Dml.id] at hk
    simp only [Dml.exec]
    unfold lookup
    rw [List.find?_filter]
    congr 1
    funext x
    by_cases hx : x.id = k
    · simp [SourceRow.key, hx, hk]
    · simp [SourceRow.key, hx]

/-- **The row under the statement's own id** is the one it writes. -/
theorem exec_self {op : Dml} (hT : UniqueKey SourceRow.key T) (h : op.Effective T) :
    lookup SourceRow.key (op.exec T) op.id = op.row := by
  have hU := exec_unique hT op
  rcases op with r | r | k
  · refine hU.lookup_iff.2 ⟨?_, rfl⟩
    have hexec : (Dml.insert r).exec T = T ++ [r] := if_pos h
    rw [hexec]
    exact List.mem_append_right _ (List.mem_singleton_self r)
  · obtain ⟨old, hold⟩ := Option.ne_none_iff_exists'.1 h
    have hkey : old.key = some r.id := lookup_key hold
    have hid : old.id = r.id := Option.some.inj hkey
    refine hU.lookup_iff.2 ⟨List.mem_map.2 ⟨old, lookup_mem hold, ?_⟩, rfl⟩
    rw [if_pos hid]
  · refine lookup_eq_none.2 fun x hx => ?_
    simpa [SourceRow.key, Dml.id] using (List.mem_filter.1 hx).2

/-- A row of a table after a statement was there before or is the statement's. -/
theorem mem_exec {op : Dml} (h : r ∈ op.exec T) : r ∈ T ∨ op.row = some r := by
  rcases op with r' | r' | k
  · simp only [Dml.exec] at h
    split at h
    · rcases List.mem_append.1 h with h | h
      · exact Or.inl h
      · rw [List.mem_singleton.1 h]
        exact Or.inr rfl
    · exact Or.inl h
  · obtain ⟨x, hx, rfl⟩ := List.mem_map.1 h
    split
    · exact Or.inr rfl
    · exact Or.inl hx
  · exact Or.inl (List.mem_filter.1 h).1

/-! ## The capture -/

/-- The change row of a snapshot event. -/
def snapshotChange (lsn : Option ℤ) (r : SourceRow) : Change :=
  ⟨.r, lsn, some r.id, some r.customer, some r.amount, some r.status, some r.updated⟩

theorem changes_snapshot (lsn : SourceRow → Option ℤ) (rows : List SourceRow) :
    changes (rows.map fun r => snapshotEvent (lsn r) r) = rows.map fun r => snapshotChange (lsn r) r := by
  induction rows with
  | nil => rfl
  | cons r rows ih =>
    have hone : changes [snapshotEvent (lsn r) r] = [snapshotChange (lsn r) r] := rfl
    rw [List.map_cons, List.map_cons, ← List.singleton_append, changes_append, hone, ih,
      List.singleton_append]

/-- The newest event of each id in `log` leaves in a mirror what the source `T` holds. -/
structure Captured (T : List SourceRow) (log : List Record) : Prop where
  unique : UniqueKey SourceRow.key T
  identified : Identified log
  row : ∀ k, (lookup SourceRow.key T k).map SourceRow.mirrored =
    (newestChange log k).bind Change.landed

theorem newest_singleton (c : Change) (k : ℤ) :
    newest Change.id Change.lsn [c] k = if c.id = some k then some c else none := by
  unfold newest lookup
  by_cases h : c.id = some k <;> simp [rowNumberOne, h]

/-- Appending the event of one id. -/
theorem Captured.extend (h : Captured T log) {T' : List SourceRow} {c : Change} {k₀ : ℤ}
    (hc : changes evs = [c]) (hid : c.id = some k₀) (hU : UniqueKey SourceRow.key T')
    (hself : (lookup SourceRow.key T' k₀).map SourceRow.mirrored = c.landed)
    (hother : ∀ k, k ≠ k₀ → lookup SourceRow.key T' k = lookup SourceRow.key T k)
    (hl : LsnIncreasing (log ++ evs)) : Captured T' (log ++ evs) := by
  have hid' : Identified (log ++ evs) := by
    intro c' hc'
    rw [changes_append, hc, List.mem_append, List.mem_singleton] at hc'
    rcases hc' with hc' | rfl
    · exact h.identified c' hc'
    · rw [hid]; simp
  refine ⟨hU, hid', fun k => ?_⟩
  have hn : newestChange evs k = if c.id = some k then some c else none := by
    unfold newestChange
    rw [hc, newest_singleton]
  rw [newestChange_append hl hid', hn]
  by_cases hk : k = k₀
  · subst hk
    rw [if_pos hid, Option.some_or, Option.bind_some, hself]
  · have hne : ¬ c.id = some k := by rw [hid]; simpa using Ne.symm hk
    rw [if_neg hne, Option.none_or, hother k hk, h.row k]

/-- A statement that does not find what it needs changes and emits nothing. -/
theorem events_of_not_effective {op : Dml} (lsn : Option ℤ) (h : ¬op.Effective T) :
    op.exec T = T ∧ rep.events T lsn op = [] := by
  rcases op with r | r | k
  · obtain ⟨old, hold⟩ := Option.ne_none_iff_exists'.1 h
    simp [Dml.exec, Replica.events, hold]
  · have hnone : lookup SourceRow.key T r.id = none := not_not.1 h
    refine ⟨(List.map_congr_left fun x hx => ?_).trans (List.map_id T), by simp [Replica.events, hnone]⟩
    have hne : ¬ x.id = r.id := fun he => lookup_eq_none.1 hnone x hx (by rw [SourceRow.key, he])
    rw [if_neg hne, id]
  · have hnone : lookup SourceRow.key T k = none := not_not.1 h
    refine ⟨List.filter_eq_self.2 fun x hx => ?_, by simp [Replica.events, hnone]⟩
    simpa [SourceRow.key] using lookup_eq_none.1 hnone x hx

/-- Every other one emits one change, which lands the row it writes. -/
theorem events_of_effective {op : Dml} (lsn : Option ℤ) (h : op.Effective T) :
    ∃ c, changes (rep.events T lsn op) = [c] ∧ c.lsn = lsn ∧ c.id = some op.id ∧
      c.landed = op.row.map SourceRow.mirrored := by
  rcases op with r | r | k
  · simp only [Replica.events]
    rw [h]
    exact ⟨_, rfl, rfl, rfl, rfl⟩
  · obtain ⟨old, hold⟩ := Option.ne_none_iff_exists'.1 h
    simp only [Replica.events]
    rw [hold]
    exact ⟨_, rfl, rfl, rfl, rfl⟩
  · obtain ⟨old, hold⟩ := Option.ne_none_iff_exists'.1 h
    -- the id comes from `before`; the tombstone adds no change
    have hkey : old.key = some k := lookup_key hold
    have hid : (rep.deleted old).id = some k := (rep.deleted_id old).trans hkey
    simp only [Replica.events]
    rw [hold]
    exact ⟨_, rfl, rfl, hid, rfl⟩

/-- **One statement**, with the events emitted for it. -/
theorem Captured.exec (h : Captured T log) (op : Dml) (hl : LsnIncreasing (log ++ rep.events T lsn op)) :
    Captured (op.exec T) (log ++ rep.events T lsn op) := by
  by_cases heff : op.Effective T
  · obtain ⟨c, hc, -, hid, hland⟩ := events_of_effective rep lsn heff
    have hself : (lookup SourceRow.key (op.exec T) op.id).map SourceRow.mirrored = c.landed := by
      rw [exec_self h.unique heff, hland]
    exact h.extend hc hid (exec_unique h.unique op) hself (fun k hk => exec_other op hk) hl
  · obtain ⟨hexec, hnil⟩ := events_of_not_effective rep lsn heff
    rw [hexec, hnil, List.append_nil]
    exact h

/-- **The statements after the snapshot.** -/
theorem Captured.live (ops : List (Dml × Option ℤ)) (h : Captured T log)
    (hl : LsnIncreasing (log ++ rep.live T ops)) :
    Captured (execAll T (ops.map Prod.fst)) (log ++ rep.live T ops) := by
  induction ops generalizing T log with
  | nil => simpa [Replica.live, execAll] using h
  | cons p ops ih =>
    obtain ⟨op, lsn⟩ := p
    rw [Replica.live, ← List.append_assoc] at hl ⊢
    exact ih (h.exec rep op hl.append_left) hl

/-- **The snapshot.** -/
theorem captured_snapshot (hT : UniqueKey SourceRow.key T) (snapLsn : ℤ → Option ℤ)
    (hl : LsnIncreasing (T.map fun r => snapshotEvent (snapLsn r.id) r)) :
    Captured T (T.map fun r => snapshotEvent (snapLsn r.id) r) := by
  set log := T.map fun r => snapshotEvent (snapLsn r.id) r with hlog
  have hmem : ∀ c, c ∈ changes log ↔ ∃ r ∈ T, snapshotChange (snapLsn r.id) r = c := by
    intro c
    rw [hlog, changes_snapshot fun r => snapLsn r.id, List.mem_map]
  have hid : Identified log := by
    intro c hc
    obtain ⟨r, -, rfl⟩ := (hmem c).1 hc
    exact Option.some_ne_none r.id
  refine ⟨hT, hid, fun k => ?_⟩
  rcases hlk : lookup SourceRow.key T k with _ | r
  · have hn : newestChange log k = none := by
      rw [newest_eq_none]
      intro c hc hck
      obtain ⟨r, hr, rfl⟩ := (hmem c).1 hc
      exact lookup_eq_none.1 hlk r hr hck
    rw [hn]
    rfl
  · have hn : newestChange log k = some (snapshotChange (snapLsn r.id) r) := by
      rw [newest_eq_some (hl.wellStamped hid)]
      have hrk : r.key = some k := lookup_key hlk
      refine ⟨(hmem _).2 ⟨r, lookup_mem hlk, rfl⟩, hrk, ?_⟩
      intro c hc hck x hx y hy
      -- the snapshot has one event of this id
      obtain ⟨r', hr', rfl⟩ := (hmem c).1 hc
      have hrr := hT.eq_of_key hr' (lookup_mem hlk) hck hrk
      rw [hrr] at hx
      exact (Option.mem_unique hx hy).le
    rw [hn]
    rfl

/-- The order of the source's rows does not matter. -/
theorem Captured.perm {T' : List SourceRow} (h : Captured T log) (hp : T.Perm T') : Captured T' log :=
  ⟨h.unique.perm hp, h.identified, fun k => by rw [← h.unique.lookup_perm hp]; exact h.row k⟩

/-- **The capture of every history leads a mirror to the source's final rows.** -/
theorem captured_log (h : History) (hl : LsnIncreasing (h.log rep)) :
    Captured h.table (h.log rep) :=
  (captured_snapshot (execAll_unique _ unique_nil) h.snapLsn hl.append_left).live rep h.after hl

end SparkDev.Cdc
