import SparkDev.Cdc.Source
import SparkDev.Runs.Chain

/-!
# The mirror equals the source

* `ingest_eq_source`: a bounded read of the topic, in any order and with any
  copies, merged into the freshly created mirror gives the source's final rows.
* `batches_lookup`: what a sequence of micro-batches leaves under an id is what
  the newest event of the whole log leaves there.
* `batches_eq_whole`: cutting the log into micro-batches does not matter, and
  replaying the last batch changes nothing.
-/

namespace SparkDev.Cdc

open Sql Runs

/-- `DROP`, `CREATE`, then one `MERGE` of what was read (`ingest`). -/
def Ingest (raw : List Record) (T : List MirrorRow) : Prop := Upsert [] raw T

variable {T T' : List MirrorRow} {log batch : List Record} {tr : List (List Record × List MirrorRow)}

/-- The mirror of a captured log holds the source's rows. -/
theorem ingest_captured {S : List SourceRow} (hS : Captured S log) (hlsn : LsnIncreasing log)
    {delivered : List Record} (hdel : ∀ rec, rec ∈ delivered ↔ rec ∈ log) (h : Ingest delivered T) :
    T.Perm (S.map SourceRow.mirrored) := by
  have hw := hlsn.wellStamped hS.identified
  have hwd := wellStamped_of_subset hw fun rec hr => (hdel rec).1 hr
  have hT : UniqueKey MirrorRow.id T := upsert_unique unique_nil h
  refine perm_of_lookup hT (hS.unique.map mirrored_id) (fun k => ?_) ?_
  · have hn : newestChange delivered k = newestChange log k :=
      newest_congr hw (mem_changes_congr hdel) k
    rw [lookup_map mirrored_id, hS.row k, upsert_lookup unique_nil hwd h k, hn]
    cases newestChange log k <;> rfl
  · -- neither side has a row without an id
    have h0 : nullRows MirrorRow.id T = [] := by
      rw [upsert_nullRows hwd.key_ne h]
      rfl
    rw [h0, nullRows_mirrored]

/-- **The CDC mirror equals the source.** For every history of the source and every delivery
of its log (any order, any copies of any record), the ingest succeeds and leaves exactly the
source's final rows, whichever row the window picks among duplicates. -/
theorem ingest_eq_source (rep : Replica) (h : History) (hlsn : LsnIncreasing (h.log rep))
    (delivered : List Record) (hdel : ∀ rec, rec ∈ delivered ↔ rec ∈ h.log rep) :
    (∃ T, Ingest delivered T) ∧
      ∀ T, Ingest delivered T →
        T.Perm (h.table.map SourceRow.mirrored) ∧ UniqueKey MirrorRow.id T :=
  ⟨upsert_exists [] delivered, fun _ hT =>
    ⟨ingest_captured (captured_log rep h hlsn) hlsn hdel hT, upsert_unique unique_nil hT⟩⟩

/-- The short history, delivered backwards and then once more. -/
theorem ingest_eq_source_short :
    LsnIncreasing (History.short.log Replica.keyOnly) ∧
      ∃ T, Ingest ((History.short.log Replica.keyOnly).reverse ++ History.short.log Replica.keyOnly) T ∧
        T.Perm [⟨some 1, some "ann", some 777, some "PAID", some 0⟩,
          ⟨some 2, some "cat", some 5, some "NEW", some 1⟩] := by
  have hlsn : LsnIncreasing (History.short.log Replica.keyOnly) := ⟨by decide, by decide⟩
  obtain ⟨⟨T, hT⟩, hall⟩ := ingest_eq_source Replica.keyOnly History.short hlsn
    ((History.short.log Replica.keyOnly).reverse ++ History.short.log Replica.keyOnly) (by simp)
  exact ⟨hlsn, T, hT, (hall T hT).1⟩

/-! ## Micro-batches -/

theorem landing_or (x y : Option Change) (o : Option MirrorRow) :
    landing (x.or y) o = landing x (landing y o) := by
  cases x <;> rfl

/-- The log a run of micro-batches has applied. -/
def applied (tr : List (List Record × List MirrorRow)) : List Record := (tr.map Prod.fst).flatten

@[simp] theorem applied_nil : applied [] = [] := rfl

@[simp] theorem applied_cons (b : List Record) (T : List MirrorRow) :
    applied ((b, T) :: tr) = b ++ applied tr := rfl

/-- **Batch by batch.** After the batches an id holds what its newest event of the whole log
says; ids stay unique and rows without an id are untouched. -/
theorem batches_lookup (tr : List (List Record × List MirrorRow)) :
    ∀ T, UniqueKey MirrorRow.id T → Identified (applied tr) → LsnIncreasing (applied tr) →
      Chain Upsert T tr →
        UniqueKey MirrorRow.id (final T tr) ∧
        nullRows MirrorRow.id (final T tr) = nullRows MirrorRow.id T ∧
        ∀ k, lookup MirrorRow.id (final T tr) k =
          landing (newestChange (applied tr) k) (lookup MirrorRow.id T k) := by
  induction tr with
  | nil => intro T hT _ _ _; exact ⟨hT, rfl, fun _ => rfl⟩
  | cons p tr ih =>
    intro T hT hid hlsn hc
    obtain ⟨b, T₁⟩ := p
    rw [applied_cons] at hid hlsn
    obtain ⟨hidb, hidr⟩ := identified_append.1 hid
    obtain ⟨hb, hc⟩ := hc
    have hU₁ := upsert_unique hT hb
    obtain ⟨hU, hn, hl⟩ := ih T₁ hU₁ hidr hlsn.append_right hc
    refine ⟨hU, hn.trans (upsert_nullRows hidb hb), fun k => ?_⟩
    rw [final_cons, applied_cons, hl k, newestChange_append hlsn hid, landing_or,
      upsert_lookup hT (hlsn.append_left.wellStamped hidb) hb]

theorem batches_unique (tr : List (List Record × List MirrorRow)) (T : List MirrorRow)
    (hT : UniqueKey MirrorRow.id T) (hc : Chain Upsert T tr) :
    Chain (fun _ _ T' => UniqueKey MirrorRow.id T') T tr :=
  chain_of_invariant (I := UniqueKey MirrorRow.id) (fun _ _ _ hs h => upsert_unique hs h)
    (fun _ _ _ hs h => upsert_unique hs h) tr T hT hc

/-- Every cut of the log can be applied. -/
theorem batches_exist : ∀ (batches : List (List Record)) (T : List MirrorRow),
    ∃ tr, tr.map Prod.fst = batches ∧ Chain Upsert T tr := by
  intro batches
  induction batches with
  | nil => intro T; exact ⟨[], rfl, trivial⟩
  | cons b batches ih =>
    intro T
    obtain ⟨T₁, h₁⟩ := upsert_exists T b
    obtain ⟨tr, htr, hc⟩ := ih T₁
    exact ⟨(b, T₁) :: tr, by rw [List.map_cons, htr], h₁, hc⟩

/-- Two sink runs that leave the same lookups and null rows leave the same bag. -/
theorem mirror_perm (hT : UniqueKey MirrorRow.id T) (hT' : UniqueKey MirrorRow.id T')
    (hl : ∀ k, lookup MirrorRow.id T k = lookup MirrorRow.id T' k)
    (hn : nullRows MirrorRow.id T = nullRows MirrorRow.id T') : T.Perm T' :=
  perm_of_lookup hT hT' hl (by rw [hn])

/-- **Micro-batch split invariance.** However the log is cut into consecutive batches, applying
them one by one gives the mirror one application of the whole log gives, ids stay unique after
every batch, and applying the last batch once more changes nothing. -/
theorem batches_eq_whole (log : List Record) (hid : Identified log) (hlsn : LsnIncreasing log)
    (batches : List (List Record)) (hcut : batches.flatten = log) (T : List MirrorRow)
    (hT : UniqueKey MirrorRow.id T) :
    (∃ tr, tr.map Prod.fst = batches ∧ Chain Upsert T tr) ∧ (∃ W, Upsert T log W) ∧
      ∀ tr, tr.map Prod.fst = batches → Chain Upsert T tr →
        Chain (fun _ _ T' => UniqueKey MirrorRow.id T') T tr ∧
        (∀ W, Upsert T log W → (final T tr).Perm W) ∧
        ∀ b, batches.getLast? = some b → ∀ T', Upsert (final T tr) b T' → T'.Perm (final T tr) := by
  refine ⟨batches_exist batches T, upsert_exists T log, fun tr htr hc => ?_⟩
  have happ : applied tr = log := by unfold applied; rw [htr, hcut]
  obtain ⟨hU, hn, hl⟩ := batches_lookup tr T hT (happ ▸ hid) (happ ▸ hlsn) hc
  rw [happ] at hl
  have hw := hlsn.wellStamped hid
  refine ⟨batches_unique tr T hT hc, fun W hW => ?_, fun b hb T' hT' => ?_⟩
  · -- both leave the landing of the newest event of each id
    refine mirror_perm hU (upsert_unique hT hW) (fun k => ?_) (hn.trans (upsert_nullRows hid hW).symm)
    rw [hl k, upsert_lookup hT hw hW k]
  · -- the last batch is a suffix of the log, so its newest events are the log's
    obtain ⟨pre, hpre⟩ : ∃ pre, log = pre ++ b := by
      obtain ⟨bs, rfl⟩ := List.getLast?_eq_some_iff.1 hb
      exact ⟨bs.flatten, by rw [← hcut]; simp⟩
    subst hpre
    obtain ⟨-, hidb⟩ := identified_append.1 hid
    refine mirror_perm (upsert_unique hU hT') hU (fun k => ?_) (upsert_nullRows hidb hT')
    rw [upsert_lookup hU (hlsn.append_right.wellStamped hidb) hT', hl k, newestChange_append hlsn hid,
      landing_or]
    cases newestChange b k <;> rfl

/-- The log of the short history in three batches, one of them empty. -/
theorem batches_eq_whole_short :
    ∃ tr, tr.map Prod.fst = [(History.short.log Replica.keyOnly).take 3, [],
        (History.short.log Replica.keyOnly).drop 3] ∧ Chain Upsert [] tr ∧
      ∀ W, Upsert [] (History.short.log Replica.keyOnly) W → (final [] tr).Perm W := by
  obtain ⟨⟨tr, htr, hc⟩, -, h⟩ := batches_eq_whole (History.short.log Replica.keyOnly) (by decide)
    ⟨by decide, by decide⟩ [(History.short.log Replica.keyOnly).take 3, [],
      (History.short.log Replica.keyOnly).drop 3] (by decide) [] unique_nil
  exact ⟨tr, htr, hc, (h tr htr hc).2.1⟩

end SparkDev.Cdc
