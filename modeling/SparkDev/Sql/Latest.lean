import SparkDev.Sql.Merge
import SparkDev.Sql.Window

/-!
# Keep the newest event of each key, then `MERGE`

Events carry a nullable key and a nullable stamp. The upsert pattern keeps, for
each key, a row with `row_number() over (partition by key order by stamp desc
nulls last) = 1`, and merges what is left.

* `newest`: the event of a key with the highest stamp. It depends on the events
  only as a set (`newest_congr`), so neither their order nor repeated copies
  matter, and on a log in stamp order the later part wins (`newest_append`).
* `DedupMerge`: the dedup and the `MERGE`, whatever row the window picks on ties.
  It always succeeds and acts on each key by its newest event
  (`dedupMerge_lookup`).
-/

namespace SparkDev.Sql

variable {α β κ τ : Type*} {key : α → Option κ} {stamp : α → Option β} {es es' : List α} {e : α} {k : κ}

/-! ## Well-stamped logs -/

/-- Every event has a key and a stamp, and an event is determined by the two. -/
structure WellStamped (key : α → Option κ) (stamp : α → Option β) (es : List α) : Prop where
  key_ne : ∀ e ∈ es, key e ≠ none
  stamp_ne : ∀ e ∈ es, stamp e ≠ none
  inj : ∀ e ∈ es, ∀ e' ∈ es, key e = key e' → stamp e = stamp e' → e = e'

theorem WellStamped.mono (h : WellStamped key stamp es) (hs : ∀ e ∈ es', e ∈ es) :
    WellStamped key stamp es' where
  key_ne e he := h.key_ne e (hs e he)
  stamp_ne e he := h.stamp_ne e (hs e he)
  inj e he e' he' := h.inj e (hs e he) e' (hs e' he')

variable [LinearOrder β]

/-- The stamps of one key are present and strictly increase along the log. -/
structure Increasing (key : α → Option κ) (stamp : α → Option β) (es : List α) : Prop where
  stamp_ne : ∀ e ∈ es, stamp e ≠ none
  lt : es.Pairwise fun e e' => key e = key e' → ∀ x ∈ stamp e, ∀ y ∈ stamp e', x < y

/-- A log in stamp order has no two events of one key with the same stamp. -/
theorem Increasing.wellStamped (h : Increasing key stamp es) (hk : ∀ e ∈ es, key e ≠ none) :
    WellStamped key stamp es := by
  refine ⟨hk, h.stamp_ne, ?_⟩
  have hfwd : es.Pairwise fun e e' => key e = key e' → stamp e = stamp e' → e = e' := by
    refine List.Pairwise.imp_of_mem ?_ h.lt
    intro e e' he _ hlt hkk hss
    obtain ⟨x, hx⟩ := Option.ne_none_iff_exists'.1 (h.stamp_ne e he)
    exact absurd (hlt hkk x hx x (hss.symm.trans hx)) (lt_irrefl x)
  have hbwd : es.Pairwise fun e e' => key e' = key e → stamp e' = stamp e → e' = e :=
    hfwd.imp fun hf hkk hss => (hf hkk.symm hss.symm).symm
  exact fun e he e' he' => hfwd.forall_of_forall_of_flip (fun _ _ _ _ => rfl) hbwd he he'

theorem Increasing.append_left (h : Increasing key stamp (es ++ es')) : Increasing key stamp es :=
  ⟨fun e he => h.stamp_ne e (List.mem_append_left _ he), (List.pairwise_append.1 h.lt).1⟩

theorem Increasing.append_right (h : Increasing key stamp (es ++ es')) : Increasing key stamp es' :=
  ⟨fun e he => h.stamp_ne e (List.mem_append_right _ he), (List.pairwise_append.1 h.lt).2.1⟩

/-- On a well-stamped log, an event whose stamp no other of its key exceeds is sorted
before all of them. -/
theorem WellStamped.before_of_max (h : WellStamped key stamp es) (he : e ∈ es)
    (hmax : ∀ c ∈ es, key c = key e → ∀ x ∈ stamp c, ∀ y ∈ stamp e, x ≤ y) :
    ∀ c ∈ es, key c = key e → c ≠ e → (RowOrder.descNullsLast stamp).before e c = true := by
  intro c hc hkk hne
  obtain ⟨x, hx⟩ := Option.ne_none_iff_exists'.1 (h.stamp_ne c hc)
  obtain ⟨y, hy⟩ := Option.ne_none_iff_exists'.1 (h.stamp_ne e he)
  have hxy : x ≠ y := fun hxy => hne (h.inj c hc e he hkk (by rw [hx, hy, hxy]))
  simp only [RowOrder.descNullsLast, hx, hy, decide_eq_true_eq]
  exact lt_of_le_of_ne (hmax c hc hkk x hx y hy) hxy

/-- What a window result says about one of its rows, on a well-stamped log. -/
theorem RowNumberOne.max {out : List α}
    (h : RowNumberOne key (RowOrder.descNullsLast stamp) es out) (he : e ∈ out) :
    ∀ c ∈ es, key c = key e → ∀ x ∈ stamp c, ∀ y ∈ stamp e, x ≤ y := by
  intro c hc hkk x hx y hy
  have ht := h.top e he c hc hkk
  rw [Option.mem_def] at hx hy
  simpa [RowOrder.descNullsLast, hx, hy] using ht

/-! ## The newest event -/

variable [DecidableEq κ]

/-- The event of key `k` with the highest stamp. -/
def newest (key : α → Option κ) (stamp : α → Option β) (es : List α) (k : κ) : Option α :=
  lookup key (rowNumberOne key (RowOrder.descNullsLast stamp) es) k

/-- **The newest event of a key**, on a well-stamped log. -/
theorem newest_eq_some (h : WellStamped key stamp es) :
    newest key stamp es k = some e ↔ e ∈ es ∧ key e = some k ∧
      ∀ c ∈ es, key c = some k → ∀ x ∈ stamp c, ∀ y ∈ stamp e, x ≤ y := by
  have hr := rowNumberOne_spec key (RowOrder.descNullsLast stamp) es
  unfold newest
  rw [hr.unique.lookup_iff]
  constructor
  · rintro ⟨he, hk⟩
    refine ⟨hr.mem e he, hk, fun c hc hck => ?_⟩
    exact hr.max he c hc (hck.trans hk.symm)
  · rintro ⟨he, hk, hmax⟩
    refine ⟨hr.mem_of_top he ?_, hk⟩
    exact h.before_of_max he fun c hc hck => hmax c hc (hck.trans hk)

theorem newest_eq_none : newest key stamp es k = none ↔ ∀ c ∈ es, key c ≠ some k := by
  have hr := rowNumberOne_spec key (RowOrder.descNullsLast stamp) es
  unfold newest
  rw [lookup_eq_none]
  constructor
  · intro h c hc hck
    obtain ⟨s, hs, hsc⟩ := hr.cover c hc
    exact h s hs (hsc.trans hck)
  · intro h s hs
    exact h s (hr.mem s hs)

theorem newest_mem (h : newest key stamp es k = some e) : e ∈ es :=
  (rowNumberOne_spec key (RowOrder.descNullsLast stamp) es).mem e (lookup_mem h)

theorem newest_key (h : newest key stamp es k = some e) : key e = some k := lookup_key h

/-- **Neither the order of the events nor repeated copies matter.** -/
theorem newest_congr (h : WellStamped key stamp es) (hm : ∀ e, e ∈ es' ↔ e ∈ es) (k : κ) :
    newest key stamp es' k = newest key stamp es k := by
  have h' : WellStamped key stamp es' := h.mono fun e he => (hm e).1 he
  apply Option.ext
  intro e
  rw [newest_eq_some h', newest_eq_some h]
  simp only [hm]

/-- **On a log in stamp order the later part wins.** -/
theorem newest_append (h : Increasing key stamp (es ++ es')) (hk : ∀ e ∈ es ++ es', key e ≠ none)
    (k : κ) : newest key stamp (es ++ es') k =
      (newest key stamp es' k).or (newest key stamp es k) := by
  have hw := h.wellStamped hk
  have hw' : WellStamped key stamp es' := hw.mono fun e he => List.mem_append_right _ he
  have hlt := (List.pairwise_append.1 h.lt).2.2
  cases hn' : newest key stamp es' k with
  | some e =>
    -- later events of the key carry higher stamps
    obtain ⟨he, hek, hmax⟩ := (newest_eq_some hw').1 hn'
    rw [Option.some_or, newest_eq_some hw]
    refine ⟨List.mem_append_right _ he, hek, fun c hc hck x hx y hy => ?_⟩
    rcases List.mem_append.1 hc with hc | hc
    · exact (hlt c hc e he (hck.trans hek.symm) x hx y hy).le
    · exact hmax c hc hck x hx y hy
  | none =>
    rw [newest_eq_none] at hn'
    rw [Option.none_or]
    cases hn : newest key stamp es k with
    | none =>
      rw [newest_eq_none] at hn ⊢
      intro c hc
      rcases List.mem_append.1 hc with hc | hc
      · exact hn c hc
      · exact hn' c hc
    | some e =>
      have hwl : WellStamped key stamp es := hw.mono fun e he => List.mem_append_left _ he
      obtain ⟨he, hek, hmax⟩ := (newest_eq_some hwl).1 hn
      rw [newest_eq_some hw]
      refine ⟨List.mem_append_left _ he, hek, fun c hc hck => ?_⟩
      rcases List.mem_append.1 hc with hc | hc
      · exact hmax c hc hck
      · exact absurd hck (hn' c hc)

/-- Whatever the window does with ties, the row it keeps for a key is the newest event. -/
theorem RowNumberOne.lookup_eq (hw : WellStamped key stamp es) {out : List α}
    (h : RowNumberOne key (RowOrder.descNullsLast stamp) es out) (k : κ) :
    lookup key out k = newest key stamp es k := by
  apply Option.ext
  intro e
  rw [h.unique.lookup_iff, newest_eq_some hw]
  constructor
  · rintro ⟨he, hk⟩
    exact ⟨h.mem e he, hk, fun c hc hck => h.max he c hc (hck.trans hk.symm)⟩
  · rintro ⟨he, hk, hmax⟩
    exact ⟨h.mem_of_top he (hw.before_of_max he fun c hc hck => hmax c hc (hck.trans hk)), hk⟩

/-! ## Dedup and `MERGE` -/

/-- `T'` is a possible result of merging into `T` the newest event of each key of `es`. -/
def DedupMerge (m : MergeClauses τ α κ) (stamp : α → Option β) (T : List τ) (es : List α)
    (T' : List τ) : Prop :=
  ∃ out, RowNumberOne m.sourceKey (RowOrder.descNullsLast stamp) es out ∧ m.merge T out = some T'

variable {m : MergeClauses τ α κ} {T T' : List τ}

/-- **The statement never fails**: the dedup leaves one source row for each key. -/
theorem dedupMerge_exists (m : MergeClauses τ α κ) (stamp : α → Option β) (T : List τ) (es : List α) :
    ∃ T', DedupMerge m stamp T es T' := by
  have hr := rowNumberOne_spec m.sourceKey (RowOrder.descNullsLast stamp) es
  obtain ⟨T', hT'⟩ := MergeClauses.merge_isSome hr.unique T
  exact ⟨T', _, hr, hT'⟩

theorem dedupMerge_unique (hT : UniqueKey m.targetKey T) (h : DedupMerge m stamp T es T') :
    UniqueKey m.targetKey T' := by
  obtain ⟨out, hr, hm⟩ := h
  exact MergeClauses.merge_unique hT hr.unique hm

/-- **Each key is acted on by its newest event.** -/
theorem dedupMerge_lookup (hT : UniqueKey m.targetKey T) (hw : WellStamped m.sourceKey stamp es)
    (h : DedupMerge m stamp T es T') (k : κ) :
    lookup m.targetKey T' k =
      m.apply (newest m.sourceKey stamp es k) (lookup m.targetKey T k) := by
  obtain ⟨out, hr, hm⟩ := h
  rw [MergeClauses.merge_lookup hT hr.unique hm, hr.lookup_eq hw]

theorem dedupMerge_nullRows (hk : ∀ e ∈ es, m.sourceKey e ≠ none) (h : DedupMerge m stamp T es T') :
    nullRows m.targetKey T' = nullRows m.targetKey T := by
  obtain ⟨out, hr, hm⟩ := h
  exact MergeClauses.merge_nullRows (fun s hs => hk s (hr.mem s hs)) hm

end SparkDev.Sql
