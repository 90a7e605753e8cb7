import Mathlib.Data.List.Induction
import Mathlib.Order.Lattice
import SparkDev.Sql.Keyed

/-!
# Versioned rows (slowly changing dimensions, type 2)

A snapshot table keeps every version of a row with the window it was valid in. A run at
time `now` compares the source with the open versions on the tracked columns. What it writes is
known by its description only (`CheckStrategy`), key by key.

* `CheckStrategy.step`: what a run does to the versions of a key.
* `asOf_runs`: **at every time the table says what the last run up to then had seen**.
* `checkSnapshot_checkStrategy`: a procedure that fits the description.
-/

namespace SparkDev.Sql

/-- A version of a row and its window, open when `validTo` is null. -/
structure Version (α τ : Type*) where
  row : α
  validFrom : τ
  validTo : Option τ
  deriving DecidableEq, Repr

variable {α γ κ τ : Type*} [DecidableEq κ] (key : α → Option κ) (tracked : α → γ)

/-- The versions of a key. -/
def versionsOf (T : List (Version α τ)) (k : κ) : List (Version α τ) :=
  T.filter fun v => decide (key v.row = some k)

/-- The versions that are open. -/
def current (T : List (Version α τ)) : List (Version α τ) := T.filter fun v => v.validTo.isNone

/-- The version, superseded at `now` if it was open. -/
def Version.close (now : τ) (v : Version α τ) : Version α τ :=
  if v.validTo.isNone then { v with validTo := some now } else v

/-- **The check strategy**: a run at `now` on a source with unique keys opens a version of a key it
has never seen; it closes the open version of a key and opens another if the source has the key with
other tracked columns; and it leaves a key alone that is unchanged or not in the source. -/
structure CheckStrategy (snapshot : τ → List α → List (Version α τ) → List (Version α τ)) : Prop where
  absent {now : τ} {S : List α} {T : List (Version α τ)} {k : κ} (hS : UniqueKey key S)
    (hs : lookup key S k = none) : (versionsOf key (snapshot now S T) k).Perm (versionsOf key T k)
  opened {now : τ} {S : List α} {T : List (Version α τ)} {k : κ} {s : α} (hS : UniqueKey key S)
    (hs : lookup key S k = some s) (hT : current (versionsOf key T k) = []) :
    (versionsOf key (snapshot now S T) k).Perm (versionsOf key T k ++ [⟨s, now, none⟩])
  unchanged {now : τ} {S : List α} {T : List (Version α τ)} {k : κ} {s : α} {v : Version α τ}
    (hS : UniqueKey key S) (hs : lookup key S k = some s) (hT : current (versionsOf key T k) = [v])
    (hsame : tracked v.row = tracked s) : (versionsOf key (snapshot now S T) k).Perm (versionsOf key T k)
  changed {now : τ} {S : List α} {T : List (Version α τ)} {k : κ} {s : α} {v : Version α τ}
    (hS : UniqueKey key S) (hs : lookup key S k = some s) (hT : current (versionsOf key T k) = [v])
    (hother : tracked v.row ≠ tracked s) :
    (versionsOf key (snapshot now S T) k).Perm ((versionsOf key T k).map (Version.close now) ++ [⟨s, now, none⟩])

/-- The runs of a snapshot, oldest first. -/
def snapshotRuns (snapshot : τ → List α → List (Version α τ) → List (Version α τ)) (runs : List (τ × List α)) :
    List (Version α τ) :=
  runs.foldl (fun T r => snapshot r.1 r.2 T) []

variable [DecidableEq γ]

/-- What one more run makes of the row that is known for a key. -/
def noted : Option α → Option α → Option α
  | known, none => known
  | none, some s => some s
  | some r, some s => if tracked r = tracked s then some r else some s

/-- The row that is known for a key after some runs. -/
def knownRow (runs : List (τ × List α)) (k : κ) : Option α :=
  runs.foldl (fun known r => noted tracked known (lookup key r.2 k)) none

variable {key tracked} {snapshot : τ → List α → List (Version α τ) → List (Version α τ)} {S : List α}
  {T h h' : List (Version α τ)} {v : Version α τ} {s r : α} {known : Option α} {k : κ} {t now before : τ}
  {runs pre post : List (τ × List α)}

/-! ## What is known -/

theorem knownRow_snoc (runs : List (τ × List α)) (r : τ × List α) (k : κ) :
    knownRow key tracked (runs ++ [r]) k = noted tracked (knownRow key tracked runs k) (lookup key r.2 k) := by
  unfold knownRow
  rw [List.foldl_append]
  rfl

theorem snapshotRuns_snoc (runs : List (τ × List α)) (r : τ × List α) :
    snapshotRuns snapshot (runs ++ [r]) = snapshot r.1 r.2 (snapshotRuns snapshot runs) := by
  unfold snapshotRuns
  rw [List.foldl_append]
  rfl

theorem tracked_noted {known s' : Option α} : (noted tracked known s').map tracked =
    (s'.map tracked).or (known.map tracked) := by
  rcases s' with _ | s
  · rcases known with _ | r
    · rfl
    · rfl
  · rcases known with _ | r
    · rfl
    · show (if tracked r = tracked s then some r else some s).map tracked = some (tracked s)
      split
      · rename_i h
        rw [← h]
        rfl
      · rfl

/-- **The tracked columns of the known row** are those of the last run that had the key. -/
theorem tracked_knownRow (runs : List (τ × List α)) (k : κ) :
    (knownRow key tracked runs k).map tracked =
      (runs.filterMap fun r => lookup key r.2 k).getLast?.map tracked := by
  induction runs using List.reverseRecOn with
  | nil => rfl
  | append_singleton runs r ih =>
    rw [knownRow_snoc, tracked_noted, ih, List.filterMap_append, List.getLast?_append]
    rcases hr : lookup key r.2 k with _ | s
    · simp [hr]
    · simp [hr]

/-! ## The versions of a key -/

omit [DecidableEq κ] [DecidableEq γ] in
theorem close_row (now : τ) (v : Version α τ) : (v.close now).row = v.row := by
  unfold Version.close
  split <;> rfl

omit [DecidableEq κ] [DecidableEq γ] in
/-- Nothing stays open. -/
theorem current_close (now : τ) (h : List (Version α τ)) : current (h.map (Version.close now)) = [] := by
  unfold current
  rw [List.filter_eq_nil_iff]
  intro v hv hopen
  obtain ⟨w, -, rfl⟩ := List.mem_map.1 hv
  unfold Version.close at hopen
  split at hopen
  · cases hopen
  · rename_i hclosed
    exact hclosed hopen

variable [LinearOrder τ]

/-- The version is valid at a time. -/
def Version.validAt (t : τ) (v : Version α τ) : Bool :=
  decide (v.validFrom ≤ t) && v.validTo.all fun e => decide (t < e)

/-- The rows valid at a time. -/
def asOf (t : τ) (T : List (Version α τ)) : List α := (T.filter (Version.validAt t)).map Version.row

/-- No version has a time after `now`. -/
def UpTo (now : τ) (T : List (Version α τ)) : Prop :=
  ∀ v ∈ T, v.validFrom ≤ now ∧ ∀ e ∈ v.validTo, e ≤ now

/-- What the versions of a key are after runs up to `now`: the known row is open, and nothing is later. -/
structure KeyOK (now : τ) (known : Option α) (h : List (Version α τ)) : Prop where
  current : (Sql.current h).map Version.row = known.toList
  upTo : UpTo now h

section Times

omit [DecidableEq κ] [DecidableEq γ]

theorem asOf_append (t : τ) (h h' : List (Version α τ)) : asOf t (h ++ h') = asOf t h ++ asOf t h' := by
  unfold asOf
  rw [List.filter_append, List.map_append]

theorem asOf_perm (hp : h.Perm h') (t : τ) : (asOf t h).Perm (asOf t h') := (hp.filter _).map _

/-- A version that is opened later is not valid before. -/
theorem asOf_opened (ht : t < now) (s : α) : asOf t [(⟨s, now, none⟩ : Version α τ)] = [] := by
  unfold asOf
  rw [List.map_eq_nil_iff, List.filter_eq_nil_iff]
  intro v hv
  rw [List.mem_singleton.1 hv]
  simp [Version.validAt, ht]

/-- A version that is closed later was valid if it had begun. -/
theorem asOf_close (ht : t < now) (h : List (Version α τ)) : asOf t (h.map (Version.close now)) = asOf t h := by
  unfold asOf
  have hvalid : Version.validAt t ∘ Version.close now = (Version.validAt t : Version α τ → Bool) := by
    funext v
    unfold Function.comp Version.close
    split
    · rename_i hopen
      rw [Option.isNone_iff_eq_none] at hopen
      unfold Version.validAt
      rw [hopen]
      simp [ht]
    · rfl
  have hrow : Version.row ∘ Version.close now = (Version.row : Version α τ → α) := funext (close_row now)
  rw [List.filter_map, hvalid, List.map_map, hrow]

/-- At or after the last run, what is valid is what is open. -/
theorem asOf_upTo (h : UpTo now T) (ht : now ≤ t) : asOf t T = (current T).map Version.row := by
  unfold asOf current
  congr 1
  refine List.filter_congr fun v hv => ?_
  obtain ⟨hfrom, hto⟩ := h v hv
  have hle : v.validFrom ≤ t := le_trans hfrom ht
  unfold Version.validAt
  rcases he : v.validTo with _ | e
  · simp [hle]
  · have hge : ¬ t < e := not_lt.2 (le_trans (hto e he) ht)
    simp [hge]

theorem UpTo.mono (h : UpTo before T) (hle : before ≤ now) : UpTo now T := fun v hv =>
  ⟨(h v hv).1.trans hle, fun e he => ((h v hv).2 e he).trans hle⟩

theorem UpTo.perm (hup : UpTo now h) (hp : h.Perm h') : UpTo now h' := fun v hv => hup v (hp.mem_iff.2 hv)

theorem UpTo.close (hup : UpTo now h) : UpTo now (h.map (Version.close now)) := by
  intro v hv
  obtain ⟨w, hw, rfl⟩ := List.mem_map.1 hv
  obtain ⟨hfrom, hto⟩ := hup w hw
  unfold Version.close
  split
  · exact ⟨hfrom, fun e he => (Option.some.inj he).ge⟩
  · exact ⟨hfrom, hto⟩

theorem UpTo.opened (hup : UpTo now h) (s : α) : UpTo now (h ++ [⟨s, now, none⟩]) := by
  intro v hv
  rcases List.mem_append.1 hv with hv | hv
  · exact hup v hv
  · rw [List.mem_singleton.1 hv]
    exact ⟨le_rfl, by rintro e ⟨⟩⟩

theorem KeyOK.perm (hok : KeyOK now known h) (hp : h.Perm h') : KeyOK now known h' := by
  refine ⟨?_, hok.upTo.perm hp⟩
  have hrows : ((Sql.current h).map Version.row).Perm ((Sql.current h').map Version.row) := (hp.filter _).map _
  rw [hok.current] at hrows
  rcases known with _ | r
  · exact hrows.nil_eq.symm
  · exact List.perm_singleton.1 hrows.symm

end Times

/-- **A run**, key by key: it does not change the past, and what is open then is what is known. -/
theorem CheckStrategy.step (hc : CheckStrategy key tracked snapshot) (hS : UniqueKey key S)
    (hle : before ≤ now) (hok : KeyOK before known (versionsOf key T k)) :
    KeyOK now (noted tracked known (lookup key S k)) (versionsOf key (snapshot now S T) k) ∧
      ∀ t, t < now → (asOf t (versionsOf key (snapshot now S T) k)).Perm (asOf t (versionsOf key T k)) := by
  have hup : UpTo now (versionsOf key T k) := hok.upTo.mono hle
  rcases hs : lookup key S k with _ | s
  · -- the source does not have the key: hard deletes are ignored
    have hp : (versionsOf key (snapshot now S T) k).Perm (versionsOf key T k) := hc.absent hS hs
    have hnoted : noted tracked known none = known := by
      rcases known with _ | r <;> rfl
    rw [hnoted]
    exact ⟨KeyOK.perm ⟨hok.current, hup⟩ hp.symm, fun t _ => asOf_perm hp t⟩
  -- nothing is known of the key, so no version of it is open
  rcases known with _ | r
  · have hnone : Sql.current (versionsOf key T k) = [] := List.map_eq_nil_iff.1 hok.current
    have hp : (versionsOf key (snapshot now S T) k).Perm (versionsOf key T k ++ [⟨s, now, none⟩]) :=
      hc.opened hS hs hnone
    refine ⟨KeyOK.perm ⟨?_, hup.opened s⟩ hp.symm, fun t ht => ?_⟩
    · unfold Sql.current at hnone ⊢
      rw [List.filter_append, hnone]
      rfl
    · refine (asOf_perm hp t).trans ?_
      rw [asOf_append, asOf_opened ht, List.append_nil]
  · obtain ⟨v, hv, hvr⟩ : ∃ v, Sql.current (versionsOf key T k) = [v] ∧ v.row = r :=
      List.map_eq_singleton_iff.1 hok.current
    subst hvr
    by_cases hsame : tracked v.row = tracked s
    · have hp : (versionsOf key (snapshot now S T) k).Perm (versionsOf key T k) := hc.unchanged hS hs hv hsame
      have hnoted : noted tracked (some v.row) (some s) = some v.row := if_pos hsame
      rw [hnoted]
      exact ⟨KeyOK.perm ⟨hok.current, hup⟩ hp.symm, fun t _ => asOf_perm hp t⟩
    · have hp : (versionsOf key (snapshot now S T) k).Perm
          ((versionsOf key T k).map (Version.close now) ++ [⟨s, now, none⟩]) := hc.changed hS hs hv hsame
      have hnoted : noted tracked (some v.row) (some s) = some s := if_neg hsame
      rw [hnoted]
      refine ⟨KeyOK.perm ⟨?_, hup.close.opened s⟩ hp.symm, fun t ht => ?_⟩
      · have hclosed := current_close now (versionsOf key T k)
        unfold Sql.current at hclosed ⊢
        rw [List.filter_append, hclosed]
        rfl
      · refine (asOf_perm hp t).trans ?_
        rw [asOf_append, asOf_opened ht, List.append_nil, asOf_close ht]

/-- **After some runs** at increasing times, the last one at `now` or before. -/
theorem snapshotRuns_keyOK (hc : CheckStrategy key tracked snapshot) (k : κ) (runs : List (τ × List α)) :
    ∀ now, (∀ r ∈ runs, UniqueKey key r.2) → (runs.map Prod.fst).Pairwise (· < ·) → (∀ r ∈ runs, r.1 ≤ now) →
      KeyOK now (knownRow key tracked runs k) (versionsOf key (snapshotRuns snapshot runs) k) := by
  induction runs using List.reverseRecOn with
  | nil =>
    intro now _ _ _
    exact ⟨rfl, fun v hv => absurd hv List.not_mem_nil⟩
  | append_singleton runs r ih =>
    intro now hS ht hnow
    obtain ⟨hS, hSr⟩ := List.forall_mem_append.1 hS
    rw [List.map_append, List.pairwise_append] at ht
    -- the runs before were earlier than the last one
    have hbefore : ∀ r' ∈ runs, r'.1 ≤ r.1 := fun r' hr' =>
      (ht.2.2 r'.1 (List.mem_map_of_mem hr') r.1 (List.mem_singleton_self _)).le
    have hstep := (hc.step (hSr r (List.mem_singleton_self r)) le_rfl (ih r.1 hS ht.1 hbefore)).1
    rw [knownRow_snoc, snapshotRuns_snoc]
    exact ⟨hstep.current, hstep.upTo.mono (hnow r (List.mem_append_right _ (List.mem_singleton_self r)))⟩

/-- Later runs do not change the past. -/
theorem asOf_later (hc : CheckStrategy key tracked snapshot) (k : κ) (pre post : List (τ × List α)) :
    (∀ r ∈ pre ++ post, UniqueKey key r.2) → ((pre ++ post).map Prod.fst).Pairwise (· < ·) →
      (∀ r ∈ post, t < r.1) → (asOf t (versionsOf key (snapshotRuns snapshot (pre ++ post)) k)).Perm
        (asOf t (versionsOf key (snapshotRuns snapshot pre) k)) := by
  induction post using List.reverseRecOn with
  | nil =>
    intro _ _ _
    rw [List.append_nil]
  | append_singleton post r ih =>
    intro hS ht hpost
    rw [← List.append_assoc] at hS ht ⊢
    obtain ⟨hS, hSr⟩ := List.forall_mem_append.1 hS
    obtain ⟨hpost, hr⟩ := List.forall_mem_append.1 hpost
    rw [List.map_append, List.pairwise_append] at ht
    have hbefore : ∀ r' ∈ pre ++ post, r'.1 ≤ r.1 := fun r' hr' =>
      (ht.2.2 r'.1 (List.mem_map_of_mem hr') r.1 (List.mem_singleton_self _)).le
    have hok := snapshotRuns_keyOK hc k (pre ++ post) r.1 hS ht.1 hbefore
    have hstep := (hc.step (hSr r (List.mem_singleton_self r)) le_rfl hok).2 t (hr r (List.mem_singleton_self r))
    rw [snapshotRuns_snoc]
    exact hstep.trans (ih hS ht.1 hpost)

omit [DecidableEq γ] in
theorem asOf_versionsOf (t : τ) (T : List (Version α τ)) (k : κ) :
    ((asOf t T).filter fun r => decide (key r = some k)) = asOf t (versionsOf key T k) := by
  unfold asOf versionsOf
  rw [List.filter_map, List.filter_filter, List.filter_filter]
  refine congrArg _ (List.filter_congr fun v _ => ?_)
  exact Bool.and_comm ..

/-- **At every time the table says what the last run up to then had seen**, and after the last run what
is valid is what is open. Among the rows valid at time `t` no key occurs twice, and a key has the row that
was known for it then. -/
theorem asOf_runs (hc : CheckStrategy key tracked snapshot) (pre post : List (τ × List α))
    (hS : ∀ r ∈ pre ++ post, UniqueKey key r.2) (ht : ((pre ++ post).map Prod.fst).Pairwise (· < ·))
    (hpre : ∀ r ∈ pre, r.1 ≤ t) (hpost : ∀ r ∈ post, t < r.1) :
    (UniqueKey key (asOf t (snapshotRuns snapshot (pre ++ post))) ∧
      ∀ k, lookup key (asOf t (snapshotRuns snapshot (pre ++ post))) k = knownRow key tracked pre k) ∧
      (post = [] → ∀ k, asOf t (versionsOf key (snapshotRuns snapshot pre) k) =
        (current (versionsOf key (snapshotRuns snapshot pre) k)).map Version.row) := by
  have hSpre : ∀ r ∈ pre, UniqueKey key r.2 := fun r hr => hS r (List.mem_append_left _ hr)
  have htpre : (pre.map Prod.fst).Pairwise (· < ·) := by
    rw [List.map_append, List.pairwise_append] at ht
    exact ht.1
  have hok := fun k => snapshotRuns_keyOK hc k pre t hSpre htpre hpre
  refine ⟨lookup_of_filter fun k => ?_, fun _ k => asOf_upTo (hok k).upTo le_rfl⟩
  have hp := asOf_later hc k pre post hS ht hpost
  rw [asOf_upTo (hok k).upTo le_rfl, (hok k).current] at hp
  rw [asOf_versionsOf]
  rcases hknown : knownRow key tracked pre k with _ | r <;> rw [hknown] at hp
  · exact hp.eq_nil
  · exact List.perm_singleton.1 hp

/-! ## A procedure that fits -/

omit [LinearOrder τ]

/-- The source has the key of the version with other columns. -/
def Version.superseded (key : α → Option κ) (tracked : α → γ) (S : List α) (v : Version α τ) : Bool :=
  S.any fun s => keyEq (key v.row) (key s) && decide (tracked v.row ≠ tracked s)

/-- No open version has the key and the columns of the row. -/
def unseen (key : α → Option κ) (tracked : α → γ) (T : List (Version α τ)) (s : α) : Bool :=
  (current T).all fun v => !keyEq (key v.row) (key s) || decide (tracked v.row ≠ tracked s)

/-- Close what is superseded, open what is unseen. -/
def checkSnapshot (key : α → Option κ) (tracked : α → γ) (now : τ) (S : List α) (T : List (Version α τ)) :
    List (Version α τ) :=
  (T.map fun v => if v.superseded key tracked S then v.close now else v) ++
    (S.filter (unseen key tracked T)).map fun s => ⟨s, now, none⟩

/-- The versions of a key are closed and opened by its row in the source. -/
theorem versionsOf_checkSnapshot (hS : UniqueKey key S) (now : τ) (T : List (Version α τ)) (k : κ) :
    versionsOf key (checkSnapshot key tracked now S T) k =
      ((versionsOf key T k).map fun v : Version α τ =>
        if (lookup key S k).any (fun s => decide (tracked v.row ≠ tracked s)) then v.close now else v) ++
      ((lookup key S k).toList.filter fun s =>
        (current (versionsOf key T k)).all fun v => decide (tracked v.row ≠ tracked s)).map fun s =>
          ⟨s, now, none⟩ := by
  unfold checkSnapshot versionsOf
  rw [List.filter_append, List.filter_map, List.filter_map]
  congr 1
  · -- the versions of the key before, closed if the source has other tracked columns
    have hkey : ((fun v : Version α τ => decide (key v.row = some k)) ∘
        fun v : Version α τ => if v.superseded key tracked S then v.close now else v) =
          fun v => decide (key v.row = some k) := by
      funext v
      unfold Function.comp
      dsimp only
      split
      · rw [close_row]
      · rfl
    rw [hkey]
    refine List.map_congr_left fun v hv => ?_
    have hvk : key v.row = some k := of_decide_eq_true (List.mem_filter.1 hv).2
    have hsame : v.superseded key tracked S =
        (lookup key S k).any fun s => decide (tracked v.row ≠ tracked s) := by
      have hrows : v.superseded key tracked S =
          (S.filter fun s => decide (key s = some k)).any fun s => decide (tracked v.row ≠ tracked s) := by
        unfold Version.superseded
        rw [List.any_filter, hvk]
        congr 1
        funext s
        rw [Bool.eq_iff_iff]
        simp [keyEq_iff]
      rw [hrows, hS.filter_key]
      rcases lookup key S k with _ | s <;> simp
    rw [hsame]
  · -- the version that is opened
    have hopened : (S.filter (unseen key tracked T)).filter (fun s => decide (key s = some k)) =
        (lookup key S k).toList.filter fun s =>
          (current (versionsOf key T k)).all fun v => decide (tracked v.row ≠ tracked s) := by
      rw [List.filter_filter, ← hS.filter_key k, List.filter_filter]
      refine List.filter_congr fun s _ => ?_
      by_cases hsk : key s = some k
      · unfold unseen current versionsOf
        rw [List.all_filter, List.all_filter, List.all_filter, hsk]
        simp only [decide_true, Bool.true_and, Bool.and_true, keyEq_some_eq]
        congr 1
        funext v
        by_cases hvk : key v.row = some k <;> simp [hvk]
      · simp [hsk]
    exact congrArg (List.map fun s => (⟨s, now, none⟩ : Version α τ)) hopened

omit [DecidableEq κ] [DecidableEq γ] in
/-- Closing some versions, where only the open ones count. -/
theorem map_close {p : Version α τ → Bool} {b : Bool} (hp : ∀ v ∈ current h, p v = b) :
    (h.map fun v => if p v then v.close now else v) = if b then h.map (Version.close now) else h := by
  have hone : ∀ v ∈ h, (if p v then v.close now else v) = if b then v.close now else v := by
    intro v hv
    rcases hopen : v.validTo.isNone with _ | _
    · have hsame : v.close now = v := if_neg (by rw [hopen]; exact Bool.false_ne_true)
      rw [hsame, ite_self, ite_self]
    · rw [hp v (List.mem_filter.2 ⟨hv, hopen⟩)]
  rw [List.map_congr_left hone]
  rcases b with _ | _
  · exact List.map_id h
  · rfl

/-- **The procedure fits the description.** -/
theorem checkSnapshot_checkStrategy (key : α → Option κ) (tracked : α → γ) :
    CheckStrategy key tracked (checkSnapshot key tracked : τ → List α → List (Version α τ) → List (Version α τ)) where
  absent := by
    intro now S T k hS hs
    rw [versionsOf_checkSnapshot hS, hs]
    simp
  opened := by
    intro now S T k s hS hs hT
    rw [versionsOf_checkSnapshot hS, hs, map_close (b := false), hT]
    · simp
    · rw [hT]
      intro v hv
      exact absurd hv List.not_mem_nil
  unchanged := by
    intro now S T k s v hS hs hT hsame
    rw [versionsOf_checkSnapshot hS, hs, map_close (b := false), hT]
    · simp [hsame]
    · rw [hT]
      intro w hw
      rw [List.mem_singleton.1 hw]
      simp [hsame]
  changed := by
    intro now S T k s v hS hs hT hother
    rw [versionsOf_checkSnapshot hS, hs, map_close (b := true), hT]
    · simp [hother]
    · rw [hT]
      intro w hw
      rw [List.mem_singleton.1 hw]
      simp [hother]

end SparkDev.Sql
