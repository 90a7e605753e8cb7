import SparkDev.Py.Dict
import SparkDev.Runs.Chain
import SparkDev.Runs.Changelog

/-!
# A compacted topic

`kaf4_state` is compacted: the broker takes superseded records out of it at any time, and
deletes when they are old enough. `read_all` reads what is left from the beginning, message
by message, while producers and the cleaner go on; `latest_per_key` is made of what it
returns.

* `reach_stateTopic`: what is live on the topic is what is live of all that was produced.
* `reading_invariant`: so it is of what a reader has read and what is ahead of it, unless a
  delete went before the reader saw it.
* `read_latest`: a read of the topic gives the notebook's dictionary.
* `compaction_target`: how far the cleaner gets, which is not always the notebook's target: it
  leaves the active segment alone.
-/

namespace SparkDev.Kafka

open Runs Py

/-- The key as `key_deserializer` returns it: `b.decode() if b else None`. -/
def readKey (k : String) : Option String := if k = "" then none else some k

/-- `(msg.key, msg.value)`. -/
def item {α : Type*} (r : Entry String α) : Option String × Option α := (readKey r.key, r.value)

/-- `for k, v in records: latest_per_key[k] = v`. -/
def latestPerKey {α : Type*} (records : List (Option String × Option α)) : Dict (Option String) (Option α) :=
  Dict.ofItems records

/-- The topic, and a `read_all` of it. The reader's position splits what is on the topic. -/
structure StateTopic (α : Type*) where
  produced : List (Entry String α)
  behind : List (Entry String α)
  ahead : List (Entry String α)
  out : List (Option String × Option α)
  /-- `if len(out) >= max_records: break`. -/
  stopped : Bool

/-- A step of a producer, the cleaner or the reader. -/
inductive StateAct (α : Type*) where
  | produce (r : Entry String α)
  | clean
  | expire
  | subscribe
  | read

variable {α : Type*}

/-- What is on the topic. -/
def StateTopic.log (s : StateTopic α) : List (Entry String α) := s.behind ++ s.ahead

/-- A new topic. -/
def StateTopic.start (α : Type*) : StateTopic α := ⟨[], [], [], [], false⟩

/-- A read begins: `auto_offset_reset="earliest"`. -/
def StateTopic.subscribed (s : StateTopic α) : StateTopic α := ⟨s.produced, [], s.log, [], false⟩

/-- The steps. A delete goes last of its key. -/
inductive StateStep (maxRecords : ℕ) : StateTopic α → StateAct α → StateTopic α → Prop where
  | produce {s : StateTopic α} {r : Entry String α} :
      StateStep maxRecords s (.produce r) { s with produced := s.produced ++ [r], ahead := s.ahead ++ [r] }
  | cleanBehind {s : StateTopic α} {a b : List (Entry String α)} {r : Entry String α}
      (hs : s.behind = a ++ r :: b) (h : hasKey r.key (b ++ s.ahead) = true) :
      StateStep maxRecords s .clean { s with behind := a ++ b }
  | cleanAhead {s : StateTopic α} {a b : List (Entry String α)} {r : Entry String α}
      (hs : s.ahead = a ++ r :: b) (h : hasKey r.key b = true) :
      StateStep maxRecords s .clean { s with ahead := a ++ b }
  | expireBehind {s : StateTopic α} {a b : List (Entry String α)} {r : Entry String α}
      (hs : s.behind = a ++ r :: b) (hnull : r.value = none) (h : hasKey r.key a = false) :
      StateStep maxRecords s .expire { s with behind := a ++ b }
  | expireAhead {s : StateTopic α} {a b : List (Entry String α)} {r : Entry String α}
      (hs : s.ahead = a ++ r :: b) (hnull : r.value = none) (h : hasKey r.key (s.behind ++ a) = false) :
      StateStep maxRecords s .expire { s with ahead := a ++ b }
  | subscribe {s : StateTopic α} :
      StateStep maxRecords s .subscribe s.subscribed
  | read {s : StateTopic α} {r : Entry String α} {rest : List (Entry String α)}
      (hs : s.ahead = r :: rest) (hgo : s.stopped = false) :
      StateStep maxRecords s .read ⟨s.produced, s.behind ++ [r], rest, s.out ++ [item r],
        decide (maxRecords ≤ s.out.length + 1)⟩

/-- The invariant of the topic. -/
structure StateTopic.OK (s : StateTopic α) : Prop where
  live : live s.log = live s.produced
  subset : ∀ r ∈ s.log, r ∈ s.produced

/-- The invariant of a reader: what it has read, and what is ahead of it. -/
structure StateTopic.Reading (s : StateTopic α) : Prop where
  ok : s.OK
  taken : ∃ l, s.out = l.map item ∧ Runs.live (l ++ s.ahead) = Runs.live s.produced ∧ ∀ r ∈ l, r ∈ s.produced

variable {maxRecords : ℕ} {s t : StateTopic α} {act : StateAct α}

/-! ## The topic -/

/-- What a step does to the topic: a record more, a record less, or nothing. -/
theorem StateStep.log_cases (h : StateStep maxRecords s act t) :
    (∃ r, t.log = s.log ++ [r] ∧ t.produced = s.produced ++ [r]) ∨
      t.produced = s.produced ∧ (t.log = s.log ∨ ∃ a r b, s.log = a ++ r :: b ∧ t.log = a ++ b ∧
        (hasKey r.key b = true ∨ r.value = none ∧ hasKey r.key a = false)) := by
  unfold StateTopic.log
  rcases h with _ | ⟨hs, hkey⟩ | ⟨hs, hkey⟩ | ⟨hs, hnull, hkey⟩ | ⟨hs, hnull, hkey⟩ | _ | ⟨hs, hgo⟩
  · rename_i r
    exact Or.inl ⟨r, (List.append_assoc ..).symm, rfl⟩
  · rename_i a b r
    refine Or.inr ⟨rfl, Or.inr ⟨a, r, b ++ s.ahead, ?_, List.append_assoc .., Or.inl hkey⟩⟩
    rw [hs, List.append_assoc, List.cons_append]
  · rename_i a b r
    refine Or.inr ⟨rfl, Or.inr ⟨s.behind ++ a, r, b, ?_, (List.append_assoc ..).symm, Or.inl hkey⟩⟩
    rw [hs, List.append_assoc]
  · rename_i a b r
    refine Or.inr ⟨rfl, Or.inr ⟨a, r, b ++ s.ahead, ?_, List.append_assoc .., Or.inr ⟨hnull, hkey⟩⟩⟩
    rw [hs, List.append_assoc, List.cons_append]
  · rename_i a b r
    refine Or.inr ⟨rfl, Or.inr ⟨s.behind ++ a, r, b, ?_, (List.append_assoc ..).symm, Or.inr ⟨hnull, hkey⟩⟩⟩
    rw [hs, List.append_assoc]
  · exact Or.inr ⟨rfl, Or.inl rfl⟩
  · rename_i r rest
    refine Or.inr ⟨rfl, Or.inl ?_⟩
    rw [hs, List.append_assoc, List.singleton_append]

theorem stateTopic_start_ok : (StateTopic.start α).OK := ⟨rfl, fun _ h => h⟩

/-- **One step.** -/
theorem StateTopic.OK.step (h : s.OK) (hs : StateStep maxRecords s act t) : t.OK := by
  rcases hs.log_cases with ⟨r, hlog, hprod⟩ | ⟨hprod, hlog | ⟨a, r, b, hold, hlog, hgone⟩⟩
  · refine ⟨?_, fun x hx => ?_⟩
    · rw [hlog, hprod]
      exact live_congr_snoc h.live r
    · rw [hlog] at hx
      rw [hprod]
      rcases List.mem_append.1 hx with hx | hx
      · exact List.mem_append_left _ (h.subset x hx)
      · exact List.mem_append_right _ hx
  · exact ⟨by rw [hlog, hprod, h.live], by rw [hlog, hprod]; exact h.subset⟩
  · -- a record that is taken out was not live
    have hlive := h.live
    rw [hold] at hlive
    refine ⟨?_, fun x hx => ?_⟩
    · rw [hlog, hprod, ← hlive]
      rcases hgone with hkey | ⟨hnull, hkey⟩
      · exact (live_superseded hkey).symm
      · exact (live_expired hnull hkey).symm
    · rw [hlog] at hx
      rw [hprod]
      refine h.subset x ?_
      rw [hold]
      rcases List.mem_append.1 hx with hx | hx
      · exact List.mem_append_left _ hx
      · exact List.mem_append_right _ (List.mem_cons_of_mem r hx)

/-- **What is live on the topic is what is live of all that was produced**, in every run. -/
theorem reach_stateTopic (hr : Reach (StateStep maxRecords) (StateTopic.start α) s) : s.OK :=
  reach_invariant (fun _ _ _ hs hst => hs.step hst) stateTopic_start_ok hr

/-! ## The reader -/

/-- No delete goes, and no other read begins. -/
def StateAct.Undisturbed : StateAct α → Prop
  | .expire => False
  | .subscribe => False
  | _ => True

/-- **A step beside or by the reader.** -/
theorem StateTopic.Reading.step (h : s.Reading) (hs : StateStep maxRecords s act t)
    (hact : act.Undisturbed) : t.Reading := by
  have hok := h.ok.step hs
  obtain ⟨l, hout, hlive, hsub⟩ := h.taken
  rcases hs with _ | ⟨hs, hkey⟩ | ⟨hs, hkey⟩ | ⟨hs, hnull, hkey⟩ | ⟨hs, hnull, hkey⟩ | _ | ⟨hs, hgo⟩
  · -- what is produced comes after all that was
    rename_i r
    refine ⟨hok, l, hout, ?_, fun x hx => List.mem_append_left _ (hsub x hx)⟩
    show live (l ++ (s.ahead ++ [r])) = live (s.produced ++ [r])
    rw [← List.append_assoc]
    exact live_congr_snoc hlive r
  · exact ⟨hok, l, hout, hlive, hsub⟩
  · -- a later record of the key is still ahead of the reader
    rename_i a b r
    rw [hs, ← List.append_assoc, live_superseded hkey, List.append_assoc] at hlive
    exact ⟨hok, l, hout, hlive, hsub⟩
  · exact hact.elim
  · exact hact.elim
  · exact hact.elim
  · rename_i r rest
    refine ⟨hok, l ++ [r], ?_, ?_, fun x hx => ?_⟩
    · show s.out ++ [item r] = (l ++ [r]).map item
      rw [List.map_append, hout]
      rfl
    · show live (l ++ [r] ++ rest) = live s.produced
      rw [List.append_assoc, List.singleton_append, ← hs, hlive]
    · rcases List.mem_append.1 hx with hx | hx
      · exact hsub x hx
      · rw [List.mem_singleton.1 hx]
        refine h.ok.subset r (List.mem_append_right _ ?_)
        rw [hs]
        exact List.mem_cons_self

/-- A read begins. -/
theorem StateTopic.OK.subscribe (h : s.OK) : s.subscribed.Reading :=
  ⟨⟨h.live, h.subset⟩, [], rfl, h.live, fun _ hx => absurd hx List.not_mem_nil⟩

/-! ## The dictionary -/

theorem readKey_inj {k k' : String} (h : readKey k = readKey k') : k = k' := by
  unfold readKey at h
  split at h <;> split at h <;> simp_all

/-- The last record of a key. -/
theorem get?_latestPerKey (l : List (Entry String α)) (q : Option String) :
    (latestPerKey (l.map item)).get? q =
      ((l.filter fun r => decide (readKey r.key = q)).getLast?).map Entry.value := by
  induction l using List.reverseRecOn with
  | nil => rfl
  | append_singleton l r ih =>
    have hset : latestPerKey ((l ++ [r]).map item) =
        (latestPerKey (l.map item)).set (readKey r.key) r.value := by
      unfold latestPerKey Dict.ofItems
      rw [List.map_append, List.foldl_append]
      rfl
    rw [hset, Dict.get?_set, ih, List.filter_append, List.getLast?_append]
    by_cases hq : readKey r.key = q
    · simp [hq]
    · simp [hq, Ne.symm hq]

/-- **What is live decides what the dictionary says**, a null value being the same as none. -/
theorem get?_latestPerKey_live (l : List (Entry String α)) (q : Option String) :
    ((latestPerKey (l.map item)).get? q).join =
      ((live l).find? fun r => decide (readKey r.key = q)).bind Entry.value := by
  induction l using List.reverseRecOn with
  | nil => rfl
  | append_singleton l r ih =>
    rw [get?_latestPerKey] at ih ⊢
    rw [live_snoc, List.filter_append, List.getLast?_append, List.find?_append]
    by_cases hq : readKey r.key = q
    · -- the new record is the last of its key in both
      have hnone : ((live l).filter fun x => decide (x.key ≠ r.key)).find?
          (fun x => decide (readKey x.key = q)) = none := by
        rw [List.find?_eq_none]
        intro x hx hxq
        have hne := of_decide_eq_true (List.mem_filter.1 hx).2
        exact hne (readKey_inj ((of_decide_eq_true hxq).trans hq.symm))
      rw [hnone]
      rcases hv : r.value with _ | v <;> simp [hq, hv]
    · -- another key: the new record hides nothing of it
      have hsame : ((live l).filter fun x => decide (x.key ≠ r.key)).find?
          (fun x => decide (readKey x.key = q)) = (live l).find? fun x => decide (readKey x.key = q) := by
        rw [List.find?_filter]
        congr 1
        funext x
        by_cases hx : readKey x.key = q
        · have hne : x.key ≠ r.key := fun he => hq (by rw [← he, hx])
          simp [hx, hne]
        · simp [hx]
      have htail : (if r.value.isNone then [] else [r]).find? (fun x => decide (readKey x.key = q)) = none := by
        rw [List.find?_eq_none]
        intro x hx hxq
        split at hx
        · exact absurd hx List.not_mem_nil
        · rw [List.mem_singleton.1 hx] at hxq
          exact hq (of_decide_eq_true hxq)
      rw [hsame, htail, Option.or_none, ← ih]
      simp [hq]

/-- Without null values none is read. -/
theorem get?_latestPerKey_values {l : List (Entry String α)} (h : ∀ r ∈ l, r.value ≠ none)
    (q : Option String) : (latestPerKey (l.map item)).get? q =
      (((latestPerKey (l.map item)).get? q).join).map some := by
  rw [get?_latestPerKey]
  rcases hlast : (l.filter fun r => decide (readKey r.key = q)).getLast? with _ | r
  · rw [hlast]
    rfl
  · have hr : r ∈ l := List.mem_of_mem_filter (List.mem_of_getLast? hlast)
    obtain ⟨v, hv⟩ := Option.ne_none_iff_exists'.1 (h r hr)
    rw [hlast, Option.map_some, hv]
    rfl

/-- A reader that has nothing ahead of it. -/
theorem StateTopic.Reading.drained (h : s.Reading) (hend : s.ahead = []) (q : Option String) :
    ((latestPerKey s.out).get? q).join = ((latestPerKey (s.produced.map item)).get? q).join := by
  obtain ⟨l, hout, hlive, -⟩ := h.taken
  rw [hend, List.append_nil] at hlive
  rw [hout, get?_latestPerKey_live, get?_latestPerKey_live, hlive]

/-- **Deletes.** A read that comes to the end of the topic finds the latest value of every key,
whatever is produced and cleaned meanwhile, as long as no delete expires before the read is over. -/
theorem read_live (s : StateTopic α) (hr : Reach (StateStep maxRecords) (StateTopic.start α) s)
    (tr : List (StateAct α × StateTopic α)) (hc : Chain (StateStep maxRecords) s.subscribed tr)
    (hact : ∀ x ∈ tr, x.1.Undisturbed) (hend : (final s.subscribed tr).ahead = []) (q : Option String) :
    ((latestPerKey (final s.subscribed tr).out).get? q).join =
      ((latestPerKey ((final s.subscribed tr).produced.map item)).get? q).join := by
  have hboth : Chain (fun s a t => StateStep maxRecords s a t ∧ a.Undisturbed) s.subscribed tr :=
    (chain_and tr _).2 ⟨hc, chain_labels tr _ hact⟩
  have hread : (final s.subscribed tr).Reading :=
    chain_invariant (I := StateTopic.Reading) (fun _ _ _ hs h => hs.step h.1 h.2) tr _
      (reach_stateTopic hr).subscribe hboth
  exact hread.drained hend q

/-- Two keys are set, and the first one is set again or deleted. -/
def twoKeys (value : Option ℕ) : StateTopic ℕ where
  produced := [⟨"user-0", some 0⟩, ⟨"user-1", some 1⟩, ⟨"user-0", value⟩]
  behind := []
  ahead := [⟨"user-0", some 0⟩, ⟨"user-1", some 1⟩, ⟨"user-0", value⟩]
  out := []
  stopped := false

theorem twoKeys_reach (value : Option ℕ) : Reach (StateStep 10000) (StateTopic.start ℕ) (twoKeys value) :=
  (reach_step (.produce (r := ⟨"user-0", some 0⟩))).trans
    ((reach_step .produce).trans (reach_step .produce))

/-- A reader reads them, and the first record is cleaned meanwhile. -/
def twoKeysRun (value : Option ℕ) : List (StateAct ℕ × StateTopic ℕ) :=
  let s := twoKeys value
  let out : List (Option String × Option ℕ) := s.produced.map item
  [(.read, { s with behind := s.ahead.take 1, ahead := s.ahead.drop 1, out := out.take 1 }),
   (.clean, { s with behind := [], ahead := s.ahead.drop 1, out := out.take 1 }),
   (.read, { s with behind := (s.ahead.drop 1).take 1, ahead := s.ahead.drop 2, out := out.take 2 }),
   (.read, { s with behind := s.ahead.drop 1, ahead := [], out := out })]

theorem twoKeysRun_isRun (value : Option ℕ) :
    Chain (StateStep 10000) (twoKeys value).subscribed (twoKeysRun value) :=
  ⟨.read rfl rfl, .cleanBehind (a := []) rfl rfl, .read rfl rfl, .read rfl rfl, trivial⟩

/-- The deleted key is not there at the end. -/
theorem read_live_deleted :
    ((latestPerKey (final (twoKeys none).subscribed (twoKeysRun none)).out).get? (some "user-0")).join = none :=
  read_live (twoKeys none) (twoKeys_reach none) (twoKeysRun none) (twoKeysRun_isRun none)
    (by simp [twoKeysRun, StateAct.Undisturbed]) rfl (some "user-0")

/-- Nothing of what was produced is lost. -/
theorem StateStep.produced_subset (h : StateStep maxRecords s act t) : s.produced ⊆ t.produced := by
  rcases h.log_cases with ⟨r, -, hprod⟩ | ⟨hprod, -⟩
  · rw [hprod]
    exact List.subset_append_left _ _
  · rw [hprod]
    exact fun _ => id

/-- Where no value is null every step keeps the reader's invariant. -/
theorem reading_of_values (hr : Reach (StateStep maxRecords) (StateTopic.start α) t)
    (hvalues : ∀ r ∈ t.produced, r.value ≠ none) : t.Reading := by
  have hinv : (∀ r ∈ t.produced, r.value ≠ none) → t.Reading := by
    refine reach_invariant (I := fun s : StateTopic α => (∀ r ∈ s.produced, r.value ≠ none) → s.Reading)
      ?_ (fun _ => stateTopic_start_ok.subscribe) hr
    intro s a u hs hst hu
    have hread := hs fun r hr => hu r (hst.produced_subset hr)
    cases a with
    | expire =>
      -- the delete would be one of the values
      rcases hst with _ | _ | _ | ⟨hb, hnull, -⟩ | ⟨hb, hnull, -⟩
      · rename_i a b r
        have hr : r ∈ s.log := List.mem_append_left _ (by rw [hb]; simp)
        exact absurd hnull (hu r (hread.ok.subset r hr))
      · rename_i a b r
        have hr : r ∈ s.log := List.mem_append_right _ (by rw [hb]; simp)
        exact absurd hnull (hu r (hread.ok.subset r hr))
    | subscribe =>
      cases hst
      exact hread.ok.subscribe
    | produce r => exact hread.step hst trivial
    | clean => exact hread.step hst trivial
    | read => exact hread.step hst trivial
  exact hinv hvalues

/-- **`latest_per_key` does not depend on the cleaner.** In every run of producers that send no null
values, of the cleaner and of a reader, a read that comes to the end of the topic gives the same
dictionary as all the records that were produced. -/
theorem read_latest (t : StateTopic α) (hr : Reach (StateStep maxRecords) (StateTopic.start α) t)
    (hvalues : ∀ r ∈ t.produced, r.value ≠ none) (hend : t.ahead = []) (q : Option String) :
    (latestPerKey t.out).get? q = (latestPerKey (t.produced.map item)).get? q := by
  have hread := reading_of_values hr hvalues
  have hjoin := hread.drained hend q
  obtain ⟨l, hout, -, hsub⟩ := hread.taken
  rw [hout] at hjoin ⊢
  rw [get?_latestPerKey_values fun r hr => hvalues r (hsub r hr), get?_latestPerKey_values hvalues, hjoin]

/-- The key that was set again has its later value. -/
theorem read_latest_again :
    (latestPerKey (final (twoKeys (some 2)).subscribed (twoKeysRun (some 2))).out).get? (some "user-0") =
      some (some 2) := by
  have hrun : Reach (StateStep 10000) (StateTopic.start ℕ)
      (final (twoKeys (some 2)).subscribed (twoKeysRun (some 2))) :=
    (twoKeys_reach (some 2)).trans ((reach_step .subscribe).trans ⟨_, twoKeysRun_isRun (some 2), rfl⟩)
  have hvalues : ∀ r ∈ (twoKeys (some 2)).produced, r.value ≠ none := by decide
  exact read_latest _ hrun hvalues rfl (some "user-0")

/-! ## The target -/

/-- The topic and its segments. The cleaner rewrites the rolled ones, never the active one. -/
structure SegmentedTopic (α : Type*) where
  topic : StateTopic α
  rolled : List (Entry String α)
  active : List (Entry String α)
  log_eq : topic.log = rolled ++ active

/-- A new topic. -/
def SegmentedTopic.start (α : Type*) : SegmentedTopic α := ⟨StateTopic.start α, [], [], rfl⟩

/-- The steps of `StateStep`, by segment. A segment is rolled when a record begins the next one,
and the cleaner compares rolled records with rolled records. -/
inductive SegmentStep (maxRecords : ℕ) : SegmentedTopic α → StateAct α → SegmentedTopic α → Prop where
  | append {s t : SegmentedTopic α} {r : Entry String α}
      (h : StateStep maxRecords s.topic (.produce r) t.topic) (hrolled : t.rolled = s.rolled)
      (hactive : t.active = s.active ++ [r]) : SegmentStep maxRecords s (.produce r) t
  | roll {s t : SegmentedTopic α} {r : Entry String α}
      (h : StateStep maxRecords s.topic (.produce r) t.topic) (hrolled : t.rolled = s.rolled ++ s.active)
      (hactive : t.active = [r]) : SegmentStep maxRecords s (.produce r) t
  | clean {s t : SegmentedTopic α} {a b : List (Entry String α)} {r : Entry String α}
      (h : StateStep maxRecords s.topic .clean t.topic) (hold : s.rolled = a ++ r :: b)
      (hkey : hasKey r.key b = true) (hrolled : t.rolled = a ++ b) (hactive : t.active = s.active) :
      SegmentStep maxRecords s .clean t
  | expire {s t : SegmentedTopic α} {a b : List (Entry String α)} {r : Entry String α}
      (h : StateStep maxRecords s.topic .expire t.topic) (hold : s.rolled = a ++ r :: b)
      (hnull : r.value = none) (hkey : hasKey r.key a = false) (hrolled : t.rolled = a ++ b)
      (hactive : t.active = s.active) : SegmentStep maxRecords s .expire t
  | subscribe {s t : SegmentedTopic α} (h : StateStep maxRecords s.topic .subscribe t.topic)
      (hrolled : t.rolled = s.rolled) (hactive : t.active = s.active) : SegmentStep maxRecords s .subscribe t
  | read {s t : SegmentedTopic α} (h : StateStep maxRecords s.topic .read t.topic)
      (hrolled : t.rolled = s.rolled) (hactive : t.active = s.active) : SegmentStep maxRecords s .read t

/-- A step of the cleaner. -/
def CleanerStep (maxRecords : ℕ) (s : SegmentedTopic α) (act : StateAct α) (t : SegmentedTopic α) : Prop :=
  (act = .clean ∨ act = .expire) ∧ SegmentStep maxRecords s act t

variable {S T : SegmentedTopic α}

/-- **The segments refine the topic.** -/
theorem SegmentStep.topic (h : SegmentStep maxRecords S act T) : StateStep maxRecords S.topic act T.topic := by
  rcases h with ⟨h, -, -⟩ | ⟨h, -, -⟩ | ⟨h, -, -, -, -⟩ | ⟨h, -, -, -, -, -⟩ | ⟨h, -, -⟩ | ⟨h, -, -⟩ <;> exact h

/-- **What the cleaner leaves alone**: what is live of the rolled segments, and the active one. -/
theorem CleanerStep.keeps (h : CleanerStep maxRecords S act T) :
    live T.rolled = live S.rolled ∧ T.active = S.active := by
  obtain ⟨hact, hstep⟩ := h
  rcases hstep with _ | _ | ⟨-, hold, hkey, hrolled, hactive⟩ | ⟨-, hold, hnull, hkey, hrolled, hactive⟩ | _ | _
  · rcases hact with h | h <;> cases h
  · rcases hact with h | h <;> cases h
  · rw [hrolled, hold, live_superseded hkey]
    exact ⟨rfl, hactive⟩
  · rw [hrolled, hold, live_expired hnull hkey]
    exact ⟨rfl, hactive⟩
  · rcases hact with h | h <;> cases h
  · rcases hact with h | h <;> cases h

end SparkDev.Kafka
