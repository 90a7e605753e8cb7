import Mathlib.Algebra.GroupWithZero.Nat
import Mathlib.Data.List.Dedup
import Mathlib.Order.MinMax
import SparkDev.Runs.Chain

/-!
# Counting in windows behind a watermark

A query reads a log in micro-batches and counts the events of each window of time. After
a batch its watermark is some time behind the newest event. The engine that runs it is a
parameter, known by what it promises (`WindowQuery.Documented`): it counts an event whose
window has not ended by the watermark, perhaps one whose window has, and writes a window
that has ended to the sink, once, with a count it no longer holds.

* `WindowQuery.OK`: the invariant of every run. What is counted of a window lies between
  its prompt events, which came before it had ended, and all of them.
* `OK.mem_sink`: what the sink is when nothing is left to be read or written.
* `counting_documented`: an engine that keeps the promises.
-/

namespace SparkDev.Runs

/-- Windows of time, and how far behind an event the others are waited for. -/
structure Windowing (W T : Type*) [LinearOrder T] where
  window : T → W
  close : W → T
  back : T → T
  lt_close (t : T) : t < close (window t)

namespace Windowing

variable {W T : Type*} [LinearOrder T] [DecidableEq W] (v : Windowing W T)

/-- How many of some events are in a window. -/
def tally (l : List T) (w : W) : ℕ := (l.map v.window).count w

/-- The watermark after some events. -/
def frontier (origin : T) (l : List T) : T := l.foldl (fun m t => max m (v.back t)) origin

/-- The events that come before their window has ended. -/
def prompt : T → List T → List T
  | _, [] => []
  | m, t :: l => if m < v.close (v.window t) then t :: prompt (max m (v.back t)) l else prompt (max m (v.back t)) l

variable {v}

theorem tally_append (a b : List T) (w : W) : v.tally (a ++ b) w = v.tally a w + v.tally b w := by
  unfold tally
  rw [List.map_append, List.count_append]

theorem tally_cons (t : T) (l : List T) (w : W) :
    v.tally (t :: l) w = v.tally l w + if v.window t = w then 1 else 0 := by
  unfold tally
  rw [List.map_cons, List.count_cons]
  simp only [beq_iff_eq]

theorem tally_pos {l : List T} {w : W} : 0 < v.tally l w ↔ ∃ t ∈ l, v.window t = w := by
  unfold tally
  rw [List.count_pos_iff, List.mem_map]

omit [DecidableEq W] in
theorem frontier_append (origin : T) (a b : List T) :
    v.frontier origin (a ++ b) = v.frontier (v.frontier origin a) b := List.foldl_append

omit [DecidableEq W] in
theorem le_frontier (l : List T) (origin : T) : origin ≤ v.frontier origin l := by
  induction l generalizing origin with
  | nil => exact le_rfl
  | cons x l ih => exact (le_max_left _ _).trans (ih _)

omit [DecidableEq W] in
/-- The watermark is behind the newest event. -/
theorem le_frontier_iff (x : T) (l : List T) (origin : T) :
    x ≤ v.frontier origin l ↔ x ≤ origin ∨ ∃ t ∈ l, x ≤ v.back t := by
  induction l generalizing origin with
  | nil => exact ⟨Or.inl, fun h => h.elim id fun ⟨t, ht, _⟩ => absurd ht List.not_mem_nil⟩
  | cons y l ih =>
    show x ≤ v.frontier (max origin (v.back y)) l ↔ _
    rw [ih, le_max_iff, List.exists_mem_cons_iff, or_assoc]

/-! ## Prompt events -/

omit [DecidableEq W] in
theorem prompt_append (m : T) (a b : List T) :
    v.prompt m (a ++ b) = v.prompt m a ++ v.prompt (v.frontier m a) b := by
  induction a generalizing m with
  | nil => rfl
  | cons x a ih =>
    simp only [List.cons_append, prompt, ih]
    split
    · rfl
    · rfl

omit [DecidableEq W] in
theorem prompt_sublist (m : T) (l : List T) : (v.prompt m l).Sublist l := by
  induction l generalizing m with
  | nil => exact List.Sublist.refl _
  | cons x l ih =>
    unfold prompt
    split
    · exact (ih _).cons_cons x
    · exact (ih _).cons x

theorem tally_prompt_le (m : T) (l : List T) (w : W) : v.tally (v.prompt m l) w ≤ v.tally l w :=
  ((prompt_sublist m l).map v.window).count_le w

/-- A window that has ended has no prompt events any more. -/
theorem tally_prompt_of_closed {m : T} {w : W} (h : v.close w ≤ m) (l : List T) :
    v.tally (v.prompt m l) w = 0 := by
  induction l generalizing m with
  | nil => rfl
  | cons x l ih =>
    have hrest := ih (h.trans (le_max_left m (v.back x)))
    unfold prompt
    split
    · rename_i hopen
      have hne : v.window x ≠ w := fun heq => absurd (heq ▸ hopen) (not_lt.2 h)
      rw [tally_cons, hrest, if_neg hne]
    · exact hrest

omit [DecidableEq W] in
/-- Events are all prompt if none comes when its window has ended. -/
theorem prompt_eq_self {l : List T} {m : T} (hm : ∀ t ∈ l, m < v.close (v.window t))
    (hback : l.Pairwise fun t t' => v.back t < v.close (v.window t')) : v.prompt m l = l := by
  induction l generalizing m with
  | nil => rfl
  | cons x l ih =>
    obtain ⟨hx, hl⟩ := List.pairwise_cons.1 hback
    have hrest : ∀ t ∈ l, max m (v.back x) < v.close (v.window t) := fun t ht =>
      max_lt (hm t (List.mem_cons_of_mem x ht)) (hx t ht)
    unfold prompt
    rw [if_pos (hm x List.mem_cons_self), ih hrest hl]

end Windowing

/-! ## A query and its engine -/

/-- What a sink has for a window. -/
def sinkCount {W : Type*} [DecidableEq W] (sink : List (W × ℕ)) (w : W) : ℕ :=
  ((sink.filter fun p => decide (p.1 = w)).map Prod.snd).sum

/-- A query on its engine. -/
structure WindowQuery (σ W T : Type*) where
  start : σ
  /-- What a micro-batch of some events may do. -/
  batch : σ → List T → σ → Prop
  watermark : σ → T
  /-- The count of a window in the state store. -/
  held : σ → W → ℕ
  sink : σ → List (W × ℕ)

namespace WindowQuery

variable {σ W T : Type*} [LinearOrder T] [DecidableEq W]

/-- What a query has counted of a window. -/
def counted (q : WindowQuery σ W T) (s : σ) (w : W) : ℕ := q.held s w + sinkCount (q.sink s) w

/-- **A micro-batch.** -/
structure Batch (v : Windowing W T) (q : WindowQuery σ W T) (s : σ) (l : List T) (t : σ) : Prop where
  watermark : q.watermark t = v.frontier (q.watermark s) l
  le_counted : ∀ w, q.counted s w ≤ q.counted t w
  counted_le : ∀ w, q.counted t w ≤ q.counted s w + v.tally l w
  /-- An event whose window has not ended is counted. -/
  onTime : ∀ w, q.watermark s < v.close w → q.counted t w = q.counted s w + v.tally l w
  /-- Append mode. -/
  append : ∃ out, q.sink t = q.sink s ++ out ∧ ∀ p ∈ out, v.close p.1 ≤ q.watermark s ∧ 0 < p.2
  once : ((q.sink t).map Prod.fst).Nodup
  evicted : ∀ p ∈ q.sink t, q.held t p.1 = 0

/-- What the engine promises. -/
structure Documented (v : Windowing W T) (origin : T) (q : WindowQuery σ W T) : Prop where
  start_watermark : q.watermark q.start = origin
  start_held (w : W) : q.held q.start w = 0
  start_sink : q.sink q.start = []
  batch {s t : σ} {l : List T} (h : q.batch s l t) : Batch v q s l t

end WindowQuery

/-- A log and a query over it. -/
structure Windowed (σ μ : Type*) where
  query : σ
  read : List μ
  ahead : List μ

/-- A step of a log and a query. -/
inductive WindowAct (μ : Type*) where
  | produce (r : μ)
  | batch (n : ℕ)

namespace WindowQuery

variable {σ μ W T : Type*} [LinearOrder T] [DecidableEq W]

/-- Before the first batch. -/
def begin (q : WindowQuery σ W T) : Windowed σ μ := ⟨q.start, [], []⟩

/-- The steps. A record without a time is in no window. -/
inductive Step (q : WindowQuery σ W T) (event : μ → Option T) : Windowed σ μ → WindowAct μ → Windowed σ μ → Prop where
  | produce {s : Windowed σ μ} {r : μ} : Step q event s (.produce r) { s with ahead := s.ahead ++ [r] }
  | batch {s : Windowed σ μ} {n : ℕ} {t : σ} (h : q.batch s.query ((s.ahead.take n).filterMap event) t) :
      Step q event s (.batch n) ⟨t, s.read ++ s.ahead.take n, s.ahead.drop n⟩

/-- A run has come to its end: nothing is left to be read, and no window to be written. -/
def Rest (v : Windowing W T) (q : WindowQuery σ W T) (s : Windowed σ μ) : Prop :=
  s.ahead = [] ∧ ∀ w, 0 < q.held s.query w → q.watermark s.query < v.close w

/-- The invariant of a query. -/
structure OK (v : Windowing W T) (origin : T) (q : WindowQuery σ W T) (event : μ → Option T)
    (s : Windowed σ μ) : Prop where
  mark : q.watermark s.query = v.frontier origin (s.read.filterMap event)
  prompt_le : ∀ w, v.tally (v.prompt origin (s.read.filterMap event)) w ≤ q.counted s.query w
  counted_le : ∀ w, q.counted s.query w ≤ v.tally (s.read.filterMap event) w
  once : ((q.sink s.query).map Prod.fst).Nodup
  evicted : ∀ p ∈ q.sink s.query, q.held s.query p.1 = 0
  closed : ∀ p ∈ q.sink s.query, v.close p.1 ≤ q.watermark s.query ∧ 0 < p.2

variable {v : Windowing W T} {origin : T} {q : WindowQuery σ W T} {event : μ → Option T} {s t : Windowed σ μ}
  {act : WindowAct μ}

/-! ## What a sink has -/

theorem sinkCount_append (a b : List (W × ℕ)) (w : W) : sinkCount (a ++ b) w = sinkCount a w + sinkCount b w := by
  unfold sinkCount
  rw [List.filter_append, List.map_append, List.sum_append]

theorem sinkCount_eq_zero {sink : List (W × ℕ)} {w : W} (h : w ∉ sink.map Prod.fst) : sinkCount sink w = 0 := by
  have hnone : sink.filter (fun p => decide (p.1 = w)) = [] := by
    rw [List.filter_eq_nil_iff]
    intro p hp heq
    exact h (List.mem_map.2 ⟨p, hp, of_decide_eq_true heq⟩)
  unfold sinkCount
  rw [hnone]
  rfl

/-- A window that is written once has its count. -/
theorem sinkCount_of_mem {sink : List (W × ℕ)} (hkeys : (sink.map Prod.fst).Nodup) {p : W × ℕ} (hp : p ∈ sink) :
    sinkCount sink p.1 = p.2 := by
  obtain ⟨a, b, rfl⟩ := List.append_of_mem hp
  rw [List.map_append, List.map_cons] at hkeys
  obtain ⟨hhere, -⟩ := List.nodup_cons.1 (List.nodup_middle.1 hkeys)
  rw [List.mem_append, not_or] at hhere
  have hone : sinkCount (p :: b) p.1 = p.2 + sinkCount b p.1 := by
    unfold sinkCount
    simp only [List.filter_cons, decide_true, if_true, List.map_cons, List.sum_cons]
  rw [sinkCount_append, hone, sinkCount_eq_zero hhere.1, sinkCount_eq_zero hhere.2, Nat.zero_add, Nat.add_zero]

/-! ## The invariant -/

theorem begin_ok (hq : q.Documented v origin) : OK v origin q event (q.begin : Windowed σ μ) where
  mark := hq.start_watermark
  prompt_le _ := Nat.zero_le _
  counted_le w := by
    show q.held q.start w + sinkCount (q.sink q.start) w ≤ 0
    rw [hq.start_held, hq.start_sink]
    exact Nat.le_refl 0
  once := by
    show ((q.sink q.start).map Prod.fst).Nodup
    rw [hq.start_sink]
    exact List.nodup_nil
  evicted p hp := by
    have hmem : p ∈ q.sink q.start := hp
    rw [hq.start_sink] at hmem
    cases hmem
  closed p hp := by
    have hmem : p ∈ q.sink q.start := hp
    rw [hq.start_sink] at hmem
    cases hmem

/-- **A batch keeps the invariant.** -/
theorem OK.batch (h : OK v origin q event s) {n : ℕ} {u : σ}
    (hb : Batch v q s.query ((s.ahead.take n).filterMap event) u) :
    OK v origin q event ⟨u, s.read ++ s.ahead.take n, s.ahead.drop n⟩ where
  mark := by
    show q.watermark u = v.frontier origin ((s.read ++ s.ahead.take n).filterMap event)
    rw [hb.watermark, h.mark, List.filterMap_append, Windowing.frontier_append]
  prompt_le w := by
    show v.tally (v.prompt origin ((s.read ++ s.ahead.take n).filterMap event)) w ≤ q.counted u w
    have hbefore := h.prompt_le w
    rw [List.filterMap_append, Windowing.prompt_append, Windowing.tally_append, ← h.mark]
    by_cases hopen : q.watermark s.query < v.close w
    · have hnew := Windowing.tally_prompt_le (v := v) (q.watermark s.query) ((s.ahead.take n).filterMap event) w
      have hcounted := hb.onTime w hopen
      omega
    · -- the window has ended: no event of it is prompt any more
      have hnone := Windowing.tally_prompt_of_closed (not_lt.1 hopen) ((s.ahead.take n).filterMap event)
      have hkept := hb.le_counted w
      omega
  counted_le w := by
    show q.counted u w ≤ v.tally ((s.read ++ s.ahead.take n).filterMap event) w
    have hbefore := h.counted_le w
    have hbatch := hb.counted_le w
    rw [List.filterMap_append, Windowing.tally_append]
    omega
  once := hb.once
  evicted := hb.evicted
  closed p hp := by
    have hle : q.watermark s.query ≤ q.watermark u := by
      rw [hb.watermark]
      exact Windowing.le_frontier _ _
    -- the watermark only rises, so what had ended has ended
    obtain ⟨out, hsink, hout⟩ := hb.append
    have hmem : p ∈ q.sink u := hp
    rw [hsink] at hmem
    rcases List.mem_append.1 hmem with hold | hnew
    · exact ⟨(h.closed p hold).1.trans hle, (h.closed p hold).2⟩
    · exact ⟨(hout p hnew).1.trans hle, (hout p hnew).2⟩

/-- **A step keeps it.** -/
theorem OK.step (hq : q.Documented v origin) (h : OK v origin q event s) (hs : Step q event s act t) :
    OK v origin q event t := by
  rcases hs with _ | hb
  · exact ⟨h.mark, h.prompt_le, h.counted_le, h.once, h.evicted, h.closed⟩
  · exact h.batch (hq.batch hb)

/-- **A run keeps it.** -/
theorem reach_ok (hq : q.Documented v origin) (hr : Reach (Step q event) q.begin s) : OK v origin q event s :=
  reach_invariant (fun _ _ _ hs hst => hs.step hq hst) (begin_ok hq) hr

/-- **At rest** the sink has the windows that have ended, with what was counted of them. -/
theorem OK.mem_sink (h : OK v origin q event s) (hrest : Rest v q s) (w : W) (n : ℕ) :
    (w, n) ∈ q.sink s.query ↔ v.close w ≤ q.watermark s.query ∧ 0 < n ∧ n = q.counted s.query w := by
  constructor
  · intro hmem
    obtain ⟨hclose, hpos⟩ := h.closed (w, n) hmem
    refine ⟨hclose, hpos, ?_⟩
    have hheld : q.held s.query w = 0 := h.evicted (w, n) hmem
    have hwritten : sinkCount (q.sink s.query) w = n := sinkCount_of_mem h.once hmem
    unfold counted
    omega
  · -- a window that has ended is not held, so all that was counted of it is in the sink
    rintro ⟨hclose, hpos, rfl⟩
    have hheld : q.held s.query w = 0 := by
      by_contra hne
      exact absurd (hrest.2 w (Nat.pos_of_ne_zero hne)) (not_lt.2 hclose)
    have hcounted : q.counted s.query w = sinkCount (q.sink s.query) w := by
      unfold counted
      rw [hheld, Nat.zero_add]
    have hkey : w ∈ (q.sink s.query).map Prod.fst := by
      by_contra hnot
      rw [hcounted, sinkCount_eq_zero hnot] at hpos
      exact absurd hpos (Nat.lt_irrefl 0)
    obtain ⟨⟨w', n⟩, hmem, rfl⟩ := List.mem_map.1 hkey
    have hn : sinkCount (q.sink s.query) w' = n := sinkCount_of_mem h.once hmem
    rw [hcounted, hn]
    exact hmem

/-! ## An engine that keeps the promises -/

/-- The windows that are held, once for each of their events, and the sink. -/
structure Counts (v : Windowing W T) where
  watermark : T
  held : List W
  sink : List (W × ℕ)
  keys : (sink.map Prod.fst).Nodup
  closed : ∀ w ∈ sink.map Prod.fst, v.close w ≤ watermark
  apart : ∀ w ∈ held, w ∉ sink.map Prod.fst

namespace Counts

variable (s : Counts v)

/-- The windows that are held and have ended, with their counts. -/
def out : List (W × ℕ) :=
  ((s.held.filter fun w => !decide (s.watermark < v.close w)).dedup).map fun w => (w, s.held.count w)

/-- The windows that are held after a batch. -/
def stored (l : List T) : List W :=
  (s.held.filter fun w => decide (s.watermark < v.close w)) ++
    (l.map v.window).filter fun w => decide (s.watermark < v.close w)

theorem out_keys : s.out.map Prod.fst = (s.held.filter fun w => !decide (s.watermark < v.close w)).dedup := by
  unfold out
  rw [List.map_map]
  exact List.map_id _

theorem mem_out_keys {w : W} : w ∈ s.out.map Prod.fst ↔ w ∈ s.held ∧ v.close w ≤ s.watermark := by
  rw [out_keys, List.mem_dedup, List.mem_filter, Bool.not_eq_true', decide_eq_false_iff_not, not_lt]

omit [DecidableEq W] in
theorem mem_stored {l : List T} {w : W} (h : w ∈ s.stored l) :
    s.watermark < v.close w ∧ (w ∈ s.held ∨ w ∈ l.map v.window) := by
  rcases List.mem_append.1 h with h | h
  · exact ⟨of_decide_eq_true (List.mem_filter.1 h).2, Or.inl (List.mem_filter.1 h).1⟩
  · exact ⟨of_decide_eq_true (List.mem_filter.1 h).2, Or.inr (List.mem_filter.1 h).1⟩

/-- A batch: it drops the events whose windows have ended, and writes those windows. -/
def batch (l : List T) : Counts v where
  watermark := v.frontier s.watermark l
  held := s.stored l
  sink := s.sink ++ s.out
  keys := by
    rw [List.map_append]
    refine List.nodup_append.2 ⟨s.keys, ?_, ?_⟩
    · rw [out_keys]
      exact List.nodup_dedup _
    · rintro w hw w' hw' rfl
      exact s.apart w (s.mem_out_keys.1 hw').1 hw
  closed := by
    intro w hw
    rw [List.map_append, List.mem_append] at hw
    refine le_trans ?_ (Windowing.le_frontier l s.watermark)
    rcases hw with hw | hw
    · exact s.closed w hw
    · exact (s.mem_out_keys.1 hw).2
  apart := by
    intro w hw hmem
    obtain ⟨hopen, -⟩ := s.mem_stored hw
    rw [List.map_append, List.mem_append] at hmem
    rcases hmem with hmem | hmem
    · exact absurd hopen (not_lt.2 (s.closed w hmem))
    · exact absurd hopen (not_lt.2 (s.mem_out_keys.1 hmem).2)

theorem sinkCount_out (w : W) : sinkCount s.out w = if s.watermark < v.close w then 0 else s.held.count w := by
  by_cases hmem : w ∈ s.out.map Prod.fst
  · have hclose := (s.mem_out_keys.1 hmem).2
    obtain ⟨p, hp, rfl⟩ := List.mem_map.1 hmem
    have hkeys : (s.out.map Prod.fst).Nodup := by
      rw [out_keys]
      exact List.nodup_dedup _
    have hcount : p.2 = s.held.count p.1 := by
      obtain ⟨w, -, rfl⟩ := List.mem_map.1 hp
      rfl
    rw [sinkCount_of_mem hkeys hp, if_neg (not_lt.2 hclose), hcount]
  · rw [sinkCount_eq_zero hmem]
    split
    · rfl
    · rename_i hclose
      symm
      rw [List.count_eq_zero]
      exact fun hheld => hmem (s.mem_out_keys.2 ⟨hheld, not_lt.1 hclose⟩)

theorem count_stored (l : List T) (w : W) :
    (s.stored l).count w = if s.watermark < v.close w then s.held.count w + v.tally l w else 0 := by
  unfold stored Windowing.tally
  split
  · rename_i hopen
    have hkept : ∀ l : List W, (l.filter fun w => decide (s.watermark < v.close w)).count w = l.count w :=
      fun l => List.count_filter (decide_eq_true hopen)
    rw [List.count_append, hkept, hkept]
  · rename_i hclose
    rw [List.count_eq_zero]
    exact fun hmem => hclose (s.mem_stored hmem).1

end Counts

/-- The engine that counts in lists. -/
def counting (v : Windowing W T) (origin : T) : WindowQuery (Counts v) W T where
  start := ⟨origin, [], [], List.nodup_nil, by rintro w ⟨⟩, by rintro w ⟨⟩⟩
  batch s l t := t = s.batch l
  watermark s := s.watermark
  held s w := s.held.count w
  sink s := s.sink

theorem counting_counted (s : Counts v) (l : List T) (w : W) : (counting v origin).counted (s.batch l) w =
    (counting v origin).counted s w + if s.watermark < v.close w then v.tally l w else 0 := by
  show (s.stored l).count w + sinkCount (s.sink ++ s.out) w = s.held.count w + sinkCount s.sink w + _
  -- a window is held until it has ended, and is written then
  rw [sinkCount_append, s.sinkCount_out, s.count_stored]
  split
  · omega
  · omega

/-- **It keeps them.** -/
theorem counting_documented (v : Windowing W T) (origin : T) : (counting v origin).Documented v origin where
  start_watermark := rfl
  start_held _ := rfl
  start_sink := rfl
  batch := by
    rintro s t l rfl
    refine ⟨rfl, fun w => ?_, fun w => ?_, fun w hopen => ?_, ⟨s.out, rfl, fun p hp => ?_⟩, (s.batch l).keys,
      fun p hp => ?_⟩
    · rw [counting_counted]
      exact Nat.le_add_right _ _
    · rw [counting_counted]
      split
      · exact Nat.le_refl _
      · omega
    · have hopen' : s.watermark < v.close w := hopen
      rw [counting_counted, if_pos hopen']
    · obtain ⟨hheld, hclose⟩ := s.mem_out_keys.1 (List.mem_map_of_mem hp)
      refine ⟨hclose, ?_⟩
      obtain ⟨w, -, rfl⟩ := List.mem_map.1 hp
      exact List.count_pos_iff.2 hheld
    · show (s.stored l).count p.1 = 0
      rw [List.count_eq_zero]
      exact fun hheld => (s.batch l).apart p.1 hheld (List.mem_map_of_mem hp)

end WindowQuery

end SparkDev.Runs
