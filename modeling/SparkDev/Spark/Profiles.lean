import Mathlib.Data.List.TakeWhile
import SparkDev.Py.Dict
import SparkDev.Runs.Script

/-!
# Session profiles

`apply_profile` sets the five settings of a profile and whatever overrides come with the
call. A later call sets its own settings and leaves every other one as it finds it.

* `confAfter_apply`: after some calls a setting has the last value a call gave it, or the
  value it had in the beginning.
* `history_independent_iff`: two histories are forgotten by a last call exactly when they
  agree on every setting that call does not make.
* `settings_made`, `tuned_restores`: a call that is not refused makes its settings; a plain
  call restores the settings of its profile.
-/

namespace SparkDev.Spark

open Runs Py

/-- `PROFILES["constrained"]`. -/
def constrained : Dict String String := .ofItems
  [("spark.sql.adaptive.enabled", "false"),
   ("spark.sql.adaptive.skewJoin.enabled", "false"),
   ("spark.sql.adaptive.coalescePartitions.enabled", "false"),
   ("spark.sql.autoBroadcastJoinThreshold", "-1"),
   ("spark.sql.shuffle.partitions", "16")]

/-- `PROFILES["tuned"]`. -/
def tuned : Dict String String := .ofItems
  [("spark.sql.adaptive.enabled", "true"),
   ("spark.sql.adaptive.skewJoin.enabled", "true"),
   ("spark.sql.adaptive.coalescePartitions.enabled", "true"),
   ("spark.sql.autoBroadcastJoinThreshold", toString (10 * 1024 * 1024)),
   ("spark.sql.shuffle.partitions", "200")]

/-- `PROFILES`. -/
def profiles : Dict String (Dict String String) := .ofItems [("constrained", constrained), ("tuned", tuned)]

/-- The session configuration: the effective value of each setting, `none` where it has none. -/
abbrev Conf := String → Option String

/-- What a call raises. -/
inductive ProfileError where
  /-- `ValueError`: `name not in PROFILES`. -/
  | unknownProfile (name : String)
  /-- `spark.conf.set` refused a setting. -/
  | refused (key value : String)
  deriving DecidableEq

/-- A call of `apply_profile`. -/
structure Call (Obj : Type) where
  name : String
  overrides : Dict String Obj

variable {Obj : Type} (accepts : String → String → Bool) (str : Obj → String)

/-- `spark.conf.set`; `accepts` is what Spark lets be set. -/
def setConf (key value : String) : Script Conf ProfileError PUnit :=
  if accepts key value then modify fun conf => Function.update conf key (some value)
  else throw (.refused key value)

/-- `for key, value in settings.items(): spark.conf.set(key, value)`. -/
def setAll : List (String × String) → Script Conf ProfileError PUnit
  | [] => pure ⟨⟩
  | item :: items => do
    setConf accepts item.1 item.2
    setAll items

/-- `apply_profile`. -/
def applyProfile (name : String) (overrides : Dict String Obj) :
    Script Conf ProfileError (Dict String String) :=
  match profiles.get? name with
  | none => throw (.unknownProfile name)
  | some profile => do
    let settings := profile.update (overrides.mapValues str)
    setAll accepts settings.items
    return settings

/-- The configuration after some calls, whether they return or raise. -/
def confAfter (calls : List (Call Obj)) (conf : Conf) : Conf :=
  calls.foldl (fun conf c => (Script.exec (applyProfile accepts str c.name c.overrides) conf).2) conf

/-- The settings a call makes: those of its profile and its overrides, up to the first one
that is refused; none for an unknown profile. -/
def assigned (c : Call Obj) : List (String × String) :=
  match profiles.get? c.name with
  | none => []
  | some profile =>
    (profile.update (c.overrides.mapValues str)).items.takeWhile fun item => accepts item.1 item.2

/-- The last value some calls give to a setting. -/
def lastValue (key : String) (calls : List (Call Obj)) : Option String :=
  Dict.lookup key (calls.flatMap (assigned accepts str)).reverse

/-- The configuration after some assignments. -/
def assign (conf : Conf) (items : List (String × String)) : Conf :=
  items.foldl (fun conf item => Function.update conf item.1 (some item.2)) conf

variable {accepts str} {conf : Conf} {calls : List (Call Obj)} {c : Call Obj} {key value : String}

variable (accepts) in
theorem exec_setConf (key value : String) (conf : Conf) :
    Script.exec (setConf accepts key value) conf =
      if accepts key value then (.ok ⟨⟩, Function.update conf key (some value))
      else (.error (.refused key value), conf) := by
  unfold setConf
  split <;> rfl

variable (accepts) in
/-- The settings before the first refused one are made. -/
theorem exec_setAll : ∀ (items : List (String × String)) (conf : Conf),
    (Script.exec (setAll accepts items) conf).2 =
      assign conf (items.takeWhile fun item => accepts item.1 item.2) := by
  intro items
  induction items with
  | nil => intro conf; rfl
  | cons item items ih =>
    intro conf
    have hset := exec_setConf accepts item.1 item.2 conf
    unfold setAll
    rcases h : accepts item.1 item.2
    · rw [h, if_neg Bool.false_ne_true] at hset
      rw [exec_bind_error hset, List.takeWhile_cons, h]
      rfl
    · rw [h, if_pos rfl] at hset
      rw [exec_bind_ok hset, ih, List.takeWhile_cons, h]
      rfl

/-- What a call does to the configuration, whether it returns or raises. -/
theorem exec_applyProfile (c : Call Obj) (conf : Conf) :
    (Script.exec (applyProfile accepts str c.name c.overrides) conf).2 = assign conf (assigned accepts str c) := by
  unfold applyProfile assigned
  rcases profiles.get? c.name with _ | profile
  · rfl
  · have hall := exec_setAll accepts (profile.update (c.overrides.mapValues str)).items conf
    simp only
    rw [← hall]
    rcases h : Script.exec (setAll accepts (profile.update (c.overrides.mapValues str)).items) conf with ⟨e | u, conf'⟩
    · rw [exec_bind_error h]
    · rw [exec_bind_ok h]
      rfl

theorem confAfter_eq : ∀ (calls : List (Call Obj)) (conf : Conf),
    confAfter accepts str calls conf = assign conf (calls.flatMap (assigned accepts str)) := by
  intro calls
  induction calls with
  | nil => intro conf; rfl
  | cons c calls ih =>
    intro conf
    have hrest := ih (Script.exec (applyProfile accepts str c.name c.overrides) conf).2
    unfold confAfter at hrest ⊢
    rw [List.foldl_cons, hrest, exec_applyProfile, List.flatMap_cons]
    exact List.foldl_append.symm

theorem assign_apply : ∀ (items : List (String × String)) (conf : Conf) (key : String),
    assign conf items key = (Dict.lookup key items.reverse).or (conf key) := by
  intro items
  induction items with
  | nil => intro conf key; rfl
  | cons item items ih =>
    intro conf key
    have hrest := ih (Function.update conf item.1 (some item.2)) key
    unfold assign at hrest ⊢
    rw [List.foldl_cons, hrest, List.reverse_cons, Dict.lookup_append, Option.or_assoc]
    congr 1
    by_cases h : key = item.1
    · rw [h, Function.update_self, Dict.lookup, if_pos rfl]
      rfl
    · rw [Function.update_of_ne h, Dict.lookup, if_neg (Ne.symm h)]
      rfl

/-- **A setting after some calls.** -/
theorem confAfter_apply (calls : List (Call Obj)) (conf : Conf) (key : String) :
    confAfter accepts str calls conf key = (lastValue accepts str key calls).or (conf key) := by
  rw [confAfter_eq, assign_apply]
  rfl

theorem lastValue_append (key : String) (calls calls' : List (Call Obj)) :
    lastValue accepts str key (calls ++ calls') =
      (lastValue accepts str key calls').or (lastValue accepts str key calls) := by
  unfold lastValue
  rw [List.flatMap_append, List.reverse_append, Dict.lookup_append]

theorem lastValue_singleton_eq_none :
    lastValue accepts str key [c] = none ↔ key ∉ (assigned accepts str c).map Prod.fst := by
  unfold lastValue
  rw [List.flatMap_singleton, Dict.lookup_eq_none, List.map_reverse, List.mem_reverse]

/-- **When a last call makes two histories alike**: exactly when they leave every setting
that the last call does not make with one value. -/
theorem history_independent_iff (accepts : String → String → Bool) (str : Obj → String) (conf : Conf)
    (history history' : List (Call Obj)) (c : Call Obj) :
    (∀ key, confAfter accepts str (history ++ [c]) conf key =
        confAfter accepts str (history' ++ [c]) conf key) ↔
      ∀ key, key ∉ (assigned accepts str c).map Prod.fst →
        (lastValue accepts str key history).or (conf key) =
          (lastValue accepts str key history').or (conf key) := by
  refine forall_congr' fun key => ?_
  rw [confAfter_apply, confAfter_apply, lastValue_append, lastValue_append, Option.or_assoc,
    Option.or_assoc, ← lastValue_singleton_eq_none]
  rcases lastValue accepts str key [c] with _ | v
  · simp
  · simp

/-- The lab's call that lowers the skew-join thresholds. -/
def loweredThresholds : Call String where
  name := "tuned"
  overrides := .ofItems
    [("spark.sql.autoBroadcastJoinThreshold", "-1"),
     ("spark.sql.adaptive.skewJoin.skewedPartitionThresholdInBytes", "1m"),
     ("spark.sql.adaptive.skewJoin.skewedPartitionFactor", "2")]

/-- `apply_profile(spark, "tuned")`. -/
def plainTuned : Call String := ⟨"tuned", .empty⟩

/-- **The lowered threshold outlives the reset.** -/
theorem threshold_survives :
    confAfter (fun _ _ => true) id ([loweredThresholds] ++ [plainTuned]) (fun _ => none)
        "spark.sql.adaptive.skewJoin.skewedPartitionThresholdInBytes" = some "1m" ∧
      confAfter (fun _ _ => true) id ([] ++ [plainTuned]) (fun _ => none)
        "spark.sql.adaptive.skewJoin.skewedPartitionThresholdInBytes" = none := by
  constructor <;> decide

/-! ## What a call does restore -/

/-- **A call that is not refused makes all its settings.** -/
theorem settings_made {settings : Dict String String} {profile : Dict String String}
    (hname : profiles.get? c.name = some profile)
    (hsettings : profile.update (c.overrides.mapValues str) = settings)
    (haccepts : ∀ item ∈ settings.items, accepts item.1 item.2 = true)
    (hkey : settings.get? key = some value) :
    confAfter accepts str (calls ++ [c]) conf key = some value := by
  have hall : assigned accepts str c = settings.items := by
    unfold assigned
    rw [hname]
    simp only [hsettings]
    exact List.takeWhile_eq_self_iff.2 haccepts
  have hlast : lastValue accepts str key [c] = some value := by
    unfold lastValue
    rw [List.flatMap_singleton, hall, Dict.lookup_reverse settings.nodup]
    exact hkey
  rw [confAfter_apply, lastValue_append, hlast]
  rfl

theorem update_empty (d : Dict String String) : d.update ((Dict.empty : Dict String Obj).mapValues str) = d :=
  rfl

/-- **A plain call restores the settings of its profile**, whatever came before. -/
theorem tuned_restores (haccepts : ∀ item ∈ tuned.items, accepts item.1 item.2 = true)
    (hkey : tuned.get? key = some value) :
    confAfter accepts str (calls ++ [⟨"tuned", .empty⟩]) conf key = some value :=
  settings_made (by rfl) (update_empty tuned) haccepts hkey

end SparkDev.Spark
