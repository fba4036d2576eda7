import Mathlib.Algebra.GroupWithZero.Nat
import Prismal.Lib.Dict

namespace Prismal.Scheduler
open Prismal.Lib
set_option autoImplicit true

/-! Jobs that run once: from the datetime they are added with, over the text that is stored, to the
trigger of the executor. -/

def isLeap (y : Nat) : Bool := y % 4 == 0 && (y % 100 != 0 || y % 400 == 0)

def daysInMonth (y m : Nat) : Nat :=
  if m = 2 then (if isLeap y then 29 else 28)
  else if m = 4 ∨ m = 6 ∨ m = 9 ∨ m = 11 then 30
  else 31

/-- A reading of the calendar and the clock in whole seconds. -/
structure Clock where
  year : Nat
  month : Nat
  day : Nat
  hour : Nat
  minute : Nat
  second : Nat
  date_valid : (1 ≤ year ∧ year ≤ 9999) ∧ (1 ≤ month ∧ month ≤ 12) ∧
    1 ≤ day ∧ day ≤ daysInMonth year month
  time_valid : hour < 24 ∧ minute < 60 ∧ second < 60
  deriving DecidableEq

def daysBeforeYear (y : Nat) : Nat :=
  (y - 1) * 365 + (y - 1) / 4 - (y - 1) / 100 + (y - 1) / 400

def daysBeforeMonth (y m : Nat) : Nat :=
  ((List.range (m - 1)).map fun i => daysInMonth y (i + 1)).sum

def Clock.seconds (c : Clock) : Int :=
  (((daysBeforeYear c.year + daysBeforeMonth c.year c.month + c.day) * 24 + c.hour) * 60 +
    c.minute) * 60 + c.second

/-- A datetime. Its offset in microseconds is that of its `tzinfo`, if it has one. -/
structure DateTime where
  clock : Clock
  microsecond : Fin 1000000 := 0
  fold : Bool := false
  offset : Option Int := none

/-- A timezone: the offset of a local reading in seconds, which is ambiguous when the clock is set
back, and the local reading at an instant. Both are in microseconds. -/
structure Zone where
  utcoffset : Int → Bool → Int
  fromutc : Int → Int
  fromutc_near : ∀ now, fromutc now < now + 86400 * 1000000

/-- `resolve_timezone` for a name, and `get_scheduler_tz`. -/
structure DateTimeService where
  resolveTimezone : String → Zone
  schedulerTz : Zone

def DateTimeService.jobTz (dts : DateTimeService) (timezone : String) : Zone :=
  if timezone = "" then dts.schedulerTz else dts.resolveTimezone timezone

def DateTime.utcoffset (d : DateTime) (tz : Zone) : Int :=
  d.offset.getD (tz.utcoffset d.clock.seconds d.fold)

def DateTime.instant (d : DateTime) (tz : Zone) : Int :=
  d.clock.seconds * 1000000 + d.microsecond - d.utcoffset tz

def padded : Nat → Nat → List Char
  | 0, _ => []
  | w + 1, n => padded w (n / 10) ++ [Nat.digitChar (n % 10)]

/-- `strftime("%Y-%m-%dT%H:%M:%S")` -/
def Clock.strftime (c : Clock) : List Char :=
  padded 4 c.year ++ '-' :: (padded 2 c.month ++ '-' :: (padded 2 c.day ++ 'T' ::
    (padded 2 c.hour ++ ':' :: (padded 2 c.minute ++ ':' :: padded 2 c.second))))

def takeNumber (w : Nat) (cs : List Char) : Option (Nat × List Char) :=
  let ds := cs.take w
  if ds.length = w ∧ ds.all Char.isDigit = true then
    some (ds.foldl (fun n c => n * 10 + (c.toNat - 48)) 0, cs.drop w)
  else none

def takeChar (p : Char → Bool) : List Char → Option (List Char)
  | [] => none
  | c :: cs => if p c then some cs else none

/-- The datetime of a text with a date and a time of whole seconds, which `separator` keeps apart:
`fromisoformat`, or `strptime` with the stored format. -/
def parseClock (separator : Char → Bool) (cs : List Char) : Option Clock := do
  let (year, cs) ← takeNumber 4 cs
  let cs ← takeChar (· == '-') cs
  let (month, cs) ← takeNumber 2 cs
  let cs ← takeChar (· == '-') cs
  let (day, cs) ← takeNumber 2 cs
  let cs ← takeChar separator cs
  let (hour, cs) ← takeNumber 2 cs
  let cs ← takeChar (· == ':') cs
  let (minute, cs) ← takeNumber 2 cs
  let cs ← takeChar (· == ':') cs
  let (second, cs) ← takeNumber 2 cs
  if h : ((1 ≤ year ∧ year ≤ 9999) ∧ (1 ≤ month ∧ month ≤ 12) ∧
      1 ≤ day ∧ day ≤ daysInMonth year month) ∧ (hour < 24 ∧ minute < 60 ∧ second < 60) ∧
      cs = [] then
    some ⟨year, month, day, hour, minute, second, h.1, h.2.1⟩
  else none

/-- A row of the table `cron_jobs` that was added for one run. -/
structure OnceRow where
  name : String
  schedule : List Char
  task : String
  nextRun : List Char
  timezone : String
  maxRetries : Nat := 0
  retryDelaySeconds : Nat := 60
  retryCount : Nat := 0
  outputChannel : Option String := none
  outputTarget : Option String := none

/-- `add_once` -/
def addOnce (table : Dict String OnceRow) (name : String) (runAt : DateTime) (task : String)
    (timezone : String) (outputChannel outputTarget : Option String) :
    Except String (Dict String OnceRow) :=
  if name ∈ table then .error ("Cron job '" ++ name ++ "' already exists")
  else
    .ok (table.set name {
      name := name
      schedule := "once:".toList ++ runAt.clock.strftime
      task := task
      nextRun := runAt.clock.strftime
      timezone := timezone
      outputChannel := outputChannel
      outputTarget := outputTarget })

/-- What comes of registering a job: a trigger that fires at an instant, or by a cron expression,
the removal of a job whose time has passed, or an error. -/
inductive Registration where
  | date (instant : Int)
  | cron (expression : List Char)
  | expired
  | malformed
  deriving DecidableEq, Repr

/-- `_register_job` at an instant. Datetimes of one zone are compared by what their clocks read. -/
def registerJob (dts : DateTimeService) (now : Int) (job : OnceRow) : Registration :=
  let jobTz := dts.jobTz job.timezone
  if "once:".toList.isPrefixOf job.schedule then
    match parseClock (fun _ => true) (job.schedule.drop 5) with
    | none => .malformed
    | some clock =>
      let runDate : DateTime := { clock := clock }
      if clock.seconds * 1000000 ≤ jobTz.fromutc now then .expired
      else .date (runDate.instant jobTz)
  else .cron job.schedule

/-- The `next_run` of a row, read as `_row_to_job` reads it, in the convention of the store: the
reading of a clock at UTC. -/
def OnceRow.nextRunUtc (job : OnceRow) : Option Int :=
  (parseClock (· == 'T') job.nextRun).map fun clock => clock.seconds * 1000000

theorem length_padded (w n : Nat) : (padded w n).length = w := by
  induction w generalizing n with
  | zero => rfl
  | succ w ih => rw [padded, List.length_append, ih, List.length_singleton]

theorem digitChar_spec (h : d < 10) :
    (Nat.digitChar d).isDigit = true ∧ (Nat.digitChar d).toNat - 48 = d := by
  have hall : ∀ d < 10, (Nat.digitChar d).isDigit = true ∧ (Nat.digitChar d).toNat - 48 = d := by
    decide
  exact hall d h

theorem isDigit_padded (w n : Nat) : (padded w n).all Char.isDigit = true := by
  induction w generalizing n with
  | zero => rfl
  | succ w ih =>
    rw [padded, List.all_append, ih, Bool.true_and, List.all_cons, List.all_nil, Bool.and_true]
    exact (digitChar_spec (Nat.mod_lt n (by decide))).1

theorem value_padded (h : n < 10 ^ w) :
    (padded w n).foldl (fun n c => n * 10 + (c.toNat - 48)) 0 = n := by
  induction w generalizing n with
  | zero =>
    rw [Nat.pow_zero] at h
    rw [padded, List.foldl_nil]
    omega
  | succ w ih =>
    rw [padded, List.foldl_append, ih (by rw [Nat.pow_succ] at h; omega), List.foldl_cons,
      List.foldl_nil, (digitChar_spec (Nat.mod_lt n (by decide))).2]
    omega

theorem takeNumber_padded (h : n < 10 ^ w) (cs : List Char) :
    takeNumber w (padded w n ++ cs) = some (n, cs) := by
  have htake : (padded w n ++ cs).take w = padded w n := List.take_left' (length_padded w n)
  have hdrop : (padded w n ++ cs).drop w = cs := List.drop_left' (length_padded w n)
  rw [takeNumber, htake, hdrop]
  simp only [length_padded, isDigit_padded, value_padded h, and_self, if_true]

theorem takeChar_cons (h : p c = true) (cs : List Char) : takeChar p (c :: cs) = some cs :=
  if_pos h

theorem parseClock_strftime (c : Clock) (h : separator 'T' = true) :
    parseClock separator c.strftime = some c := by
  have hdate := c.date_valid
  have htime := c.time_valid
  have hday : c.day < 10 ^ 2 := by
    have hle : daysInMonth c.year c.month ≤ 31 := by
      rw [daysInMonth]
      split
      · split <;> decide
      · split <;> decide
    omega
  have hsecond := takeNumber_padded (n := c.second) (w := 2) (by omega) []
  rw [List.append_nil] at hsecond
  rw [parseClock, Clock.strftime, takeNumber_padded (by omega)]
  simp only [Option.bind_eq_bind, Option.bind_some]
  rw [takeChar_cons (by decide), Option.bind_some, takeNumber_padded (by omega), Option.bind_some,
    takeChar_cons (by decide), Option.bind_some, takeNumber_padded hday, Option.bind_some,
    takeChar_cons h, Option.bind_some, takeNumber_padded (by omega), Option.bind_some,
    takeChar_cons (by decide), Option.bind_some, takeNumber_padded (by omega), Option.bind_some,
    takeChar_cons (by decide), Option.bind_some, hsecond, Option.bind_some,
    dif_pos ⟨hdate, htime, rfl⟩]

/-- Whenever a job is registered it fires at the instant that its datetime denotes, unless its time
has passed, and that instant is what its row stores. -/
structure OnTime (dts : DateTimeService) (runAt : DateTime) (timezone : String) (job : OnceRow) :
    Prop where
  fires : ∀ now, registerJob dts now job = .expired ∨
    registerJob dts now job = .date (runAt.instant (dts.jobTz timezone))
  stored : job.nextRunUtc = some (runAt.instant (dts.jobTz timezone))

theorem instant_naive (c : Clock) (tz : Zone) :
    ({ clock := c } : DateTime).instant tz =
      c.seconds * 1000000 - tz.utcoffset c.seconds false := by
  have hwhole : (((0 : Fin 1000000) : Nat) : Int) = 0 := rfl
  rw [DateTime.instant, DateTime.utcoffset, Option.getD_none, hwhole, Int.add_zero]

theorem registerJob_once (dts : DateTimeService) (now : Int) {job : OnceRow} {c : Clock}
    (h : job.schedule = "once:".toList ++ c.strftime) :
    registerJob dts now job =
      if c.seconds * 1000000 ≤ (dts.jobTz job.timezone).fromutc now then .expired
      else .date (c.seconds * 1000000 - (dts.jobTz job.timezone).utcoffset c.seconds false) := by
  have honce : "once:".toList.isPrefixOf ("once:".toList ++ c.strftime) = true := by
    rw [List.isPrefixOf_iff_prefix]
    exact List.prefix_append _ _
  have hdrop : ("once:".toList ++ c.strftime).drop 5 = c.strftime := rfl
  have hparsed : parseClock (fun _ => true) c.strftime = some c := parseClock_strftime c rfl
  simp only [registerJob, h, if_pos honce, hdrop, hparsed, instant_naive]

theorem exists_before (tz : Zone) (reading : Int) : ∃ now, ¬ reading ≤ tz.fromutc now := by
  refine ⟨reading - 86400 * 1000000, ?_⟩
  have hnear := tz.fromutc_near (reading - 86400 * 1000000)
  omega

theorem fires_iff (dts : DateTimeService) {runAt : DateTime} {job : OnceRow}
    (h : job.schedule = "once:".toList ++ runAt.clock.strftime) :
    (∀ now, registerJob dts now job = .expired ∨
        registerJob dts now job = .date (runAt.instant (dts.jobTz job.timezone))) ↔
      runAt.utcoffset (dts.jobTz job.timezone) =
        (dts.jobTz job.timezone).utcoffset runAt.clock.seconds false + runAt.microsecond := by
  simp only [registerJob_once dts _ h, DateTime.instant]
  apply Iff.intro
  · intro hfires
    obtain ⟨now, hnow⟩ := exists_before (dts.jobTz job.timezone) (runAt.clock.seconds * 1000000)
    have hdate := hfires now
    rw [if_neg hnow] at hdate
    obtain hdate | hdate := hdate
    · cases hdate
    · injection hdate with hdate
      omega
  · intro hsame now
    split
    · exact Or.inl rfl
    · refine Or.inr (congrArg Registration.date ?_)
      omega

theorem stored_iff (tz : Zone) {runAt : DateTime} {job : OnceRow}
    (h : job.nextRun = runAt.clock.strftime) :
    job.nextRunUtc = some (runAt.instant tz) ↔ runAt.utcoffset tz = runAt.microsecond := by
  have hparsed : parseClock (· == 'T') runAt.clock.strftime = some runAt.clock :=
    parseClock_strftime _ rfl
  rw [OnceRow.nextRunUtc, h, hparsed, Option.map_some, Option.some.injEq, DateTime.instant]
  omega

theorem get?_addOnce
    (h : addOnce table name runAt task timezone outputChannel outputTarget = .ok table') :
    ∃ job, table'.get? name = some job ∧ job.timezone = timezone ∧
      job.schedule = "once:".toList ++ runAt.clock.strftime ∧
      job.nextRun = runAt.clock.strftime := by
  rw [addOnce] at h
  split at h
  · cases h
  · cases h
    exact ⟨_, Dict.get?_set_self _ _ _, rfl, rfl, rfl⟩

/-- A job that is added once runs on time if and only if nothing is lost where its datetime is
written down as the reading of its clock: the offset at which the datetime is read is as long as the
microseconds that are dropped, and the timezone of the job is at UTC when its clock shows that
reading. -/
theorem addOnce_onTime_iff (dts : DateTimeService)
    (h : addOnce table name runAt task timezone outputChannel outputTarget = .ok table') :
    (∃ job, table'.get? name = some job ∧ OnTime dts runAt timezone job) ↔
      runAt.utcoffset (dts.jobTz timezone) = runAt.microsecond ∧
        (dts.jobTz timezone).utcoffset runAt.clock.seconds false = 0 := by
  obtain ⟨job, hjob, htimezone, hschedule, hnext⟩ := get?_addOnce h
  have hfires := fires_iff dts hschedule
  have hstored := stored_iff (dts.jobTz timezone) hnext
  rw [htimezone] at hfires
  apply Iff.intro
  · intro hex
    obtain ⟨job', hjob', hontime⟩ := hex
    rw [hjob, Option.some.injEq] at hjob'
    subst hjob'
    have hread := hstored.1 hontime.stored
    have hsame := hfires.1 hontime.fires
    exact ⟨hread, by omega⟩
  · intro hlost
    refine ⟨job, hjob, hfires.2 ?_, hstored.2 hlost.1⟩
    rw [hlost.2, hlost.1, Int.zero_add]

def Zone.fixed (offset : Int) (h : offset < 86400 * 1000000) : Zone where
  utcoffset _ _ := offset
  fromutc now := now + offset
  fromutc_near now := by omega

def summer : DateTimeService where
  resolveTimezone name := if name = "UTC" then .fixed 0 (by decide)
    else .fixed (7200 * 1000000) (by decide)
  schedulerTz := .fixed 0 (by decide)

def firstOfJune : Clock :=
  ⟨2026, 6, 1, 9, 0, 0, by decide, by decide⟩

theorem addOnce_new (runAt : DateTime) (task timezone : String)
    (outputChannel outputTarget : Option String) (h : name ∉ table) : ∃ table',
      addOnce table name runAt task timezone outputChannel outputTarget = .ok table' :=
  ⟨_, if_neg h⟩

theorem addOnce_utc : ∃ table',
    addOnce ∅ "report" { clock := firstOfJune } "Send it" "UTC" none none = .ok table' ∧
      ∃ job, table'.get? "report" = some job ∧
        OnTime summer { clock := firstOfJune } "UTC" job := by
  obtain ⟨table', hadded⟩ := addOnce_new { clock := firstOfJune } "Send it" "UTC" none none
    (show "report" ∉ (∅ : Dict String OnceRow) from List.not_mem_nil)
  exact ⟨table', hadded, (addOnce_onTime_iff summer hadded).2 ⟨rfl, rfl⟩⟩

/-- Nine o'clock at UTC, in a timezone two hours ahead: the job is registered for seven o'clock at
UTC. -/
theorem addOnce_early : ∃ table', addOnce ∅ "report" { clock := firstOfJune, offset := some 0 }
    "Send it" "Europe/Berlin" none none = .ok table' ∧
      ¬ ∃ job, table'.get? "report" = some job ∧
        OnTime summer { clock := firstOfJune, offset := some 0 } "Europe/Berlin" job := by
  obtain ⟨table', hadded⟩ := addOnce_new { clock := firstOfJune, offset := some 0 } "Send it"
    "Europe/Berlin" none none (show "report" ∉ (∅ : Dict String OnceRow) from List.not_mem_nil)
  refine ⟨table', hadded, ?_⟩
  intro hex
  obtain ⟨job, hjob, hontime⟩ := hex
  obtain ⟨job', hjob', htimezone, hschedule, _⟩ := get?_addOnce hadded
  rw [hjob, Option.some.injEq] at hjob'
  subst hjob'
  have hfires := (fires_iff summer hschedule).1 (htimezone ▸ hontime.fires)
  rw [htimezone] at hfires
  revert hfires
  decide

end Prismal.Scheduler
