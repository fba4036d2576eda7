import Prismal.Lib.Json
import Prismal.Lib.Run

namespace Prismal.Security
open Prismal.Lib Prismal.Lib.Json
set_option autoImplicit true

/-! An append-only log of JSON lines, each with the hash of the entry before it. -/

/-- `"0" * 64` -/
def genesisHash : String := "0000000000000000000000000000000000000000000000000000000000000000"

/-- One call of a log method, with the time it is made at. -/
structure LogCall where
  timestamp : String
  event : String
  payload : Dict Key Value

def timestampKey : Key := .str "timestamp"

def eventKey : Key := .str "event"

def prevHashKey : Key := .str "prev_hash"

def entryHashKey : Key := .str "entry_hash"

def entryOf (prev : String) (call : LogCall) : Dict Key Value :=
  (Dict.collect [(timestampKey, .str call.timestamp), (eventKey, .str call.event),
    (prevHashKey, .str prev)]).merge call.payload

/-- `_write`: the line of a call and the hash of its entry. `none`: the entry cannot be sorted, and
nothing is written. -/
def lineOf (hash : Tree → String) (prev : String) (call : LogCall) : Option (Tree × String) :=
  match dumpsSorted (.dict (entryOf prev call).entries) with
  | none => none
  | some t =>
    some (dumps (.dict ((entryOf prev call).set entryHashKey (.str (hash t))).entries), hash t)

def members (line : Tree) : Dict String Tree :=
  match line with
  | .obj es => Dict.collect es
  | _ => ∅

def recomputed (hash : Tree → String) (line : Tree) : String :=
  hash (canon (.obj ((members line).erase "entry_hash").entries))

/-- A line under the protocol: it names the entry before it and carries its own hash. -/
structure LineVerifies (hash : Tree → String) (prev : String) (line : Tree) : Prop where
  linked : (members line).get? "prev_hash" = some (.str prev)
  hashed : (members line).get? "entry_hash" = some (.str (recomputed hash line))

def Verifies (hash : Tree → String) : String → List Tree → Prop
  | _, [] => True
  | prev, line :: rest =>
    LineVerifies hash prev line ∧ Verifies hash (recomputed hash line) rest

def logAll (hash : Tree → String) : String → List LogCall → List Tree
  | _, [] => []
  | prev, call :: calls =>
    match lineOf hash prev call with
    | none => logAll hash prev calls
    | some (line, h) => line :: logAll hash h calls

/-- A payload that leaves the chain's own fields alone and reads back as it was hashed. -/
structure Clean (prev : String) (call : LogCall) : Prop where
  entryHash : call.payload.get? entryHashKey = none
  prevHash : ∀ v, call.payload.get? prevHashKey = some v → v = .str prev
  stable : stableEntries call.payload.entries = true

def CleanRun (hash : Tree → String) : String → List LogCall → Prop
  | _, [] => True
  | prev, call :: calls =>
    match lineOf hash prev call with
    | none => CleanRun hash prev calls
    | some (_, h) => Clean prev call ∧ CleanRun hash h calls

theorem get?_base (prev : String) (call : LogCall) (k : Key) :
    (Dict.collect [(timestampKey, Value.str call.timestamp), (eventKey, .str call.event),
      (prevHashKey, .str prev)]).get? k =
      if prevHashKey = k then some (.str prev)
      else if eventKey = k then some (.str call.event)
      else if timestampKey = k then some (.str call.timestamp) else none := by
  rw [Dict.collect, List.foldl_cons, List.foldl_cons, List.foldl_cons, List.foldl_nil,
    Dict.get?_set, Dict.get?_set, Dict.get?_set, Dict.get?_empty]

theorem get?_entryOf (prev : String) (call : LogCall) (k : Key) :
    (entryOf prev call).get? k = (call.payload.get? k).or
      (if prevHashKey = k then some (.str prev)
      else if eventKey = k then some (.str call.event)
      else if timestampKey = k then some (.str call.timestamp) else none) := by
  rw [entryOf, Dict.get?_merge, get?_base]

theorem mem_eventKey (prev : String) (call : LogCall) : eventKey ∈ (entryOf prev call) := by
  have hne : prevHashKey ≠ eventKey := by decide
  rw [Dict.mem_iff_get?, get?_entryOf, if_neg hne, if_pos rfl]
  cases call.payload.get? eventKey with
  | none => exact ⟨_, rfl⟩
  | some v => exact ⟨v, rfl⟩

theorem mem_timestampKey (prev : String) (call : LogCall) :
    timestampKey ∈ (entryOf prev call) := by
  have hne : prevHashKey ≠ timestampKey := by decide
  have hne' : eventKey ≠ timestampKey := by decide
  rw [Dict.mem_iff_get?, get?_entryOf, if_neg hne, if_neg hne', if_pos rfl]
  cases call.payload.get? timestampKey with
  | none => exact ⟨_, rfl⟩
  | some v => exact ⟨v, rfl⟩

theorem isStr_of_dumpsSorted (h : dumpsSorted (.dict (entryOf prev call).entries) = some t) :
    ∀ k ∈ (entryOf prev call).keys, k.isStr = true := by
  rw [dumpsSorted] at h
  split at h
  · cases h
  next ts hts =>
    split at h
    next hc =>
      rw [keys_sortedEntries hts] at hc
      have hevent : eventKey ∈ (entryOf prev call).keys := mem_eventKey prev call
      have htime : timestampKey ∈ (entryOf prev call).keys := mem_timestampKey prev call
      rw [comparable, Bool.or_eq_true, Bool.or_eq_true, decide_eq_true_eq] at hc
      rcases hc with (hlen | hstr) | hnum
      · exfalso
        have hsub := List.nodup_iff_injective_get.1 (entryOf prev call).nodup
        change (entryOf prev call).keys.length ≤ 1 at hlen
        have heq : eventKey = timestampKey := by
          obtain ⟨a, ha⟩ : ∃ a, (entryOf prev call).keys = [a] := by
            apply List.length_eq_one_iff.1
            exact Nat.le_antisymm hlen (List.length_pos_of_mem hevent)
          rw [ha] at hevent htime
          rw [List.mem_singleton.1 hevent, List.mem_singleton.1 htime]
        exact absurd heq (by decide)
      · exact fun k hk => List.all_eq_true.1 hstr k hk
      · exfalso
        have hnot := List.all_eq_true.1 hnum eventKey hevent
        cases hnot
    · cases h

theorem lookup_dumpsEntries {es : List (Key × Value)} (hs : ∀ k ∈ es.map Prod.fst, k.isStr = true)
    (s : String) : Dict.lookup s (dumpsEntries es) = (Dict.lookup (.str s) es).map dumps := by
  induction es with
  | nil => rfl
  | cons e es ih =>
    obtain ⟨k, v⟩ := e
    have hk := hs k List.mem_cons_self
    cases k with
    | str a =>
      have htail := ih fun k hk => hs k (List.mem_cons_of_mem _ hk)
      by_cases h : a = s
      · subst h
        rw [dumpsEntries, Dict.lookup, Dict.lookup, if_pos rfl, Key.text, if_pos rfl]
        rfl
      · have hkey : ¬ Key.str a = Key.str s := fun he => h (Key.str.inj he)
        rw [dumpsEntries, Dict.lookup, Dict.lookup, if_neg hkey, Key.text, if_neg h, htail]
    | num x t => cases hk
    | null => cases hk

theorem text_injective {j k : Key} (hj : j.isStr = true) (hk : k.isStr = true)
    (h : j.text = k.text) : j = k := by
  cases j with
  | str a =>
    cases k with
    | str b => exact congrArg Key.str h
    | num x t => cases hk
    | null => cases hk
  | num x t => cases hj
  | null => cases hj

theorem nodup_texts {ks : List Key} (hn : ks.Nodup) (hs : ∀ k ∈ ks, k.isStr = true) :
    (ks.map Key.text).Nodup :=
  List.Nodup.map_on (fun j hj k hk h => text_injective (hs j hj) (hs k hk) h) hn

theorem members_dumps {d : Dict Key Value} (hs : ∀ k ∈ d.keys, k.isStr = true) :
    (members (dumps (.dict d.entries))).entries = dumpsEntries d.entries := by
  rw [dumps, members]
  apply Dict.entries_collect
  rw [keys_dumpsEntries]
  have hn : ((d.entries.map Prod.fst).map Key.text).Nodup := nodup_texts d.nodup hs
  rw [List.map_map] at hn
  exact hn

theorem get?_members {d : Dict Key Value} (hs : ∀ k ∈ d.keys, k.isStr = true) (s : String) :
    (members (dumps (.dict d.entries))).get? s = (d.get? (.str s)).map dumps := by
  rw [Dict.get?, members_dumps hs, lookup_dumpsEntries hs]
  rfl

theorem dumps_eq_str (h : dumps v = .str s) : v = .str s := by
  cases v with
  | str a =>
    rw [dumps, Tree.str.injEq] at h
    rw [h]
  | null => cases h
  | bool b => cases h
  | num t => cases h
  | list xs => cases h
  | dict es => cases h

theorem filter_dumpsEntries {es : List (Key × Value)}
    (hs : ∀ k ∈ es.map Prod.fst, k.isStr = true) (s : String) :
    (dumpsEntries es).filter (fun e => !decide (e.1 = s)) =
      dumpsEntries (es.filter fun e => !decide (e.1 = Key.str s)) := by
  induction es with
  | nil => rfl
  | cons e es ih =>
    obtain ⟨k, v⟩ := e
    have hk := hs k List.mem_cons_self
    cases k with
    | str a =>
      have htail := ih fun k hk => hs k (List.mem_cons_of_mem _ hk)
      by_cases h : a = s
      · subst h
        rw [dumpsEntries, List.filter_cons_of_neg (by simp [Key.text]),
          List.filter_cons_of_neg (by simp), htail]
      · rw [dumpsEntries, List.filter_cons_of_pos (by simp [Key.text, h]),
          List.filter_cons_of_pos (by simp [h]), dumpsEntries, htail]
    | num x t => cases hk
    | null => cases hk

theorem filter_put (es : List (Key × Value)) (k : Key) (v : Value) :
    (Dict.put k v es).filter (fun e => !decide (e.1 = k)) =
      es.filter fun e => !decide (e.1 = k) := by
  induction es with
  | nil => simp [Dict.put]
  | cons e es ih =>
    obtain ⟨j, w⟩ := e
    by_cases h : j = k
    · subst h
      simp [Dict.put]
    · rw [Dict.put, if_neg h, List.filter_cons_of_pos (by simp [h]), ih,
        List.filter_cons_of_pos (by simp [h])]

theorem stableEntries_iff (es : List (Key × Value)) :
    stableEntries es = true ↔ ∀ e ∈ es, stable e.2 = true := by
  induction es with
  | nil => simp [stableEntries]
  | cons e es ih =>
    obtain ⟨k, v⟩ := e
    rw [stableEntries, Bool.and_eq_true, ih, List.forall_mem_cons]

theorem le_iff_text {j k : Key} (hj : j.isStr = true) (hk : k.isStr = true) :
    j.le k = true ↔ j.text ≤ k.text := by
  cases j with
  | str a =>
    cases k with
    | str b => exact decide_eq_true_iff
    | num x t => cases hk
    | null => cases hk
  | num x t => cases hj
  | null => cases hj

theorem textOrdered_of_isStr {ks : List Key} (hn : ks.Nodup) (hs : ∀ k ∈ ks, k.isStr = true) :
    textOrdered ks = true := by
  have hsort : (ks.insertionSort fun a b => a.le b).map Key.text =
      (ks.map Key.text).insertionSort (· ≤ ·) :=
    List.map_insertionSort (fun a b : Key => a.le b) (· ≤ ·) Key.text ks
      fun j hj k hk => le_iff_text (hs j hj) (hs k hk)
  rw [textOrdered, decide_eq_true_eq, hsort]
  apply pairwise_lt_of_nodup (List.pairwise_insertionSort _ _)
  exact (List.perm_insertionSort _ _).nodup_iff.2 (nodup_texts hn hs)

theorem stable_entryOf (hs : ∀ k ∈ (entryOf prev call).keys, k.isStr = true) :
    stable (.dict (entryOf prev call).entries) = true ↔
      stableEntries call.payload.entries = true := by
  have hkeys : textOrdered ((entryOf prev call).entries.map Prod.fst) = true :=
    textOrdered_of_isStr (entryOf prev call).nodup hs
  rw [stable, hkeys, Bool.true_and, stableEntries_iff, stableEntries_iff]
  constructor
  · intro h e he
    obtain ⟨k, v⟩ := e
    apply h (k, v)
    have hget := Dict.get?_eq_some.2 he
    rw [← Dict.get?_eq_some, get?_entryOf, hget]
    rfl
  · intro h e he
    obtain ⟨k, v⟩ := e
    have hget := Dict.get?_eq_some.2 he
    rw [get?_entryOf, Option.or_eq_some_iff] at hget
    rcases hget with hp | ⟨-, hb⟩
    · exact h (k, v) (Dict.get?_eq_some.1 hp)
    · -- the log's own fields are texts
      split at hb
      · cases hb
        rfl
      · split at hb
        · cases hb
          rfl
        · split at hb
          · cases hb
            rfl
          · cases hb

/-- What a written line holds, and what a reader makes of it. -/
structure Written (hash : Tree → String) (prev : String) (call : LogCall) (line : Tree)
    (h : String) : Prop where
  prevHash : (members line).get? "prev_hash" =
    ((entryOf prev call).get? prevHashKey).map dumps
  entryHash : (members line).get? "entry_hash" = some (.str h)
  recomputed : recomputed hash line =
    hash (canon (dumps (.dict ((entryOf prev call).erase entryHashKey).entries)))
  sorted : ∃ t, dumpsSorted (.dict (entryOf prev call).entries) = some t ∧ h = hash t

theorem written_of_lineOf {hash : Tree → String} (hw : lineOf hash prev call = some (line, h)) :
    Written hash prev call line h := by
  rw [lineOf] at hw
  split at hw
  · cases hw
  next t ht =>
    cases hw
    have hs := isStr_of_dumpsSorted ht
    have hs' : ∀ k ∈ ((entryOf prev call).set entryHashKey (.str (hash t))).keys,
        k.isStr = true := by
      intro k hk
      rcases (Dict.mem_set _).1 hk with rfl | hk
      · rfl
      · exact hs k hk
    have hne : entryHashKey ≠ prevHashKey := by decide
    constructor
    · rw [get?_members hs', ← prevHashKey, Dict.get?_set_ne _ hne]
    · rw [get?_members hs', ← entryHashKey, Dict.get?_set_self]
      rfl
    · have herase : ((members (dumps (.dict ((entryOf prev call).set entryHashKey
          (.str (hash t))).entries))).erase "entry_hash").entries =
          dumpsEntries ((entryOf prev call).erase entryHashKey).entries := by
        rw [Dict.erase, Dict.filter]
        dsimp only
        rw [members_dumps hs', filter_dumpsEntries hs']
        exact congrArg dumpsEntries (filter_put _ _ _)
      rw [recomputed, herase, dumps]
    · exact ⟨t, ht, rfl⟩

theorem linked_of_written {hash : Tree → String} (hw : Written hash prev call line h) :
    (members line).get? "prev_hash" = some (.str prev) ↔
      ∀ v, call.payload.get? prevHashKey = some v → v = .str prev := by
  rw [hw.prevHash, get?_entryOf, if_pos rfl]
  cases hp : call.payload.get? prevHashKey with
  | none =>
    constructor
    · intro _ v hv
      cases hv
    · exact fun _ => rfl
  | some w =>
    rw [Option.some_or, Option.map_some, Option.some.injEq]
    constructor
    · intro hd v hv
      cases hv
      exact dumps_eq_str hd
    · intro hv
      rw [hv w rfl, dumps]

theorem line_verifies {hash : Tree → String} (hw : Written hash prev call line h) :
    (Clean prev call → LineVerifies hash prev line ∧ Security.recomputed hash line = h) ∧
    (Function.Injective hash → LineVerifies hash prev line → Clean prev call) := by
  obtain ⟨t, ht, rfl⟩ := hw.sorted
  have hstable := stable_entryOf (isStr_of_dumpsSorted ht)
  constructor
  · intro hc
    have hnew : entryHashKey ∉ entryOf prev call := by
      have hb : ¬ prevHashKey = entryHashKey := by decide
      have hb' : ¬ eventKey = entryHashKey := by decide
      have hb'' : ¬ timestampKey = entryHashKey := by decide
      rw [← Dict.get?_eq_none, get?_entryOf, hc.entryHash, if_neg hb, if_neg hb', if_neg hb'']
      rfl
    have hcanon := (canon_dumps _ t ht).2 (hstable.2 hc.stable)
    have hre : Security.recomputed hash line = hash t := by
      rw [hw.recomputed, Dict.erase_of_not_mem hnew, hcanon]
    refine ⟨⟨(linked_of_written hw).2 hc.prevHash, ?_⟩, hre⟩
    rw [hw.entryHash, hre]
  · intro hinj hv
    have heq : canon (dumps (.dict ((entryOf prev call).erase entryHashKey).entries)) = t := by
      have h := hv.hashed
      rw [hw.entryHash, hw.recomputed, Option.some.injEq, Tree.str.injEq] at h
      exact (hinj h).symm
    have hnew : entryHashKey ∉ entryOf prev call := by
      -- the reader removes the member before it hashes, the log did not
      intro hm
      have hs := isStr_of_dumpsSorted ht
      obtain ⟨v, hv'⟩ := (Dict.mem_iff_get? (d := entryOf prev call)).1 hm
      have hname : "entry_hash" ∈ t.names :=
        (mem_names_dumpsSorted ht).2 (List.mem_map.2 ⟨_, Dict.get?_eq_some.1 hv', rfl⟩)
      rw [← heq, mem_names_canon, List.mem_map] at hname
      obtain ⟨e, he, htext⟩ := hname
      have hmem : e.1 ∈ (entryOf prev call).erase entryHashKey := List.mem_map_of_mem he
      obtain ⟨hne, hold⟩ := (Dict.mem_erase _).1 hmem
      exact hne (text_injective (hs e.1 hold) rfl htext)
    have hnone : call.payload.get? entryHashKey = none := by
      cases hp : call.payload.get? entryHashKey with
      | none => rfl
      | some v =>
        refine absurd ?_ hnew
        rw [Dict.mem_iff_get?, get?_entryOf, hp]
        exact ⟨v, rfl⟩
    rw [Dict.erase_of_not_mem hnew] at heq
    exact ⟨hnone, (linked_of_written hw).1 hv.linked,
      hstable.1 ((canon_dumps _ t ht).1 heq)⟩

theorem verifies_logAll (hash : Tree → String) (calls : List LogCall) (prev : String) :
    (CleanRun hash prev calls → Verifies hash prev (logAll hash prev calls)) ∧
    (Function.Injective hash → Verifies hash prev (logAll hash prev calls) →
      CleanRun hash prev calls) := by
  induction calls generalizing prev with
  | nil => exact ⟨fun _ => trivial, fun _ _ => trivial⟩
  | cons call calls ih =>
    cases hl : lineOf hash prev call with
    | none =>
      simp only [logAll, CleanRun, hl]
      exact ih prev
    | some w =>
      obtain ⟨line, h⟩ := w
      have hline := line_verifies (written_of_lineOf hl)
      simp only [logAll, CleanRun, hl, Verifies]
      constructor
      · rintro ⟨hc, hrun⟩
        obtain ⟨hv, hre⟩ := hline.1 hc
        rw [hre]
        exact ⟨hv, (ih h).1 hrun⟩
      · rintro hinj ⟨hv, hrest⟩
        have hc := hline.2 hinj hv
        rw [(hline.1 hc).2] at hrest
        exact ⟨hc, (ih h).2 hinj hrest⟩

/-- The file that a logger writes verifies when every payload it writes is clean, and (the hash has
no collisions) in no other case. -/
theorem audit_chain (hash : Tree → String) (calls : List LogCall) :
    (CleanRun hash genesisHash calls →
      Verifies hash genesisHash (logAll hash genesisHash calls)) ∧
    (Function.Injective hash →
      Verifies hash genesisHash (logAll hash genesisHash calls) →
        CleanRun hash genesisHash calls) :=
  verifies_logAll hash calls genesisHash

def pluginCalls : List LogCall :=
  [⟨"t0", "plugin_loaded", Dict.collect [(.str "plugin", .str "search"), (.str "count", .num "2")]⟩,
    ⟨"t1", "plugin_called",
      Dict.collect [(.str "args", .dict [(.str "b", .null), (.str "a", .null)])]⟩]

theorem audit_chain_plugin :
    Verifies (fun t => String.join ("#" :: t.names)) genesisHash
      (logAll (fun t => String.join ("#" :: t.names)) genesisHash pluginCalls) := by
  apply (audit_chain (fun t => String.join ("#" :: t.names)) pluginCalls).1
  refine ⟨⟨by decide +kernel, ?_, by decide +kernel⟩, ⟨by decide +kernel, ?_, by decide +kernel⟩,
    trivial⟩
  · intro v hv
    cases hv
  · intro v hv
    cases hv

/-- A payload with a field `prev_hash` replaces the link of its line. -/
theorem audit_chain_prev_hash :
    ¬ ∃ hash : Tree → String, Verifies hash genesisHash (logAll hash genesisHash
      [⟨"t0", "plugin_loaded", Dict.collect [(.str "prev_hash", .str "abc")]⟩]) := by
  rintro ⟨hash, hv⟩
  have hlinked : some (Tree.str "abc") = some (.str genesisHash) := hv.1.linked
  have hne : "abc" ≠ genesisHash := by decide
  exact hne (Tree.str.inj (Option.some.inj hlinked))

end Prismal.Security

namespace Prismal.Security
open Prismal.Lib Prismal.Lib.Json
set_option autoImplicit true

/-! Several loggers on one file. -/

/-- One logger. `seen` counts the lines of the file when the logger last read or wrote it. -/
structure Logger where
  prevHash : String
  seen : Nat

structure Log where
  file : List Tree
  loggers : List Logger

inductive Op where
  | opened
  | write (i : Nat) (call : LogCall)

def Log.new : Log := ⟨[], []⟩

def storedHash (line : Tree) : String :=
  match (members line).get? "entry_hash" with
  | some (.str h) => h
  | _ => genesisHash

/-- `_load_last_hash` -/
def lastHash : List Tree → String :=
  List.foldl (fun _ line => storedHash line) genesisHash

/-- `_write` of one logger. -/
def Log.write (hash : Tree → String) (s : Log) (i : Nat) (call : LogCall) : Log :=
  match s.loggers[i]? with
  | none => s
  | some l =>
    match lineOf hash l.prevHash call with
    | none => s
    | some (line, h) => ⟨s.file ++ [line], s.loggers.set i ⟨h, s.file.length + 1⟩⟩

def Log.step (hash : Tree → String) (s : Log) : Op → Log
  | .opened => { s with loggers := s.loggers ++ [⟨lastHash s.file, s.file.length⟩] }
  | .write i call => s.write hash i call

def Linked : String → List Tree → Prop
  | _, [] => True
  | prev, line :: rest =>
    (members line).get? "prev_hash" = some (.str prev) ∧ Linked (storedHash line) rest

/-- The logger has seen the whole file, and the payload has no link of its own. A payload with a
link has to name the last line, and a payload that cannot be written does not matter. -/
def Joins (hash : Tree → String) (s : Log) : Op → List Op → Prop
  | .opened, _ => True
  | .write i call, _ => ∀ l, s.loggers[i]? = some l → lineOf hash l.prevHash call ≠ none →
    match call.payload.get? prevHashKey with
    | none => l.seen = s.file.length
    | some v => v = .str (lastHash s.file)

theorem lastHash_append (file : List Tree) (line : Tree) :
    lastHash (file ++ [line]) = storedHash line := by
  rw [lastHash, List.foldl_append]
  rfl

theorem linked_append (file : List Tree) (line : Tree) (prev : String) :
    Linked prev (file ++ [line]) ↔ Linked prev file ∧
      (members line).get? "prev_hash" =
        some (.str (file.foldl (fun _ line => storedHash line) prev)) := by
  induction file generalizing prev with
  | nil => simp [Linked]
  | cons first rest ih =>
    rw [List.cons_append, Linked, Linked, ih, List.foldl_cons, and_assoc]

/-- The chain holds, and a logger that has seen the whole file knows its last hash. -/
structure Log.Inv (s : Log) : Prop where
  linked : Linked genesisHash s.file
  seen : ∀ l ∈ s.loggers, l.seen ≤ s.file.length
  current : ∀ l ∈ s.loggers, l.seen = s.file.length → l.prevHash = lastHash s.file

theorem inv_new : Log.new.Inv := by
  constructor
  · trivial
  · intro l hl
    cases hl
  · intro l hl
    cases hl

theorem inv_opened {hash : Tree → String} {s : Log} (hs : s.Inv) : (s.step hash .opened).Inv := by
  constructor
  · exact hs.linked
  · intro l hl
    rcases List.mem_append.1 hl with hl | hl
    · exact hs.seen l hl
    · rw [List.mem_singleton.1 hl]
      exact le_refl _
  · intro l hl hseen
    rcases List.mem_append.1 hl with hl | hl
    · exact hs.current l hl hseen
    · rw [List.mem_singleton.1 hl]
      rfl

theorem storedHash_of_written {hash : Tree → String} (hw : Written hash prev call line h) :
    storedHash line = h := by
  rw [storedHash, hw.entryHash]

theorem inv_write {hash : Tree → String} {s : Log} (hs : s.Inv)
    (hj : Joins hash s (.write i call) rest) : (s.step hash (.write i call)).Inv := by
  rw [Log.step, Log.write]
  cases hi : s.loggers[i]? with
  | none => exact hs
  | some l =>
    dsimp only
    cases hl : lineOf hash l.prevHash call with
    | none => exact hs
    | some w =>
      obtain ⟨line, h⟩ := w
      have hw := written_of_lineOf hl
      have hmem : l ∈ s.loggers := List.mem_of_getElem? hi
      have hlink : (members line).get? "prev_hash" = some (.str (lastHash s.file)) := by
        have hcond := hj l hi (by rw [hl]; exact Option.some_ne_none _)
        rw [hw.prevHash, get?_entryOf, if_pos rfl]
        cases hp : call.payload.get? prevHashKey with
        | none =>
          rw [hp] at hcond
          rw [Option.none_or, Option.map_some, hs.current l hmem hcond, dumps]
        | some v =>
          rw [hp] at hcond
          rw [Option.some_or, Option.map_some, hcond, dumps]
      dsimp only
      constructor
      · exact (linked_append s.file line genesisHash).2 ⟨hs.linked, hlink⟩
      · intro k hk
        rw [List.length_append, List.length_singleton]
        rcases List.mem_or_eq_of_mem_set hk with hk | rfl
        · have hle := hs.seen k hk
          omega
        · exact le_refl _
      · intro k hk hseen
        rw [List.length_append, List.length_singleton] at hseen
        rw [lastHash_append, storedHash_of_written hw]
        rcases List.mem_or_eq_of_mem_set hk with hk | rfl
        · -- the others have not seen the new line
          have hle := hs.seen k hk
          omega
        · rfl

/-- Loggers that take turns: while every write joins the end of the file, all lines form one
chain. -/
theorem joint_chain (hash : Tree → String) (ops : List Op)
    (h : Run.Along (Log.step hash) (Joins hash) Log.new ops) :
    Run.Along (Log.step hash) (fun s op _ => Linked genesisHash (s.step hash op).file)
      Log.new ops := by
  apply Run.Along.of_invariant (I := fun s _ => s.Inv) inv_new _ h
  intro s op rest hs hj
  have hnext : (s.step hash op).Inv := by
    cases op with
    | opened => exact inv_opened hs
    | write i call => exact inv_write hs hj
  exact ⟨hnext.linked, hnext⟩

def nodeCall (name : String) : LogCall :=
  ⟨"t0", "node", Dict.collect [(.str "node_name", .str name)]⟩

/-- The second logger is opened after the first one wrote its last line. -/
theorem joint_chain_handover :
    Run.Along (Log.step fun _ => "h")
      (fun s op _ => Linked genesisHash (s.step (fun _ => "h") op).file)
      Log.new [.opened, .write 0 (nodeCall "a"), .opened, .write 1 (nodeCall "b")] := by
  apply joint_chain (fun _ => "h")
  refine ⟨trivial, ?_, trivial, ?_, trivial⟩
  · intro l hl _
    cases hl
    rfl
  · intro l hl _
    cases hl
    rfl

theorem lineOf_of_sorted (hash : Tree → String) (prev : String) (call : LogCall)
    (h : (dumpsSorted (.dict (entryOf prev call).entries)).isSome = true) :
    ∃ line t, lineOf hash prev call = some (line, hash t) := by
  obtain ⟨t, ht⟩ := Option.isSome_iff_exists.1 h
  exact ⟨_, t, by rw [lineOf, ht]⟩

/-- Two loggers are opened on the new file and write one line each: both lines name the first
hash. -/
theorem joint_chain_stale :
    ¬ ∃ hash : Tree → String, (∀ t, hash t ≠ genesisHash) ∧
      Linked genesisHash (Run.final (Log.step hash) Log.new
        [.opened, .opened, .write 0 (nodeCall "a"), .write 1 (nodeCall "b")]).file := by
  rintro ⟨hash, hne, hlinked⟩
  obtain ⟨line, t, ha⟩ := lineOf_of_sorted hash genesisHash (nodeCall "a") (by rfl)
  obtain ⟨line', t', hb⟩ := lineOf_of_sorted hash genesisHash (nodeCall "b") (by rfl)
  have hfile : (Run.final (Log.step hash) Log.new
      [.opened, .opened, .write 0 (nodeCall "a"), .write 1 (nodeCall "b")]).file =
      [line, line'] := by
    simp [Run.final, Log.step, Log.write, Log.new, lastHash, ha, hb]
  rw [hfile] at hlinked
  have hprev := hlinked.2.1
  rw [storedHash_of_written (written_of_lineOf ha), (written_of_lineOf hb).prevHash] at hprev
  exact hne t (Tree.str.inj (Option.some.inj hprev)).symm

end Prismal.Security
