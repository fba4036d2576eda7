import Mathlib.Data.Rat.Defs
import Prismal.Lib.Dict

namespace Prismal.Events
open Prismal.Lib
set_option autoImplicit true

/-- A mapping key: a string, or another hashable object with its `str()` rendering. -/
inductive Key where
  | str (s : String)
  | other (rendered : String)
  deriving DecidableEq, Repr

def Key.render : Key → String
  | .str s => s
  | .other r => r

def Key.name : Key → Option String
  | .str s => some s
  | .other _ => none

/-- A Python object, as far as the translator can tell objects apart. A finite float carries its
exact value and its `repr`; `rogue` is a mapping whose every access raises. -/
inductive Py where
  | none
  | bool (b : Bool)
  | int (i : Int)
  | float (value : Rat) (repr : String)
  | nonfinite (repr : String)
  | str (s : String)
  | list (xs : List Py)
  | tuple (xs : List Py)
  | dict (es : List (Key × Py))
  | interrupt (value : Py) (id : Py)
  | model (typeName : String) (dump : Py)
  | object (typeName : String)
  | rogue (typeName : String)

/-- An exception escaped from the code that handles an object. -/
inductive PyError where
  | raised
  deriving DecidableEq, Repr

namespace Py

def typeName : Py → String
  | .none => "NoneType"
  | .bool _ => "bool"
  | .int _ => "int"
  | .float _ _ | .nonfinite _ => "float"
  | .str _ => "str"
  | .list _ => "list"
  | .tuple _ => "tuple"
  | .dict _ => "dict"
  | .interrupt _ _ => "Interrupt"
  | .model t _ | .object t | .rogue t => t

def asStr : Py → Option String
  | .str s => some s
  | _ => Option.none

/-- `hash()` raises for lists, mappings and value objects that define equality. -/
def hashable : Py → Bool
  | .list _ | .dict _ | .interrupt _ _ | .model _ _ | .rogue _ => false
  | _ => true

/-- `bool()` of a value; only a mapping's own `__len__` can raise. -/
def truthy : Py → Except PyError Bool
  | .none => .ok false
  | .bool b => .ok b
  | .int i => .ok (i != 0)
  | .float q _ => .ok (q != 0)
  | .str s => .ok (s != "")
  | .list xs | .tuple xs => .ok !xs.isEmpty
  | .dict es => .ok !es.isEmpty
  | .nonfinite _ | .interrupt _ _ | .model _ _ | .object _ => .ok true
  | .rogue _ => .error .raised

def isMapping : Py → Bool
  | .dict _ | .rogue _ => true
  | _ => false

/-- `mapping.get(key)` of a value known to be a mapping. -/
def get (v : Py) (key : String) : Except PyError (Option Py) :=
  match v with
  | .dict es => .ok (Dict.lookup (.str key) es)
  | .rogue _ => .error .raised
  | _ => .ok Option.none

def number : Py → Option Rat
  | .bool b => some (if b then 1 else 0)
  | .int i => some i
  | .float q _ => some q
  | _ => Option.none

mutual

/-- `==` on JSON values: numbers compare by value, mappings regardless of order. -/
def eq : Py → Py → Bool
  | .none, .none => true
  | .str s, .str t => s == t
  | .list xs, .list ys => eqItems xs ys
  | .tuple xs, .tuple ys => eqItems xs ys
  | .dict es, .dict fs => es.length == fs.length && eqEntries es fs
  | .bool b, w => numberEq (.bool b) w
  | .int i, w => numberEq (.int i) w
  | .float q r, w => numberEq (.float q r) w
  | _, _ => false

def eqItems : List Py → List Py → Bool
  | [], [] => true
  | x :: xs, y :: ys => eq x y && eqItems xs ys
  | _, _ => false

def eqEntries : List (Key × Py) → List (Key × Py) → Bool
  | [], _ => true
  | (k, v) :: es, fs =>
    (match Dict.lookup k fs with
      | some w => eq v w
      | Option.none => false) && eqEntries es fs

def numberEq (v w : Py) : Bool :=
  match number v, number w with
  | some p, some q => p == q
  | _, _ => false

end

end Py

mutual

/-- Strict JSON view (`_json_value`); `none` is the `_DROP` sentinel. -/
def jsonValue : Py → Except PyError (Option Py)
  | .none => .ok (some .none)
  | .bool b => .ok (some (.bool b))
  | .int i => .ok (some (.int i))
  | .str s => .ok (some (.str s))
  | .float q r => .ok (some (.float q r))
  | .dict es => do return some (.dict (← jsonEntries es))
  | .list xs => do return some (.list (← jsonItems xs))
  | .tuple xs => do return some (.list (← jsonItems xs))
  | .rogue _ => .error .raised
  | .nonfinite _ | .interrupt _ _ | .model _ _ | .object _ => .ok none

def jsonItems : List Py → Except PyError (List Py)
  | [] => .ok []
  | x :: xs => do
    let head ← jsonValue x
    let rest ← jsonItems xs
    return head.toList ++ rest

def jsonEntries : List (Key × Py) → Except PyError (List (Key × Py))
  | [] => .ok []
  | (.str k, v) :: es => do
    let head ← jsonValue v
    let rest ← jsonEntries es
    return (head.toList.map fun w => (Key.str k, w)) ++ rest
  | (.other _, _) :: es => jsonEntries es

end

/-- The mapping built from entries in order: a repeated key keeps its place and the later value. -/
def collapse (es : List (Key × Py)) : List (Key × Py) :=
  es.foldl (fun acc e => Dict.put e.1 e.2 acc) []

mutual

/-- Lenient JSON view (`json_safe`): unknown objects become `"<TypeName>"`. -/
def jsonSafe : Py → Except PyError Py
  | .none => .ok .none
  | .bool b => .ok (.bool b)
  | .int i => .ok (.int i)
  | .str s => .ok (.str s)
  | .float q r => .ok (.float q r)
  | .nonfinite r => .ok (.str r)
  | .dict es => do return .dict (collapse (← jsonSafeEntries es))
  | .list xs => do return .list (← jsonSafeItems xs)
  | .tuple xs => do return .list (← jsonSafeItems xs)
  | .model t dump =>
    match jsonSafe dump with
    | .ok v => .ok v
    | .error _ => .ok (.str s!"<{t}>")
  | .interrupt _ _ => .ok (.str "<Interrupt>")
  | .object t => .ok (.str s!"<{t}>")
  | .rogue _ => .error .raised

def jsonSafeItems : List Py → Except PyError (List Py)
  | [] => .ok []
  | x :: xs => do
    let head ← jsonSafe x
    let rest ← jsonSafeItems xs
    return head :: rest

def jsonSafeEntries : List (Key × Py) → Except PyError (List (Key × Py))
  | [] => .ok []
  | (k, v) :: es => do
    let head ← jsonSafe v
    let rest ← jsonSafeEntries es
    return (.str k.render, head) :: rest

end

def hexDigit (n : Nat) : Char := "0123456789abcdef".toList.getD n '0'

def escapeChar (c : Char) : String :=
  if c = '"' then "\\\""
  else if c = '\\' then "\\\\"
  else if c = '\n' then "\\n"
  else if c = '\r' then "\\r"
  else if c = '\t' then "\\t"
  else if c.toNat = 8 then "\\b"
  else if c.toNat = 12 then "\\f"
  else if c.toNat < 32 then
    String.ofList ['\\', 'u', '0', '0', hexDigit (c.toNat / 16), hexDigit (c.toNat % 16)]
  else c.toString

def jsonString (s : String) : String := "\"" ++ String.join (s.toList.map escapeChar) ++ "\""

mutual

/-- `json.dumps(value, ensure_ascii=False)` of a value `jsonSafe` returned. -/
def jsonDumps : Py → String
  | .none => "null"
  | .bool b => if b then "true" else "false"
  | .int i => toString i
  | .float _ r | .nonfinite r => r
  | .str s => jsonString s
  | .list xs | .tuple xs => "[" ++ ", ".intercalate (dumpItems xs) ++ "]"
  | .dict es => "\x7b" ++ ", ".intercalate (dumpEntries es) ++ "\x7d"
  | .interrupt _ _ | .model _ _ | .object _ | .rogue _ => ""

def dumpItems : List Py → List String
  | [] => []
  | x :: xs => jsonDumps x :: dumpItems xs

def dumpEntries : List (Key × Py) → List String
  | [] => []
  | (k, v) :: es => (jsonString k.render ++ ": " ++ jsonDumps v) :: dumpEntries es

end

/-- A JSON scalar leaf (`_scalar`), else dropped. -/
def scalar : Py → Option Py
  | .none => some .none
  | .bool b => some (.bool b)
  | .int i => some (.int i)
  | .str s => some (.str s)
  | .float q r => some (.float q r)
  | _ => none

def defaultStateKeys : List String :=
  ["current_agent", "next_agent", "task_plan", "completed_tasks", "pending_tasks",
    "iteration_count", "token_count", "estimated_cost_usd", "metadata"]

def allowedMetadataKeys : List (String × Option (List String)) :=
  [("budget", some ["enabled", "scope"]), ("intent", none)]

def project (value : Py) : List String → Except PyError (List (Key × Py))
  | [] => .ok []
  | sub :: subs => do
    let leaf ← value.get sub
    let rest ← project value subs
    return ((leaf.bind scalar).toList.map fun w => (Key.str sub, w)) ++ rest

def sanitizeKey (value : Py) : Option (List String) → Except PyError (Option Py)
  | none => .ok (scalar value)
  | some subs =>
    if value.isMapping then do
      let projected ← project value subs
      return if projected.isEmpty then none else some (.dict projected)
    else .ok none

def sanitizeEntries (md : Py) :
    List (String × Option (List String)) → Except PyError (List (Key × Py))
  | [] => .ok []
  | (key, subs) :: rest => do
    let out ← (do
      match ← md.get key with
      | none => return none
      | some value => sanitizeKey value subs)
    let more ← sanitizeEntries md rest
    return (out.toList.map fun w => (Key.str key, w)) ++ more

/-- Project metadata onto the allowlist (`sanitize_metadata`); non-mappings yield `{}`. -/
def sanitizeMetadata (md : Py) : Except PyError (List (Key × Py)) :=
  if md.isMapping then sanitizeEntries md allowedMetadataKeys else .ok []

def viewEntry (key : String) (value : Py) : Except PyError (Option Py) :=
  if key = "metadata" then
    if value.isMapping then do
      let seen ← sanitizeMetadata value
      return if seen.isEmpty then none else some (.dict seen)
    else .ok none
  else jsonValue value

def viewEntries (keys : List String) : List (Key × Py) → Except PyError (Dict String Py)
  | [] => .ok ∅
  | (.str key, value) :: es => do
    if key ∈ keys ∧ ¬ key.startsWith "_" then
      let head ← viewEntry key value
      let rest ← viewEntries keys es
      return match head with
        | some w => ⟨(key, w) :: (rest.erase key).entries, by
            rw [List.map_cons, List.nodup_cons]
            refine ⟨?_, (rest.erase key).nodup⟩
            exact fun h => ((Dict.mem_erase rest).1 (Dict.mem_iff_keys.2 h)).1 rfl⟩
        | none => rest
    else viewEntries keys es
  | (.other _, _) :: es => viewEntries keys es

/-- Allowlisted, JSON-only projection of a state (`state_view`). -/
def stateView (state : Py) (keys : List String) : Except PyError (Dict String Py) :=
  match state with
  | .dict es => viewEntries keys es
  | .rogue _ => .error .raised
  | _ => .ok ∅

inductive PatchOp where
  | remove (path : String)
  | add (path : String) (value : Py)
  | replace (path : String) (value : Py)

/-- JSON-pointer escaping of one reference token (`_pointer`). -/
def pointer (token : String) : String :=
  (token.replace "~" "~0").replace "/" "~1"

def unionKeys (old new : List (Key × Py)) : List Key :=
  ((old.map Prod.fst ++ (new.map Prod.fst).filter fun k => !(old.map Prod.fst).contains k)).mergeSort
    fun j k => j.render ≤ k.render

mutual

def diffShared : Py → Py → String → List PatchOp
  | .dict es, .dict fs, p => diffKeys (differs es) es fs p (unionKeys es fs)
  | v, w, p => if v.eq w && v.typeName == w.typeName then [] else [.replace p w]

def differs : List (Key × Py) → List (Key × (Py → String → List PatchOp))
  | [] => []
  | (k, v) :: es => (k, diffShared v) :: differs es

def diffKeys (ds : List (Key × (Py → String → List PatchOp))) (es fs : List (Key × Py))
    (path : String) : List Key → List PatchOp
  | [] => []
  | k :: ks =>
    let p := path ++ "/" ++ pointer k.render
    (match Dict.lookup k ds, Dict.lookup k fs with
      | _, none => [.remove p]
      | none, some w => [.add p w]
      | some d, some w => d w p) ++ diffKeys ds es fs path ks

end

/-- RFC 6902 patch turning `old` into `new` (`json_patch_diff`). -/
def jsonPatchDiff (old new : Dict String Py) : List PatchOp :=
  diffShared (.dict (old.entries.map fun e => (.str e.1, e.2)))
    (.dict (new.entries.map fun e => (.str e.1, e.2))) ""

end Prismal.Events
