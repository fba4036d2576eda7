import Prismal.Lib.JsonText
import Prismal.Lib.Lru
import Prismal.Lib.Run

namespace Prismal.Routing
open Prismal.Lib
set_option autoImplicit true

/-! The cache of responses: keys of a tenant, a time to live, and room for so many entries. -/

structure ResponseKey where
  orgId : String
  agent : String
  modelRef : String
  messagesHash : String
  promptVersion : String
  deriving DecidableEq

/-- `json.dumps([org_id, agent, model_ref, messages_hash, prompt_version])` -/
def ResponseKey.payload (k : ResponseKey) : List Char :=
  Json.write (.arr [.str k.orgId, .str k.agent, .str k.modelRef, .str k.messagesHash,
    .str k.promptVersion])

structure ResponseCache where
  max : Nat
  pos : 0 < max
  data : Dict String (String × Rat)
  bounded : data.keys.length ≤ max

/-- `max(1, max_entries)` -/
def ResponseCache.empty (maxEntries : Int) : ResponseCache where
  max := (Max.max 1 maxEntries).toNat
  pos := by omega
  data := ∅
  bounded := Nat.zero_le _

namespace ResponseCache

def key (sha256 : List Char → String) (k : ResponseKey) : String := sha256 k.payload

def get (c : ResponseCache) (key : String) (now : Rat) : Option String × ResponseCache :=
  match h : c.data.get? key with
  | none => (none, c)
  | some (content, expiresAt) =>
    if expiresAt < now then
      (none, { c with
        data := c.data.erase key
        bounded := (Lru.Effect.dropped key).bounded c.bounded })
    else
      (some content, { c with
        data := c.data.touch key
        bounded := (Lru.Effect.hit key (Dict.mem_of_get? h)).bounded c.bounded })

def put (c : ResponseCache) (key content : String) (ttlS : Int) (now : Rat) : ResponseCache :=
  { c with
    data := (c.data.push key (content, now + ttlS)).trim c.max
    bounded := (Lru.Effect.stored key (content, now + ttlS)).bounded c.bounded }

end ResponseCache

inductive ResponseCall where
  | get (k : ResponseKey) (now : Rat)
  | put (k : ResponseKey) (content : String) (ttlS : Int) (now : Rat)

namespace ResponseCache

variable (sha256 : List Char → String)

def step (c : ResponseCache) : ResponseCall → ResponseCache
  | .get k now => (c.get (key sha256 k) now).2
  | .put k content ttlS now => c.put (key sha256 k) content ttlS now

def usesOf (c : ResponseCache) : ResponseCall → List (Lru.Use String)
  | .get k now =>
    match c.data.get? (key sha256 k) with
    | none => []
    | some (_, expiresAt) =>
      if expiresAt < now then [.drop (key sha256 k)] else [.use (key sha256 k)]
  | .put k _ _ _ => [.use (key sha256 k)]

def uses (c : ResponseCache) : List ResponseCall → List (Lru.Use String)
  | [] => []
  | call :: calls => usesOf sha256 c call ++ uses (step sha256 c call) calls

abbrev after (c : ResponseCache) (calls : List ResponseCall) : ResponseCache :=
  Run.final (step sha256) c calls

variable {sha256} {c : ResponseCache} {k : ResponseKey} {calls : List ResponseCall}

theorem payload_injective (h : ResponseKey.payload j = ResponseKey.payload k) : j = k := by
  rw [ResponseKey.payload, ResponseKey.payload, Json.write_plain, Json.write_plain] at h
  have htree := Json.Dialect.write_injective Json.plain rfl rfl h
  obtain ⟨orgId, agent, modelRef, messagesHash, promptVersion⟩ := j
  cases htree
  rfl

theorem key_injective (hsha : Function.Injective sha256) (h : key sha256 j = key sha256 k) :
    j = k := payload_injective (hsha h)

theorem get_hit (h : c.data.get? digest = some (content, expiresAt)) (hnow : now ≤ expiresAt) :
    (c.get digest now).1 = some content ∧ (c.get digest now).2.data = c.data.touch digest := by
  rw [get]
  split
  · next hnone => cases hnone.symm.trans h
  · next hsome =>
    cases hsome.symm.trans h
    rw [if_neg (not_lt.2 hnow)]
    exact ⟨rfl, rfl⟩

theorem get_expired (h : c.data.get? digest = some (content, expiresAt)) (hnow : expiresAt < now) :
    (c.get digest now).1 = none ∧ (c.get digest now).2.data = c.data.erase digest := by
  rw [get]
  split
  · next hnone => cases hnone.symm.trans h
  · next hsome =>
    cases hsome.symm.trans h
    rw [if_pos hnow]
    exact ⟨rfl, rfl⟩

theorem get_absent (h : c.data.get? digest = none) : c.get digest now = (none, c) := by
  rw [get]
  split
  · rfl
  · next hsome => cases hsome.symm.trans h

theorem step_max (c : ResponseCache) (call : ResponseCall) : (step sha256 c call).max = c.max := by
  cases call with
  | get k now =>
    rw [step, get]
    split
    · rfl
    · split <;> rfl
  | put k content ttlS now => rfl

theorem spares_step (hput : ∀ content ttlS now, call ≠ .put k content ttlS now)
    (hsha : Function.Injective sha256)
    (hs : Lru.Spares c.max (key sha256 k) (step sha256 c call).data us d) :
    Lru.Spares c.max (key sha256 k) c.data (usesOf sha256 c call ++ us) d := by
  cases call with
  | get j now =>
    rw [usesOf]
    cases hget : c.data.get? (key sha256 j) with
    | none =>
      rw [step, get_absent hget] at hs
      exact hs
    | some entry =>
      obtain ⟨content, expiresAt⟩ := entry
      by_cases hnow : expiresAt < now
      · rw [step, (get_expired hget hnow).2] at hs
        simp only [if_pos hnow]
        exact Lru.Spares.cons (.dropped _) nofun hs
      · rw [step, (get_hit hget (not_lt.1 hnow)).2] at hs
        simp only [if_neg hnow]
        have hmem := Dict.mem_of_get? hget
        apply Lru.Spares.cons (.hit _ hmem) _ hs
        intro huse
        rw [← Lru.Use.use.inj huse]
        exact ⟨hmem, rfl⟩
  | put j content ttlS now =>
    apply Lru.Spares.cons (.stored _ _) _ hs
    intro huse
    have hjk : j = k := key_injective hsha (Lru.Use.use.inj huse)
    rw [hjk] at hput
    exact absurd rfl (hput content ttlS now)

theorem spares_after (hput : ∀ content ttlS now, ResponseCall.put k content ttlS now ∉ calls)
    (hsha : Function.Injective sha256) :
    Lru.Spares c.max (key sha256 k) c.data (uses sha256 c calls) (after sha256 c calls).data := by
  induction calls generalizing c with
  | nil => exact Lru.Spares.nil _
  | cons call calls ih =>
    have hrest := ih (c := step sha256 c call) fun content ttlS now hmem =>
      hput content ttlS now (List.mem_cons_of_mem call hmem)
    rw [step_max] at hrest
    apply spares_step _ hsha hrest
    intro content ttlS now hcall
    exact hput content ttlS now (hcall ▸ List.mem_cons_self)

theorem put_youngest (c : ResponseCache) (key content : String) (ttlS : Int) (now : Rat) :
    (c.put key content ttlS now).data.get? key = some (content, now + ttlS) ∧
      ∃ old, (c.put key content ttlS now).data.keys = old ++ [key] := by
  constructor
  · exact Dict.get?_trim_push c.data c.pos
  · rw [put, Lru.keys_trim, Lru.keys_push]
    exact ⟨_, rtake_append_of_le c.pos⟩

/-- A response is served as long as it has not expired and its key has not gone unused while the
cache filled up with others. -/
theorem served_iff (sha256 : List Char → String) (hsha : Function.Injective sha256)
    (c : ResponseCache) (k : ResponseKey) (content : String) (ttlS : Int) (since now : Rat)
    (calls : List ResponseCall)
    (hput : ∀ content ttlS now, ResponseCall.put k content ttlS now ∉ calls) :
    ((after sha256 (c.put (key sha256 k) content ttlS since) calls).get (key sha256 k) now).1 =
      if now ≤ since + ttlS ∧ Lru.Kept c.max (key sha256 k) []
          (uses sha256 (c.put (key sha256 k) content ttlS since) calls) then some content
      else none := by
  obtain ⟨hsome, old, hold⟩ := put_youngest c (key sha256 k) content ttlS since
  have hspares := spares_after (c := c.put (key sha256 k) content ttlS since) hput hsha
  have hkept := hspares.kept (c.put (key sha256 k) content ttlS since).bounded hold c.pos
  rw [hsome] at hkept
  by_cases hroom : Lru.Kept (c.put (key sha256 k) content ttlS since).max (key sha256 k) []
      (uses sha256 (c.put (key sha256 k) content ttlS since) calls)
  · rw [if_pos hroom] at hkept
    by_cases hnow : now ≤ since + ttlS
    · rw [(get_hit hkept hnow).1]
      exact (if_pos ⟨hnow, hroom⟩).symm
    · rw [(get_expired hkept (not_le.1 hnow)).1]
      exact (if_neg fun h => hnow h.1).symm
  · rw [if_neg hroom] at hkept
    rw [get_absent hkept]
    exact (if_neg fun h => hroom h.2).symm

/-- Of two responses in a cache for two, the one that has been read is kept when a third comes. -/
theorem served_iff_read_between :
    let k : ResponseKey := ⟨"acme", "coder", "m", "h", "1"⟩
    let c := (ResponseCache.empty 2).put (key String.ofList k) "yes" 60 0
    let calls := [ResponseCall.put { k with agent := "critic" } "no" 60 1, .get k 2,
      .put { k with agent := "planner" } "maybe" 60 3]
    ((after String.ofList c calls).get (key String.ofList k) 4).1 =
      if (4 : Rat) ≤ 0 + (60 : Int) ∧ Lru.Kept 2 (key String.ofList k) [] (uses String.ofList c calls)
      then some "yes" else none := by
  intro k c calls
  apply served_iff String.ofList (fun _ _ => String.ofList_inj.1) (ResponseCache.empty 2)
  intro content ttlS now hmem
  simp [calls, k] at hmem

end ResponseCache

end Prismal.Routing
