import Mathlib.Algebra.Order.Ring.Unbundled.Rat
import Mathlib.Tactic.Linarith
import Prismal.Lib.Lists
import Prismal.Lib.Dict

namespace Prismal.Mcp
open Prismal.Lib
set_option autoImplicit true

/-! The cache of tool lists: its keys, its entries and who is served which list. -/

inductive CacheScope where
  | shared
  | principal
  deriving DecidableEq, Repr

/-- All pages of a `tools/list` with the cache hints of the server. -/
structure ToolListPage (τ : Type) where
  tools : List τ
  ttlMs : Option Int := none
  cacheScope : Option CacheScope := none

structure CachedToolList (τ : Type) where
  server : String
  scopeKey : String
  tools : List τ
  contentHash : String
  fetchedAt : Rat
  expiresAt : Rat

structure Entry (τ : Type) where
  cached : CachedToolList τ
  expiresAt : Rat

/-- The `mcp_tool_cache_*` settings with the bounds that are checked when they are read. -/
structure CacheSettings where
  defaultTtlS : Nat
  maxTtlS : Nat
  maxEntries : Nat
  default_pos : 0 < defaultTtlS
  max_pos : 0 < maxTtlS
  entries_pos : 0 < maxEntries
  default_le_max : defaultTtlS ≤ maxTtlS

/-- What the cache reads of a tool: its name, and the digest of a list of tools as sorted-key JSON
text. -/
structure ToolReader (τ : Type) where
  name : τ → String
  digest : List τ → String

/-- Who asks for a tool list, or has fetched one. -/
structure Caller where
  server : String
  orgId : Option String
  principal : Option String
  deriving DecidableEq, Repr

abbrev ToolCache (τ : Type) := Dict String (Entry τ)

/-- `_sorted_tools` -/
def sortedTools (reader : ToolReader τ) (tools : List τ) : List τ :=
  tools.mergeSort fun a b => decide (reader.name a ≤ reader.name b)

def canonicalToolsHash (reader : ToolReader τ) (tools : List τ) : String :=
  reader.digest (sortedTools reader tools)

/-- `part or '-'` -/
def orDash : Option String → String
  | none => "-"
  | some part => if part = "" then "-" else part

def principalScopeKey (c : Caller) : String :=
  s!"{c.server}:{orDash c.orgId}:{orDash c.principal}"

/-- `_keys_for` -/
def keysFor (c : Caller) : List String := [principalScopeKey c, c.server]

def keyOf (c : Caller) (page : ToolListPage τ) : String :=
  if page.cacheScope = some .shared then c.server else principalScopeKey c

def ttlOf (settings : CacheSettings) (page : ToolListPage τ) : Rat :=
  match page.ttlMs with
  | none => settings.defaultTtlS
  | some ms => min ((ms : Rat) / 1000) settings.maxTtlS

namespace ToolCache

def live (cache : ToolCache τ) (now : Rat) (key : String) : Option (Entry τ) :=
  (cache.get? key).filter fun e => decide (now < e.expiresAt)

def serve (cache : ToolCache τ) (now : Rat) :
    List String → Option (CachedToolList τ) × ToolCache τ
  | [] => (none, cache)
  | key :: keys =>
    match cache.live now key with
    | some entry => (some entry.cached, cache.touch key)
    | none => cache.serve now keys

def get (cache : ToolCache τ) (c : Caller) (now : Rat) :
    Option (CachedToolList τ) × ToolCache τ := cache.serve now (keysFor c)

/-- The list that a page is answered with: the one stored before where the hash has not changed. -/
def listOf (settings : CacheSettings) (reader : ToolReader τ) (cache : ToolCache τ) (c : Caller)
    (page : ToolListPage τ) (now : Rat) : CachedToolList τ :=
  let key := keyOf c page
  let contentHash := canonicalToolsHash reader page.tools
  let fresh : CachedToolList τ :=
    { server := c.server, scopeKey := key, tools := sortedTools reader page.tools,
      contentHash := contentHash, fetchedAt := now,
      expiresAt := now + max (ttlOf settings page) 0 }
  match cache.get? key with
  | none => fresh
  | some previous =>
    if previous.cached.contentHash = contentHash then previous.cached else fresh

def put (settings : CacheSettings) (reader : ToolReader τ) (cache : ToolCache τ) (c : Caller)
    (page : ToolListPage τ) (now : Rat) : CachedToolList τ × ToolCache τ :=
  let key := keyOf c page
  let ttl := ttlOf settings page
  let cached := cache.listOf settings reader c page now
  if ttl ≤ 0 then (cached, cache.erase key)
  else (cached, (cache.push key ⟨cached, now + max ttl 0⟩).trim settings.maxEntries)

def invalidate (cache : ToolCache τ) : Option String → Nat × ToolCache τ
  | none => (cache.entries.length, ∅)
  | some server =>
    ((cache.filter fun e => e.2.cached.server == server).entries.length,
      cache.filter fun e => e.2.cached.server != server)

end ToolCache

inductive CacheOp (τ : Type) where
  | get (c : Caller) (now : Rat)
  | put (c : Caller) (page : ToolListPage τ) (now : Rat)
  | invalidate (server : Option String)

def CacheOp.caller? : CacheOp τ → Option Caller
  | .get c _ => some c
  | .put c _ _ => some c
  | .invalidate _ => none

variable (settings : CacheSettings) (reader : ToolReader τ)

def ToolCache.step (cache : ToolCache τ) : CacheOp τ → ToolCache τ
  | .get c now => (cache.get c now).2
  | .put c page now => (cache.put settings reader c page now).2
  | .invalidate server => (cache.invalidate server).2

def ToolCache.after (ops : List (CacheOp τ)) : ToolCache τ :=
  ops.foldl (ToolCache.step settings reader) ∅

/-- A list was put by `p` with this page. -/
def PutBy (ops : List (CacheOp τ)) (p : Caller) (page : ToolListPage τ)
    (list : CachedToolList τ) : Prop :=
  (∃ now, CacheOp.put p page now ∈ ops) ∧
    list.tools = sortedTools reader page.tools ∧ list.server = p.server

/-- What a caller is served was put for the same server, as a shared list or by the same caller. -/
def Isolated (ops : List (CacheOp τ)) (c : Caller) : Prop :=
  ∀ now list, ((ToolCache.after settings reader ops).get c now).1 = some list →
    ∃ p page, PutBy reader ops p page list ∧ p.server = c.server ∧
      (page.cacheScope = some .shared ∨ p = c)

/-- No two of these callers have one key, and none has the name of another's server for a key. -/
structure Separate (S : Caller → Prop) : Prop where
  keys : ∀ a b, S a → S b → principalScopeKey a = principalScopeKey b → a = b
  servers : ∀ a b, S a → S b → principalScopeKey a ≠ b.server

def Put (ops : List (CacheOp τ)) (cache : ToolCache τ) : Prop :=
  ∀ key e, cache.get? key = some e →
    ∃ p page, PutBy reader ops p page e.cached ∧ key = keyOf p page

variable {settings reader}

theorem Put.of_get? (h : Put reader ops cache)
    (hle : ∀ key e, cache'.get? key = some e → cache.get? key = some e) : Put reader ops cache' :=
  fun key e he => h key e (hle key e he)

theorem serve_snd (cache : ToolCache τ) (now : Rat) (keys : List String) :
    ((cache.serve now keys).2).get? key = cache.get? key := by
  induction keys with
  | nil => rfl
  | cons k keys ih =>
    rw [ToolCache.serve]
    split
    · exact Dict.get?_touch cache k
    · exact ih

theorem serve_fst {cache : ToolCache τ} (h : (cache.serve now keys).1 = some list) :
    ∃ key ∈ keys, ∃ e, cache.get? key = some e ∧ e.cached = list := by
  induction keys with
  | nil => cases h
  | cons k keys ih =>
    rw [ToolCache.serve] at h
    split at h
    · next e he =>
      cases h
      exact ⟨k, List.mem_cons_self, e, (Option.filter_eq_some_iff.1 he).1, rfl⟩
    · obtain ⟨key, hkey, he⟩ := ih h
      exact ⟨key, List.mem_cons_of_mem k hkey, he⟩

theorem listOf_put (h : Put reader ops cache) (hop : CacheOp.put c page now ∈ ops) :
    ∃ p page', PutBy reader ops p page' (cache.listOf settings reader c page now) ∧
      keyOf c page = keyOf p page' := by
  rw [ToolCache.listOf]
  split
  · exact ⟨c, page, ⟨⟨now, hop⟩, rfl, rfl⟩, rfl⟩
  · next previous hprev =>
    split
    · exact h _ _ hprev
    · exact ⟨c, page, ⟨⟨now, hop⟩, rfl, rfl⟩, rfl⟩

theorem Put.step (h : Put reader ops cache) (hop : op ∈ ops) :
    Put reader ops (cache.step settings reader op) := by
  cases op with
  | get c now =>
    apply h.of_get?
    intro key e he
    rwa [ToolCache.step, ToolCache.get, serve_snd] at he
  | put c page now =>
    rw [ToolCache.step, ToolCache.put]
    split
    · apply h.of_get?
      intro key e he
      exact ((Dict.get?_filter _ _).1 he).1
    · intro key e he
      have hpush := Dict.get?_of_trim he
      rw [Dict.get?_push] at hpush
      split at hpush
      · next hkey =>
        cases hpush
        rw [← hkey]
        exact listOf_put h hop
      · exact h key e hpush
  | invalidate server =>
    apply h.of_get?
    intro key e he
    cases server with
    | none => cases he
    | some server => exact ((Dict.get?_filter _ _).1 he).1

theorem put_foldl (h : Put reader ops cache) (hsub : later ⊆ ops) :
    Put reader ops (later.foldl (ToolCache.step settings reader) cache) := by
  induction later generalizing cache with
  | nil => exact h
  | cons op later ih =>
    obtain ⟨hop, hlater⟩ := List.cons_subset.1 hsub
    exact ih (h.step hop) hlater

theorem put_after (ops : List (CacheOp τ)) : Put reader ops (ToolCache.after settings reader ops) :=
  put_foldl (fun _ _ he => nomatch he) (List.Subset.refl ops)

theorem principalScopeKey_eq (c : Caller) : principalScopeKey c =
    c.server ++ (":" ++ orDash c.orgId ++ ":" ++ orDash c.principal) := by
  simp only [principalScopeKey, toString, String.append_assoc]

theorem principalScopeKey_ne (c : Caller) : principalScopeKey c ≠ c.server := by
  intro h
  have hlen := congrArg String.length (principalScopeKey_eq c ▸ h)
  have hcolon : ":".length = 1 := rfl
  simp only [String.length_append] at hlen
  omega

theorem Separate.isolated {S : Caller → Prop} (h : Separate S)
    (hops : ∀ op ∈ ops, ∀ p, op.caller? = some p → S p) (hc : S c) :
    Isolated settings reader ops c := by
  intro now list hlist
  obtain ⟨key, hkey, e, he, rfl⟩ := serve_fst hlist
  obtain ⟨p, page, hput, rfl⟩ := put_after ops key e he
  have hp : S p := hops _ hput.1.choose_spec p rfl
  refine ⟨p, page, hput, ?_⟩
  rw [keysFor, List.mem_cons, List.mem_singleton, keyOf] at hkey
  split at hkey
  · next hshared =>
    refine ⟨?_, Or.inl hshared⟩
    cases hkey with
    | inl hk => exact absurd hk.symm (h.servers c p hc hp)
    | inr hk => exact hk
  · cases hkey with
    | inl hk =>
      obtain rfl := h.keys p c hp hc hk
      exact ⟨rfl, Or.inr rfl⟩
    | inr hk => exact absurd hk (h.servers p c hp hc)

theorem ttlOf_default_pos {page : ToolListPage τ} (settings : CacheSettings)
    (h : page.ttlMs = none) : 0 < ttlOf settings page := by
  rw [ttlOf, h]
  exact Nat.cast_pos.2 settings.default_pos

theorem get_put {page : ToolListPage τ} (settings : CacheSettings) (reader : ToolReader τ)
    (httl : page.ttlMs = none)
    (hkey : principalScopeKey c = keyOf p page) :
    ∃ list, ((ToolCache.after settings reader [.put p page 0]).get c 0).1 = some list := by
  have hpos := ttlOf_default_pos settings httl
  have hentry : (ToolCache.after settings reader [.put p page 0]).get? (principalScopeKey c) =
      some ⟨ToolCache.listOf settings reader ∅ p page 0, 0 + max (ttlOf settings page) 0⟩ := by
    rw [ToolCache.after, List.foldl_cons, List.foldl_nil, ToolCache.step, ToolCache.put,
      if_neg (not_le.2 hpos), hkey]
    exact Dict.get?_trim_push _ settings.entries_pos
  have hlive : (0 : Rat) < 0 + max (ttlOf settings page) 0 := by
    rw [zero_add]
    exact lt_max_of_lt_left hpos
  refine ⟨ToolCache.listOf settings reader ∅ p page 0, ?_⟩
  rw [ToolCache.get, keysFor, ToolCache.serve, ToolCache.live, hentry, Option.filter_some,
    if_pos (decide_eq_true hlive)]

theorem callers_put {S : Caller → Prop} {page : ToolListPage τ} (h : S c) :
    ∀ op ∈ [CacheOp.put c page now], ∀ p, op.caller? = some p → S p := by
  intro op hop p hp
  obtain rfl := List.mem_singleton.1 hop
  obtain rfl := Option.some.inj hp
  exact h

theorem separate_of_isolated {S : Caller → Prop}
    (h : ∀ ops : List (CacheOp τ), (∀ op ∈ ops, ∀ p, op.caller? = some p → S p) →
      ∀ c, S c → Isolated settings reader ops c) : Separate S where
  keys := by
    intro a b ha hb hab
    have hkey : principalScopeKey b = keyOf a (⟨[], none, none⟩ : ToolListPage τ) := hab.symm
    obtain ⟨list, hlist⟩ := get_put settings reader rfl hkey
    obtain ⟨p, page, ⟨⟨now, hop⟩, -⟩, -, hwho⟩ := h _ (callers_put ha) b hb 0 list hlist
    obtain ⟨rfl, rfl, -⟩ := CacheOp.put.inj (List.mem_singleton.1 hop)
    exact hwho.resolve_left nofun
  servers := by
    intro a b ha hb hab
    have hkey : principalScopeKey a = keyOf b (⟨[], none, some .shared⟩ : ToolListPage τ) := hab
    obtain ⟨list, hlist⟩ := get_put settings reader rfl hkey
    obtain ⟨p, page, ⟨⟨now, hop⟩, -⟩, hserver, -⟩ := h _ (callers_put hb) a ha 0 list hlist
    obtain ⟨rfl, rfl, -⟩ := CacheOp.put.inj (List.mem_singleton.1 hop)
    exact principalScopeKey_ne a (hab.trans hserver)

/-- A group of callers is isolated in every sequence of their calls exactly when their keys are
separate. -/
theorem isolated_iff_separate (settings : CacheSettings) (reader : ToolReader τ)
    (S : Caller → Prop) :
    (∀ ops : List (CacheOp τ), (∀ op ∈ ops, ∀ p, op.caller? = some p → S p) →
      ∀ c, S c → Isolated settings reader ops c) ↔ Separate S :=
  ⟨separate_of_isolated, fun h _ hops _ hc => h.isolated hops hc⟩

/-- No part of the name of a caller has a colon or stands for an absent one. -/
structure Clean (c : Caller) : Prop where
  server : ':' ∉ c.server.toList
  orgId : ∀ part ∈ c.orgId, ':' ∉ part.toList ∧ part ≠ "" ∧ part ≠ "-"
  principal : ∀ part ∈ c.principal, ':' ∉ part.toList ∧ part ≠ "" ∧ part ≠ "-"

theorem colon_not_mem_orDash {part : Option String}
    (h : ∀ s ∈ part, ':' ∉ s.toList ∧ s ≠ "" ∧ s ≠ "-") : ':' ∉ (orDash part).toList := by
  cases part with
  | none => decide
  | some s =>
    rw [orDash, if_neg (h s rfl).2.1]
    exact (h s rfl).1

theorem orDash_inj {part part' : Option String}
    (h : ∀ s ∈ part, ':' ∉ s.toList ∧ s ≠ "" ∧ s ≠ "-")
    (h' : ∀ s ∈ part', ':' ∉ s.toList ∧ s ≠ "" ∧ s ≠ "-") (he : orDash part = orDash part') :
    part = part' := by
  cases part with
  | none =>
    cases part' with
    | none => rfl
    | some s =>
      rw [orDash, orDash, if_neg (h' s rfl).2.1] at he
      exact absurd he.symm (h' s rfl).2.2
  | some s =>
    rw [orDash, if_neg (h s rfl).2.1] at he
    cases part' with
    | none => exact absurd he (h s rfl).2.2
    | some t =>
      rw [orDash, if_neg (h' t rfl).2.1] at he
      rw [he]

theorem separate_clean : Separate Clean where
  keys := by
    intro a b ha hb h
    have hlist := congrArg String.toList h
    rw [principalScopeKey_eq, principalScopeKey_eq] at hlist
    simp only [String.toList_append, List.append_assoc] at hlist
    obtain ⟨hserver, hrest⟩ := append_cons_inj ha.server hb.server hlist
    obtain ⟨horg, hprincipal⟩ := append_cons_inj (colon_not_mem_orDash ha.orgId)
      (colon_not_mem_orDash hb.orgId) hrest
    rw [Caller.mk.injEq]
    exact ⟨String.toList_injective hserver,
      orDash_inj ha.orgId hb.orgId (String.toList_injective horg),
      orDash_inj ha.principal hb.principal (String.toList_injective hprincipal)⟩
  servers := by
    intro a b ha hb h
    apply hb.server
    rw [← h, principalScopeKey_eq]
    simp

/-- Two tenants whose organisation and principal have colons are served each other's list. -/
theorem collision_served : ¬ ∀ (settings : CacheSettings) (reader : ToolReader String)
    (ops : List (CacheOp String)) (c : Caller), Isolated settings reader ops c := by
  intro h
  let settings : CacheSettings :=
    ⟨300, 86400, 256, by decide, by decide, by decide, by decide⟩
  let reader : ToolReader String := ⟨id, fun tools => ",".intercalate tools⟩
  have hkey : principalScopeKey ⟨"files", some "acme", some "eu:ann"⟩ =
      keyOf ⟨"files", some "acme:eu", some "ann"⟩ ⟨["read", "write"], none, none⟩ := by decide
  obtain ⟨list, hlist⟩ := get_put settings reader rfl hkey
  obtain ⟨p, page, ⟨⟨now, hop⟩, -⟩, -, hwho⟩ := h settings reader _ _ 0 list hlist
  obtain ⟨rfl, rfl, -⟩ := CacheOp.put.inj (List.mem_singleton.1 hop)
  revert hwho
  decide

end Prismal.Mcp
