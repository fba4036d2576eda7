import Prismal.Lib.Lru
import Prismal.Lib.Run

namespace Prismal.Agents
open Prismal.Lib
set_option autoImplicit true

/-! The registry of the artifact stores, one for every run of a tenant. -/

def maxRunStores : Nat := 256

/-- The stores by tenant and run, as numbers that tell the objects apart. -/
structure RunStores where
  stores : Dict (String × String) Nat := ∅
  built : Nat := 0
  bounded : stores.keys.length ≤ maxRunStores := by exact Nat.zero_le _
  older : ∀ key number, stores.get? key = some number → number < built := by
    exact fun _ _ h => nomatch h

namespace RunStores

theorem older_trim_push {d : Dict (String × String) Nat} {n m : Nat}
    (h : ∀ key number, d.get? key = some number → number < n) (j key : String × String)
    (number : Nat) (hget : ((d.push j n).trim m).get? key = some number) : number < n + 1 := by
  have hpush := Dict.get?_of_trim hget
  rw [Dict.get?_push] at hpush
  split at hpush
  · cases hpush
    exact Nat.lt_succ_self n
  · exact Nat.lt_succ_of_lt (h key number hpush)

/-- `get_run_artifact_store` -/
def get (r : RunStores) (key : String × String) : Nat × RunStores :=
  match h : r.stores.get? key with
  | none =>
    (r.built,
      { stores := (r.stores.push key r.built).trim maxRunStores
        built := r.built + 1
        bounded := (Lru.Effect.stored key r.built).bounded r.bounded
        older := older_trim_push r.older key })
  | some number =>
    (number,
      { r with
        stores := r.stores.touch key
        bounded := (Lru.Effect.hit key (Dict.mem_of_get? h)).bounded r.bounded
        older := fun j m hj => r.older j m (by rwa [Dict.get?_touch] at hj) })

/-- `clear_run_artifact_store` -/
def clear (r : RunStores) (key : String × String) : RunStores :=
  { r with
    stores := r.stores.erase key
    bounded := (Lru.Effect.dropped key).bounded r.bounded
    older := fun j m hj => r.older j m (Dict.get?_of_get?_erase hj) }

end RunStores

inductive RunStoreCall where
  | get (key : String × String)
  | clear (key : String × String)
  deriving DecidableEq

def RunStoreCall.use : RunStoreCall → Lru.Use (String × String)
  | get key => .use key
  | clear key => .drop key

namespace RunStores

def step (r : RunStores) : RunStoreCall → RunStores
  | .get key => (r.get key).2
  | .clear key => r.clear key

variable {r : RunStores} {key : String × String} {number : Nat} {calls : List RunStoreCall}

theorem get_some (h : r.stores.get? key = some number) :
    (r.get key).1 = number ∧ (r.get key).2.stores = r.stores.touch key := by
  rw [get]
  split
  · next hnone => cases hnone.symm.trans h
  · next hsome =>
    cases hsome.symm.trans h
    exact ⟨rfl, rfl⟩

theorem get_none (h : r.stores.get? key = none) : (r.get key).1 = r.built ∧
    (r.get key).2.stores = (r.stores.push key r.built).trim maxRunStores := by
  rw [get]
  split
  · exact ⟨rfl, rfl⟩
  · next hsome => cases hsome.symm.trans h

theorem get_youngest (r : RunStores) (key : String × String) :
    (r.get key).2.stores.get? key = some (r.get key).1 ∧
      ∃ old, (r.get key).2.stores.keys = old ++ [key] := by
  cases h : r.stores.get? key with
  | none =>
    obtain ⟨hnumber, hstores⟩ := get_none h
    rw [hnumber, hstores]
    constructor
    · exact Dict.get?_trim_push _ (by decide)
    · rw [Lru.keys_trim, Lru.keys_push]
      exact ⟨_, rtake_append_of_le (by decide : 1 ≤ maxRunStores)⟩
  | some number =>
    obtain ⟨hnumber, hstores⟩ := get_some h
    rw [hnumber, hstores, Dict.get?_touch]
    exact ⟨h, _, Lru.keys_touch (Dict.mem_of_get? h)⟩

theorem built_le_get (r : RunStores) (key : String × String) : r.built ≤ (r.get key).2.built := by
  rw [get]
  split
  · exact Nat.le_succ _
  · exact Nat.le_refl _

theorem built_le_run (r : RunStores) (calls : List RunStoreCall) :
    r.built ≤ (Run.final step r calls).built := by
  induction calls generalizing r with
  | nil => exact Nat.le_refl _
  | cons call calls ih =>
    apply Nat.le_trans _ (ih (step r call))
    cases call with
    | get key => exact built_le_get r key
    | clear key => exact Nat.le_refl _

theorem step_effect (r : RunStores) (call : RunStoreCall) :
    Lru.Effect maxRunStores r.stores call.use (step r call).stores := by
  cases call with
  | get key =>
    rw [step]
    cases h : r.stores.get? key with
    | none =>
      rw [(get_none h).2]
      exact .stored key _
    | some number =>
      rw [(get_some h).2]
      exact .hit key (Dict.mem_of_get? h)
  | clear key => exact .dropped key

theorem spares_run (hcalls : RunStoreCall.get key ∉ calls) :
    Lru.Spares maxRunStores key r.stores (calls.map RunStoreCall.use)
      (Run.final step r calls).stores := by
  induction calls generalizing r with
  | nil => exact .nil _
  | cons call calls ih =>
    rw [List.mem_cons, not_or] at hcalls
    apply Lru.Spares.cons (step_effect r call) _ (ih hcalls.2)
    intro huse
    cases call with
    | get j => exact absurd (congrArg RunStoreCall.get (Lru.Use.use.inj huse).symm) hcalls.1
    | clear j => cases huse

/-- Two calls for the same run get the same store exactly when it was not released in between, nor
pushed out by the runs that have been asked for since. -/
theorem same_store_iff (r : RunStores) (key : String × String) (calls : List RunStoreCall)
    (hcalls : RunStoreCall.get key ∉ calls) :
    ((Run.final step (r.get key).2 calls).get key).1 = (r.get key).1 ↔
      Lru.Kept maxRunStores key [] (calls.map RunStoreCall.use) := by
  obtain ⟨hsome, old, hold⟩ := get_youngest r key
  have hkept := (spares_run (r := (r.get key).2) hcalls).kept (r.get key).2.bounded hold (by decide)
  rw [hsome] at hkept
  by_cases hroom : Lru.Kept maxRunStores key [] (calls.map RunStoreCall.use)
  · rw [if_pos hroom] at hkept
    exact iff_of_true (get_some hkept).1 hroom
  · rw [if_neg hroom] at hkept
    apply iff_of_false _ hroom
    rw [(get_none hkept).1]
    have hlt := (r.get key).2.older key _ hsome
    have hle := built_le_run (r.get key).2 calls
    exact Nat.ne_of_gt (Nat.lt_of_lt_of_le hlt hle)

theorem same_store_iff_released :
    ((Run.final step (({} : RunStores).get ("acme", "r1")).2
        [.get ("acme", "r2"), .clear ("acme", "r1")]).get ("acme", "r1")).1 =
      (({} : RunStores).get ("acme", "r1")).1 ↔
        Lru.Kept maxRunStores ("acme", "r1") []
          ([.get ("acme", "r2"), .clear ("acme", "r1")].map RunStoreCall.use) := by
  apply same_store_iff
  decide

end RunStores

end Prismal.Agents
