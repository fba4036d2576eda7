import Prismal.Lib.Delimiters
import Prismal.Lib.Json
import Prismal.Lib.Run

namespace Prismal.A2A.OAuth
open Prismal.Lib Json
set_option autoImplicit true

/-! Interactive OAuth flows and the vault that keeps their refresh tokens. -/

structure Binding where
  orgId : Option String := none
  principal : Option String := none
  deriving DecidableEq

/-- What a flow is built with. The vault is shared by all flows. -/
structure Flow where
  tokenUrl : String
  vaultKey : String
  binding : Binding := {}
  prompter : Bool := true

/-- A value that is neither `None` nor empty. -/
def truthy (o : Option String) : Option String := o.filter (· ≠ "")

/-- `sha256` as hexadecimal digits, and `_origin`. -/
structure Host where
  sha256 : String → List (Fin 16)
  origin : String → String

def defaultVaultKey (H : Host) (tokenUrl agentUrl : String) : String :=
  let digest := H.sha256 (H.origin tokenUrl ++ "|" ++ agentUrl)
  "a2a.oauth." ++ String.ofList ((digest.take 32).map fun d => d.val.digitChar)

/-- The flow that a card is given: its key is the configured one, or derived from the two URLs. -/
def Flow.ofCard (H : Host) (tokenUrl agentUrl : String) (vaultKey : Option String)
    (binding : Binding) (prompter : Bool) : Flow where
  tokenUrl := tokenUrl
  vaultKey := (truthy vaultKey).getD (defaultVaultKey H tokenUrl agentUrl)
  binding := binding
  prompter := prompter

namespace Binding

def org (b : Binding) : String := (truthy b.orgId).getD "_default"

def suffix (b : Binding) : String :=
  match truthy b.principal with
  | none => ""
  | some principal => "/" ++ principal

def partition (b : Binding) : String := b.org ++ b.suffix

end Binding

/-- `_vault_ref` -/
def Flow.vaultRef (f : Flow) : String := f.vaultKey ++ "@" ++ f.binding.partition

def bindRefreshToken (tokenUrl refresh : String) : Tree :=
  .obj [("token_url", .str tokenUrl), ("refresh_token", .str refresh)]

def readBoundRefresh : Option Tree → Option (String × String)
  | some (.obj es) =>
    match (Dict.collect es).get? "token_url", (Dict.collect es).get? "refresh_token" with
    | some (.str tokenUrl), some (.str refresh) =>
      if refresh ≠ "" then some (tokenUrl, refresh) else none
    | _, _ => none
  | _ => none

/-- A value in the vault, with the flow it was issued to, where it was issued in the run. -/
structure Stored (ι : Type) where
  value : Option Tree
  issuer : Option ι

structure Post (ι : Type) where
  flow : ι
  url : String
  token : String
  issuer : Option ι

/-- What a token response holds, where the fields have the expected types. -/
structure Body where
  accessToken : Option String
  expiresIn : Option Rat
  refreshToken : Option String

/-- Where a call of `access_token` waits: for the answer to a refresh, or for a human. -/
inductive Phase where
  | idle
  | refreshing
  | granting
  deriving DecidableEq

structure Local where
  access : Option String := none
  expiresAt : Rat := 0
  phase : Phase := .idle

structure State (ι : Type) where
  vault : Dict String (Stored ι)
  flows : ι → Local
  posts : List (Post ι)

def Local.cached (l : Local) (now : Rat) : Option String :=
  match l.access with
  | none => none
  | some access => if now < l.expiresAt - 30 then some access else none

/-- `_stored_refresh`, given what the vault resolves the reference to. -/
def storedRefresh (f : Flow) : Option (Stored ι) → Except String (Option (String × Option ι))
  | none => .ok none
  | some stored =>
    match readBoundRefresh stored.value with
    | none => .ok none
    | some (tokenUrl, refresh) =>
      if tokenUrl ≠ f.tokenUrl then
        .error "stored refresh token belongs to a different token endpoint"
      else .ok (some (refresh, stored.issuer))

variable [DecidableEq ι]

namespace State

def setLocal (s : State ι) (i : ι) (l : Local) : State ι :=
  { s with flows := Function.update s.flows i l }

def goto (s : State ι) (i : ι) (phase : Phase) : State ι :=
  s.setLocal i { s.flows i with phase := phase }

def interactive (flows : ι → Flow) (s : State ι) (i : ι) : State ι :=
  s.goto i (if (flows i).prompter then .granting else .idle)

/-- `_acquire` up to its first answer. The vault may fail to resolve what it holds. -/
def acquire (flows : ι → Flow) (s : State ι) (i : ι) (now : Rat) (resolves : Bool) : State ι :=
  match (s.flows i).cached now with
  | some _ => s
  | none =>
    let value := if resolves then s.vault.get? (flows i).vaultRef else none
    match storedRefresh (flows i) value with
    | .error _ => s
    | .ok none => s.interactive flows i
    | .ok (some (refresh, issuer)) =>
      { s.goto i .refreshing with
        posts := s.posts ++ [⟨i, (flows i).tokenUrl, refresh, issuer⟩] }

def keep (flows : ι → Flow) (s : State ι) (i : ι) (stores : Bool) (refresh : Option String) :
    Dict String (Stored ι) :=
  match truthy refresh with
  | some refresh =>
    if stores then
      s.vault.set (flows i).vaultRef ⟨bindRefreshToken (flows i).tokenUrl refresh, i⟩
    else s.vault
  | none => s.vault

/-- `_accept`, after which the call ends. -/
def accept (flows : ι → Flow) (s : State ι) (i : ι) (body : Body) (now : Rat) (stores : Bool) :
    State ι :=
  match truthy body.accessToken with
  | none => s.goto i .idle
  | some token =>
    { s.setLocal i ⟨some token, now + body.expiresIn.getD 3600, .idle⟩ with
      vault := s.keep flows i stores body.refreshToken }

/-- `_refresh` from the answer on; there is none where the endpoint cannot be reached. -/
def refresh (flows : ι → Flow) (s : State ι) (i : ι) (answer : Option (Int × Body)) (now : Rat)
    (stores : Bool) : State ι :=
  match answer with
  | none => s.goto i .idle
  | some (status, body) =>
    if status ≠ 200 then s.interactive flows i else s.accept flows i body now stores

end State

/-- A call of `access_token`, the answer to its refresh, or the end of its interactive grant, which
sends no refresh token. -/
inductive Action (ι : Type) where
  | call (i : ι) (now : Rat) (resolves : Bool)
  | refreshed (i : ι) (answer : Option (Int × Body)) (now : Rat) (stores : Bool)
  | granted (i : ι) (answer : Option Body) (now : Rat) (stores : Bool)

def step (flows : ι → Flow) (s : State ι) : Action ι → State ι
  | .call i now resolves =>
    if (s.flows i).phase = .idle then s.acquire flows i now resolves else s
  | .refreshed i answer now stores =>
    if (s.flows i).phase = .refreshing then s.refresh flows i answer now stores else s
  | .granted i answer now stores =>
    if (s.flows i).phase = .granting then
      match answer with
      | none => s.goto i .idle
      | some body => s.accept flows i body now stores
    else s

def initial (vault : Dict String (Option Tree)) : State ι where
  vault := vault.mapValues fun value => ⟨value, none⟩
  flows := fun _ => {}
  posts := []

/-! Who owns a token. -/

/-- The same org, the same principal and the same vault key. -/
structure SameOwner (f g : Flow) : Prop where
  orgId : f.binding.orgId = g.binding.orgId
  principal : f.binding.principal = g.binding.principal
  vaultKey : f.vaultKey = g.vaultKey

/-- Every refresh token that the run issued went to the endpoint that issued it, and was sent by a
flow of the same owner. -/
def Confined (flows : ι → Flow) (s : State ι) : Prop :=
  ∀ p ∈ s.posts, ∀ i, p.issuer = some i →
    p.url = (flows i).tokenUrl ∧ SameOwner (flows i) (flows p.flow)

def Respelled (f g : Flow) : Prop :=
  f.vaultKey = g.vaultKey ∧ f.binding.org = g.binding.org ∧
    truthy f.binding.principal = truthy g.binding.principal ∧ f.binding ≠ g.binding

/-- The org of the first is the org of the second and, after a slash, the start of its principal. -/
def OrgExtends (f g : Flow) : Prop :=
  f.vaultKey = g.vaultKey ∧ ∃ y, f.binding.org = g.binding.org ++ "/" ++ y ∧
    truthy g.binding.principal = some (y ++ f.binding.suffix)

/-- The key of the first is the key of the second and, after an at sign, the start of its
partition. -/
def KeyExtends (f g : Flow) : Prop :=
  ∃ z, f.vaultKey = g.vaultKey ++ "@" ++ z ∧
    g.binding.partition = z ++ "@" ++ f.binding.partition

def Confusable (f g : Flow) : Prop :=
  Respelled f g ∨ OrgExtends f g ∨ OrgExtends g f ∨ KeyExtends f g ∨ KeyExtends g f

theorem readBoundRefresh_bind (h : refresh ≠ "") :
    readBoundRefresh (some (bindRefreshToken tokenUrl refresh)) = some (tokenUrl, refresh) :=
  if_pos h

def Kept (flows : ι → Flow) (vault : Dict String (Stored ι)) : Prop :=
  ∀ ref stored i, vault.get? ref = some stored → stored.issuer = some i →
    ref = (flows i).vaultRef ∧
      ∀ url refresh, readBoundRefresh stored.value = some (url, refresh) → url = (flows i).tokenUrl

def Traced (flows : ι → Flow) (posts : List (Post ι)) : Prop :=
  ∀ p ∈ posts, ∀ i, p.issuer = some i →
    p.url = (flows i).tokenUrl ∧ (flows p.flow).vaultRef = (flows i).vaultRef

def Sound (flows : ι → Flow) (s : State ι) : Prop := Kept flows s.vault ∧ Traced flows s.posts

variable {flows : ι → Flow} {s : State ι}

@[simp] theorem setLocal_vault : (s.setLocal i l).vault = s.vault := rfl

@[simp] theorem setLocal_posts : (s.setLocal i l).posts = s.posts := rfl

@[simp] theorem goto_vault : (s.goto i phase).vault = s.vault := rfl

@[simp] theorem goto_posts : (s.goto i phase).posts = s.posts := rfl

theorem mem_truthy : truthy o = some a ↔ o = some a ∧ a ≠ "" := by
  rw [truthy, Option.filter_eq_some_iff]
  simp only [ne_eq, decide_not, Bool.not_eq_true', decide_eq_false_iff_not]

omit [DecidableEq ι] in
theorem Kept.keep (h : Kept flows s.vault) (i : ι) (stores : Bool) (refresh : Option String) :
    Kept flows (s.keep flows i stores refresh) := by
  rw [State.keep]
  split
  · next refresh hrefresh =>
    split
    · intro ref stored j hget hissuer
      rw [Dict.get?_set] at hget
      split at hget
      · next href =>
        cases hget
        cases hissuer
        refine ⟨href.symm, fun url token hread => ?_⟩
        rw [readBoundRefresh_bind (mem_truthy.1 hrefresh).2] at hread
        cases hread
        rfl
      · exact h ref stored j hget hissuer
    · exact h
  · exact h

theorem storedRefresh_ok (h : storedRefresh f stored = .ok (some (refresh, issuer))) :
    ∃ value, stored = some value ∧ readBoundRefresh value.value = some (f.tokenUrl, refresh) ∧
      issuer = value.issuer := by
  cases stored with
  | none => cases h
  | some value =>
    rw [storedRefresh] at h
    split at h
    · cases h
    · next url token hread =>
      split at h
      · cases h
      · next hurl =>
        cases h
        rw [not_not.1 hurl] at hread
        exact ⟨value, rfl, hread, rfl⟩

omit [DecidableEq ι] in
theorem Traced.post (h : Sound flows s) (hget : s.vault.get? (flows i).vaultRef = some stored)
    (hread : readBoundRefresh stored.value = some ((flows i).tokenUrl, refresh)) :
    Traced flows (s.posts ++ [⟨i, (flows i).tokenUrl, refresh, stored.issuer⟩]) := by
  intro p hp j hj
  rcases List.mem_append.1 hp with hp | hp
  · exact h.2 p hp j hj
  · cases List.mem_singleton.1 hp
    obtain ⟨href, hurl⟩ := h.1 _ stored j hget hj
    exact ⟨hurl _ _ hread, href⟩

theorem Sound.acquire (h : Sound flows s) (i : ι) (now : Rat) (resolves : Bool) :
    Sound flows (s.acquire flows i now resolves) := by
  rw [State.acquire]
  split
  · exact h
  · dsimp only
    split
    · exact h
    · exact h
    · next refresh issuer hstored =>
      obtain ⟨stored, hvalue, hread, rfl⟩ := storedRefresh_ok hstored
      cases resolves with
      | false => cases hvalue
      | true => exact ⟨h.1, Traced.post h hvalue hread⟩

theorem Sound.accept (h : Sound flows s) (i : ι) (body : Body) (now : Rat) (stores : Bool) :
    Sound flows (s.accept flows i body now stores) := by
  rw [State.accept]
  split
  · exact h
  · exact ⟨h.1.keep i stores body.refreshToken, h.2⟩

theorem Sound.refresh (h : Sound flows s) (i : ι) (answer : Option (Int × Body)) (now : Rat)
    (stores : Bool) : Sound flows (s.refresh flows i answer now stores) := by
  cases answer with
  | none => exact h
  | some answer =>
    simp only [State.refresh]
    split
    · exact h
    · exact h.accept i answer.2 now stores

theorem Sound.step (h : Sound flows s) (a : Action ι) : Sound flows (step flows s a) := by
  cases a with
  | call i now resolves =>
    rw [OAuth.step]
    split
    · exact h.acquire i now resolves
    · exact h
  | refreshed i answer now stores =>
    rw [OAuth.step]
    split
    · exact h.refresh i answer now stores
    · exact h
  | granted i answer now stores =>
    simp only [OAuth.step]
    split
    · cases answer with
      | none => exact h
      | some body => exact h.accept i body now stores
    · exact h

omit [DecidableEq ι] in
theorem Sound.initial (vault : Dict String (Option Tree)) : Sound flows (initial vault) := by
  constructor
  · intro ref stored i hget hissuer
    rw [OAuth.initial, Dict.get?_mapValues] at hget
    obtain ⟨value, -, rfl⟩ := Option.map_eq_some_iff.1 hget
    cases hissuer
  · intro p hp
    cases hp

theorem sound_run (vault : Dict String (Option Tree)) (actions : List (Action ι)) :
    Sound flows (Run.final (step flows) (initial vault) actions) :=
  Run.final_of_invariant (Sound.initial vault) (fun _ a h => h.step a) actions

/-! When references are told apart. -/

section References

variable {f g : Flow} {b : Binding}

theorem suffix_some (h : truthy b.principal = some p) : b.suffix = "/" ++ p := by
  rw [Binding.suffix, h]

theorem suffix_none (h : truthy b.principal = none) : b.suffix = "" := by
  rw [Binding.suffix, h]

theorem suffix_split (h : b.suffix.toList = u ++ v) (hu : u ≠ []) :
    ∃ y, u = '/' :: y ∧ truthy b.principal = some (String.ofList (y ++ v)) := by
  cases hp : truthy b.principal with
  | none =>
    rw [suffix_none hp] at h
    exact absurd (List.append_eq_nil_iff.1 h.symm).1 hu
  | some p =>
    rw [suffix_some hp, String.toList_append] at h
    cases u with
    | nil => exact absurd rfl hu
    | cons c y =>
      have hchars : '/' :: p.toList = c :: (y ++ v) := h
      obtain ⟨rfl, hy⟩ := List.cons_eq_cons.1 hchars
      exact ⟨y, rfl, by rw [← hy, String.ofList_toList]⟩

theorem suffix_inj {b c : Binding} (h : b.suffix = c.suffix) :
    truthy b.principal = truthy c.principal := by
  cases hc : truthy c.principal with
  | none =>
    cases hb : truthy b.principal with
    | none => rfl
    | some p =>
      rw [suffix_none hc, suffix_some hb] at h
      have hlist := congrArg String.toList h
      rw [String.toList_append] at hlist
      cases hlist
  | some q =>
    rw [suffix_some hc] at h
    have hlist := congrArg String.toList h
    rw [String.toList_append] at hlist
    obtain ⟨y, hy, hb⟩ := suffix_split (u := '/' :: q.toList) (v := [])
      (hlist.trans (List.append_nil _).symm) (List.cons_ne_nil '/' q.toList)
    rw [hb, ← (List.cons_eq_cons.1 hy).2, List.append_nil, String.ofList_toList]

theorem orgExtends_of_shifted (hkey : f.vaultKey = g.vaultKey)
    (h : Shifted f.binding.org.toList f.binding.suffix.toList g.binding.org.toList
      g.binding.suffix.toList) : OrgExtends f g := by
  obtain ⟨u, hu, horg, hsuffix⟩ := h
  obtain ⟨y, rfl, hp⟩ := suffix_split hsuffix hu
  refine ⟨hkey, String.ofList y, String.ext ?_, ?_⟩
  · rw [horg, String.toList_append, String.toList_append, String.toList_ofList,
      String.toList_ofList, List.append_assoc]
    rfl
  · rw [hp, String.ofList_append, String.ofList_toList]

theorem keyExtends_of_shifted (h : Shifted f.vaultKey.toList ('@' :: f.binding.partition.toList)
    g.vaultKey.toList ('@' :: g.binding.partition.toList)) : KeyExtends f g := by
  obtain ⟨u, hu, hkey, hrest⟩ := h
  cases u with
  | nil => exact absurd rfl hu
  | cons c z =>
    obtain ⟨rfl, hpartition⟩ := List.cons_eq_cons.1 hrest
    refine ⟨String.ofList z, String.ext ?_, String.ext ?_⟩
    · rw [hkey, String.toList_append, String.toList_append, String.toList_ofList,
        String.toList_ofList, List.append_assoc]
      rfl
    · rw [hpartition, String.toList_append, String.toList_append, String.toList_ofList,
        String.toList_ofList, List.append_assoc]
      rfl

theorem toList_vaultRef (f : Flow) :
    f.vaultRef.toList = f.vaultKey.toList ++ '@' :: f.binding.partition.toList := by
  rw [Flow.vaultRef, String.toList_append, String.toList_append, List.append_assoc]
  rfl

theorem confusable_of_ref (h : f.vaultRef = g.vaultRef) (hne : f.binding ≠ g.binding) :
    Confusable f g := by
  have hlist := congrArg String.toList h
  rw [toList_vaultRef, toList_vaultRef] at hlist
  rcases shifted_of_append hlist with ⟨hkey, hrest⟩ | hshift | hshift
  · have hkeys : f.vaultKey = g.vaultKey := String.ext hkey
    have hpartition := (List.cons_eq_cons.1 hrest).2
    rw [Binding.partition, Binding.partition, String.toList_append, String.toList_append]
      at hpartition
    rcases shifted_of_append hpartition with ⟨horg, hsuffix⟩ | hshift | hshift
    · exact .inl ⟨hkeys, String.ext horg, suffix_inj (String.ext hsuffix), hne⟩
    · exact .inr (.inl (orgExtends_of_shifted hkeys hshift))
    · exact .inr (.inr (.inl (orgExtends_of_shifted hkeys.symm hshift)))
  · exact .inr (.inr (.inr (.inl (keyExtends_of_shifted hshift))))
  · exact .inr (.inr (.inr (.inr (keyExtends_of_shifted hshift))))

theorem Respelled.ref (h : Respelled f g) : f.vaultRef = g.vaultRef := by
  obtain ⟨hkey, horg, hprincipal, -⟩ := h
  rw [Flow.vaultRef, Flow.vaultRef, hkey, Binding.partition, Binding.partition, horg,
    Binding.suffix, Binding.suffix, hprincipal]

theorem OrgExtends.ref (h : OrgExtends f g) : f.vaultRef = g.vaultRef := by
  obtain ⟨hkey, y, horg, hprincipal⟩ := h
  rw [Flow.vaultRef, Flow.vaultRef, hkey, Binding.partition, Binding.partition, horg,
    suffix_some hprincipal]
  simp only [String.append_assoc]

theorem OrgExtends.ne (h : OrgExtends f g) : f.binding ≠ g.binding := by
  obtain ⟨hkey, y, horg, hprincipal⟩ := h
  intro hb
  have hlen := congrArg String.length horg
  rw [hb, String.length_append, String.length_append] at hlen
  have hslash : "/".length = 1 := rfl
  omega

theorem KeyExtends.ref (h : KeyExtends f g) : f.vaultRef = g.vaultRef := by
  obtain ⟨z, hkey, hpartition⟩ := h
  rw [Flow.vaultRef, Flow.vaultRef, hkey, hpartition]
  simp only [String.append_assoc]

theorem KeyExtends.ne (h : KeyExtends f g) : f.binding ≠ g.binding := by
  obtain ⟨z, hkey, hpartition⟩ := h
  intro hb
  have hlen := congrArg String.length hpartition
  rw [hb, String.length_append, String.length_append] at hlen
  have hat : "@".length = 1 := rfl
  omega

theorem confusable_iff : Confusable f g ↔ f.vaultRef = g.vaultRef ∧ f.binding ≠ g.binding := by
  constructor
  · intro h
    rcases h with h | h | h | h | h
    · exact ⟨h.ref, h.2.2.2⟩
    · exact ⟨h.ref, h.ne⟩
    · exact ⟨h.ref.symm, h.ne.symm⟩
    · exact ⟨h.ref, h.ne⟩
    · exact ⟨h.ref.symm, h.ne.symm⟩
  · intro ⟨href, hne⟩
    exact confusable_of_ref href hne

theorem key_of_ref (h : f.vaultRef = g.vaultRef) (hb : f.binding = g.binding) :
    f.vaultKey = g.vaultKey := by
  have hlist := congrArg String.toList h
  rw [toList_vaultRef, toList_vaultRef, hb] at hlist
  exact String.ext (List.append_cancel_right hlist)

theorem KeyExtends.mem_key (h : KeyExtends f g) : '@' ∈ f.vaultKey.toList := by
  obtain ⟨z, hkey, -⟩ := h
  rw [hkey, String.toList_append, String.toList_append]
  exact List.mem_append_left _ (List.mem_append_right _ (List.mem_singleton.2 rfl))

theorem defaultVaultKey_plain (H : Host) (tokenUrl agentUrl : String) :
    '@' ∉ (defaultVaultKey H tokenUrl agentUrl).toList := by
  have hdigit : ∀ d : Fin 16, d.val.digitChar ≠ '@' := by decide
  rw [defaultVaultKey, String.toList_append, String.toList_ofList, String.toList_ofList]
  intro h
  rcases List.mem_append.1 h with h | h
  · exact absurd h (by decide)
  · obtain ⟨d, -, hd⟩ := List.mem_map.1 h
    exact hdigit d hd

theorem confusable_default (hf : f.vaultKey = defaultVaultKey H t a)
    (hg : g.vaultKey = defaultVaultKey H u c) :
    Confusable f g ↔ Respelled f g ∨ OrgExtends f g ∨ OrgExtends g f := by
  have hkey : ¬KeyExtends f g := fun h => defaultVaultKey_plain H t a (hf ▸ h.mem_key)
  have hkey' : ¬KeyExtends g f := fun h => defaultVaultKey_plain H u c (hg ▸ h.mem_key)
  rw [Confusable, iff_false_intro hkey, iff_false_intro hkey', or_false, or_false]

end References

/-- Refresh tokens stay with the flow they were issued to, and different owners have different
references, exactly when no two flows can be confused. -/
theorem refresh_confined_iff (flows : ι → Flow) :
    ((∀ (vault : Dict String (Option Tree)) (actions : List (Action ι)),
          Confined flows (Run.final (step flows) (initial vault) actions)) ∧
        ∀ i j, (flows i).binding ≠ (flows j).binding →
          (flows i).vaultRef ≠ (flows j).vaultRef) ↔
      ∀ i j, ¬Confusable (flows i) (flows j) := by
  constructor
  · intro ⟨_, hrefs⟩ i j h
    obtain ⟨href, hne⟩ := confusable_iff.1 h
    exact hrefs i j hne href
  · intro hdistinct
    have hbinding : ∀ i j, (flows i).vaultRef = (flows j).vaultRef →
        (flows i).binding = (flows j).binding := by
      intro i j href
      by_contra hne
      exact hdistinct i j (confusable_iff.2 ⟨href, hne⟩)
    constructor
    · intro vault actions p hp i hi
      obtain ⟨hurl, href⟩ := (sound_run vault actions).2 p hp i hi
      have hb := hbinding i p.flow href.symm
      exact ⟨hurl, congrArg Binding.orgId hb, congrArg Binding.principal hb,
        key_of_ref href.symm hb⟩
    · intro i j hne href
      exact hne (hbinding i j href)

/-- A refresh token of org `a/b` posted by principal `b` of org `a`. -/
theorem refresh_not_confined :
    let flows : Bool → Flow := fun i =>
      if i then ⟨"t", "k", ⟨some "a/b", none⟩, true⟩ else ⟨"t", "k", ⟨some "a", some "b"⟩, true⟩
    ¬Confined flows (Run.final (step flows) (initial ∅)
      [.call true 0 true, .granted true (some ⟨some "x", none, some "r"⟩) 0 true,
        .call false 0 true]) := by
  intro flows h
  have hpost := h ⟨false, "t", "r", some true⟩ (List.Mem.head _) true rfl
  exact absurd hpost.2.orgId (by decide)

end Prismal.A2A.OAuth
