import Mathlib.Algebra.Order.Ring.Rat
import Mathlib.Data.List.Chain
import Mathlib.Data.String.Basic
import Prismal.Lib.Dict
import Prismal.Lib.Run
import Prismal.Lib.SortBy

namespace Prismal.Agents.ToolSearch
open Prismal.Lib Run
set_option autoImplicit true

/-! Deferred tools: a search activates them, and the model is bound to a longer list. -/

structure Tool where
  name : String
  description : String
  deriving DecidableEq

/-- `search_tools` -/
def searchTool : Tool where
  name := "search_tools"
  description := "Search for additional tools by keywords (name/description). " ++
    "Matching tools become available for subsequent calls."

/-- What the index ranks by: the tokens of a text and the score of a tool among others. -/
structure Ranking where
  tokenize : String → List String
  score : List Tool → Nat → List String → Rat

/-- `ToolSearchIndex.search`: score descending, then name ascending. -/
def search (ranking : Ranking) (tools : List Tool) (query : String) (k : Int) : List Tool :=
  let terms := ranking.tokenize query
  if k ≤ 0 ∨ tools = [] ∨ terms = [] then []
  else
    let scored := tools.zipIdx.map fun t => (ranking.score tools t.2 terms, t.1)
    let ranked := (scored.filter fun st => 0 < st.1).mergeSort fun a b =>
      decide (b.1 < a.1 ∨ a.1 = b.1 ∧ a.2.name ≤ b.2.name)
    (ranked.take k.toNat).map Prod.snd

/-- `DeferredToolSet`, without what it has activated. -/
structure DeferredToolSet where
  core : List Tool
  deferred : List Tool

namespace DeferredToolSet

def byName (set : DeferredToolSet) : Dict String Tool :=
  .collect (set.deferred.map fun t => (t.name, t))

def exposed (set : DeferredToolSet) (active : List Tool) : List Tool := set.core ++ active

/-- One name of `activate`. -/
def activateOne (set : DeferredToolSet) (active : List Tool) (name : String) : List Tool :=
  match set.byName.get? name with
  | none => active
  | some tool => if name ∈ active.map Tool.name then active else active ++ [tool]

def activate (set : DeferredToolSet) (active : List Tool) (names : List String) : List Tool :=
  names.foldl set.activateOne active

end DeferredToolSet

/-- The settings of token efficiency; `native`: the model defers tools by itself. -/
structure Settings where
  enabled : Bool
  core : List String
  threshold : Nat
  native : Bool

/-- `DeferredPlan` -/
structure DeferredPlan where
  exposed : List Tool
  deferredSet : Option DeferredToolSet := none

def splitCoreAndDeferred (tools : List Tool) (core : List String) (threshold : Nat) :
    List Tool × List Tool :=
  if tools.length ≤ threshold then (tools, [])
  else
    (sortBy Tool.name (tools.filter fun t => decide (t.name ∈ core)),
      sortBy Tool.name (tools.filter fun t => decide (t.name ∉ core)))

def planDeferredTools (settings : Settings) (tools : List Tool) : DeferredPlan :=
  if !settings.enabled then ⟨tools, none⟩
  else
    let (core, deferred) := splitCoreAndDeferred tools settings.core settings.threshold
    if deferred = [] then ⟨tools, none⟩
    else if settings.native then ⟨core ++ deferred, none⟩
    else ⟨core ++ [searchTool], some ⟨core, deferred⟩⟩

inductive Binder where
  | plain
  | cacheAware
  deriving DecidableEq

/-- `bind_tools`, with the schemas in the order in which they are sent. -/
def Binder.bind : Binder → List Tool → List Tool
  | .plain, tools => tools
  | .cacheAware, tools => sortBy Tool.name tools

/-- The wiring of a run; without `rebinds` no `rebind_llm` is given. -/
structure Wiring where
  ranking : Ranking
  binder : Binder
  rebinds : Bool

/-- What a run has activated, the names in the dispatch map and the lists that were bound. The
number of active tools that the last of them has is a ghost. -/
structure State where
  active : List Tool := []
  toolMap : List String
  bound : List (List Tool)
  sent : Nat := 0

variable (w : Wiring) (set : DeferredToolSet)

/-- A call of `search_tools`. -/
def searchTools (active : List Tool) (call : String × Int) : List Tool :=
  set.activate active ((search w.ranking set.deferred call.1 call.2).map Tool.name)

def newTools (s : State) : List Tool :=
  (set.exposed s.active).filter fun t => decide (t.name ∉ s.toolMap)

def rebound (active : List Tool) : List Tool := set.exposed active ++ [searchTool]

/-- `_sync_deferred_tools` -/
def syncDeferredTools (s : State) : State :=
  let new := newTools set s
  if new = [] then s
  else
    let s := { s with toolMap := s.toolMap ++ new.map Tool.name }
    if w.rebinds then
      { s with bound := s.bound ++ [w.binder.bind (rebound set s.active)], sent := s.active.length }
    else s

/-- One turn of the loop, with its calls of `search_tools`. -/
def step (s : State) (calls : List (String × Int)) : State :=
  syncDeferredTools w set { s with active := calls.foldl (searchTools w set) s.active }

def init (w : Wiring) (plan : DeferredPlan) : State where
  toolMap := plan.exposed.map Tool.name
  bound := [w.binder.bind plan.exposed]

def run (w : Wiring) (plan : DeferredPlan) (turns : List (List (String × Int))) : State :=
  match plan.deferredSet with
  | none => init w plan
  | some set => final (step w set) (init w plan) turns

/-! The prefix of the cache. -/

/-- Every list that is bound goes on from the one before, and binds no name twice. -/
structure KeepsPrefix (bound : List (List Tool)) : Prop where
  chain : bound.IsChain (· <+: ·)
  nodup : ∀ tools ∈ bound, (tools.map Tool.name).Nodup

variable {w : Wiring} {set : DeferredToolSet}

def State.last (set : DeferredToolSet) (s : State) : List Tool :=
  rebound set (s.active.take s.sent)

structure Inv (w : Wiring) (set : DeferredToolSet) (s : State) : Prop where
  last : s.bound.getLast? = some (w.binder.bind (s.last set))
  sent : s.sent ≤ s.active.length
  known : ∀ t ∈ s.last set, t.name ∈ s.toolMap
  distinct : (s.active.map Tool.name).Nodup

theorem byName_name (h : set.byName.get? name = some tool) : tool.name = name := by
  obtain ⟨t, -, heq⟩ := List.mem_map.1 (Dict.mem_of_get?_collect h)
  cases heq
  rfl

theorem activateOne_cases (set : DeferredToolSet) (active : List Tool) (name : String) :
    set.activateOne active name = active ∨
      ∃ tool, set.activateOne active name = active ++ [tool] ∧
        tool.name ∉ active.map Tool.name := by
  rw [DeferredToolSet.activateOne]
  split
  · exact .inl rfl
  next tool hget =>
    split
    · exact .inl rfl
    next hnew =>
      rw [← byName_name hget] at hnew
      exact .inr ⟨tool, rfl, hnew⟩

theorem activate_append (set : DeferredToolSet) (names : List String)
    (hn : (active.map Tool.name).Nodup) :
    ∃ added, set.activate active names = active ++ added ∧
      ((active ++ added).map Tool.name).Nodup := by
  induction names generalizing active with
  | nil => exact ⟨[], (List.append_nil _).symm, by rwa [List.append_nil]⟩
  | cons name names ih =>
    rw [DeferredToolSet.activate, List.foldl_cons]
    rcases activateOne_cases set active name with h | ⟨tool, h, hnew⟩
    · rw [h]
      exact ih hn
    · rw [h]
      have hn' : ((active ++ [tool]).map Tool.name).Nodup := by
        rw [List.map_append, List.nodup_append]
        refine ⟨hn, List.nodup_singleton _, ?_⟩
        intro a ha b hb heq
        rw [List.map_singleton, List.mem_singleton] at hb
        rw [heq, hb] at ha
        exact hnew ha
      obtain ⟨added, hadded, hd⟩ := ih hn'
      rw [List.append_assoc] at hadded hd
      exact ⟨tool :: added, hadded, hd⟩

theorem searches_append (w : Wiring) (set : DeferredToolSet) (calls : List (String × Int))
    (hn : (active.map Tool.name).Nodup) :
    ∃ added, calls.foldl (searchTools w set) active = active ++ added ∧
      ((active ++ added).map Tool.name).Nodup := by
  induction calls generalizing active with
  | nil => exact ⟨[], (List.append_nil _).symm, by rwa [List.append_nil]⟩
  | cons call calls ih =>
    obtain ⟨added, hadded, hd⟩ := activate_append set
      ((search w.ranking set.deferred call.1 call.2).map Tool.name) hn
    rw [List.foldl_cons, searchTools, hadded]
    obtain ⟨more, hmore, hd'⟩ := ih hd
    rw [List.append_assoc] at hmore hd'
    exact ⟨added ++ more, hmore, hd'⟩

/-- The turn binds nothing new, or what it adds comes, in a model that sorts its tools, behind all
that has been bound. -/
def Appends (w : Wiring) (set : DeferredToolSet) (s : State) (calls : List (String × Int)) : Prop :=
  let active := calls.foldl (searchTools w set) s.active
  w.rebinds = true → newTools set { s with active := active } ≠ [] →
    w.binder = .cacheAware ∧ ∀ o ∈ s.last set, ∀ t ∈ active.drop s.sent, o.name < t.name

theorem nodup_bind (b : Binder) (tools : List Tool) :
    ((b.bind tools).map Tool.name).Nodup ↔ (tools.map Tool.name).Nodup := by
  cases b with
  | plain => exact Iff.rfl
  | cacheAware => exact ((perm_sortBy Tool.name tools).map Tool.name).nodup_iff

theorem keepsPrefix_append {bound : List (List Tool)} (hlast : bound.getLast? = some last) :
    KeepsPrefix (bound ++ [tools]) ↔
      KeepsPrefix bound ∧ last <+: tools ∧ (tools.map Tool.name).Nodup := by
  constructor
  · intro h
    obtain ⟨hchain, -, hnext⟩ := List.isChain_append.1 h.chain
    refine ⟨⟨hchain, fun l hl => h.nodup l (List.mem_append_left _ hl)⟩, ?_, ?_⟩
    · exact hnext last hlast tools rfl
    · exact h.nodup tools (List.mem_append_right _ (List.mem_singleton_self _))
  · intro ⟨hkeeps, hpref, hnodup⟩
    constructor
    · refine List.isChain_append.2 ⟨hkeeps.chain, List.isChain_singleton _, ?_⟩
      intro x hx y hy
      cases hlast.symm.trans hx
      cases hy
      exact hpref
    · intro l hl
      cases List.mem_append.1 hl with
      | inl hl => exact hkeeps.nodup l hl
      | inr hl =>
        cases List.mem_singleton.1 hl
        exact hnodup

theorem perm_rebound (set : DeferredToolSet) (active added : List Tool) :
    (rebound set (active ++ added)).Perm (rebound set active ++ added) := by
  have hswap : (added ++ [searchTool]).Perm ([searchTool] ++ added) := List.perm_append_comm
  have hmove := hswap.append_left (set.core ++ active)
  simpa [rebound, DeferredToolSet.exposed] using hmove

theorem not_keeps_of_nodup (hadded : added ≠ [])
    (hn : ((rebound set (active ++ added)).map Tool.name).Nodup) :
    ¬rebound set active <+: rebound set (active ++ added) := by
  intro h
  rw [rebound, rebound, DeferredToolSet.exposed, DeferredToolSet.exposed, ← List.append_assoc,
    List.append_assoc _ added, List.prefix_append_right_inj] at h
  have hperm := (perm_rebound set active added).map Tool.name
  rw [List.map_append] at hperm
  have hdisjoint := (List.nodup_append.1 (hperm.nodup_iff.1 hn)).2.2
  cases added with
  | nil => exact hadded rfl
  | cons t added =>
    have ht : searchTool = t := by
      obtain ⟨rest, hrest⟩ := h
      exact (List.cons.inj hrest).1
    refine hdisjoint searchTool.name ?_ t.name (List.mem_map_of_mem (List.mem_cons_self ..)) (by
      rw [ht])
    exact List.mem_map_of_mem (List.mem_append_right _ (List.mem_singleton_self _))

theorem rebound_prefix_iff (hadded : added ≠ [])
    (hactive : ((active ++ added).map Tool.name).Nodup)
    (hn : ((rebound set active).map Tool.name).Nodup) :
    (w.binder.bind (rebound set active) <+: w.binder.bind (rebound set (active ++ added)) ∧
        ((w.binder.bind (rebound set (active ++ added))).map Tool.name).Nodup) ↔
      w.binder = .cacheAware ∧ ∀ o ∈ rebound set active, ∀ t ∈ added, o.name < t.name := by
  rw [nodup_bind]
  constructor
  · intro ⟨hpref, hnodup⟩
    cases hb : w.binder with
    | plain =>
      rw [hb] at hpref
      exact absurd hpref (not_keeps_of_nodup hadded hnodup)
    | cacheAware =>
      rw [hb] at hpref
      exact ⟨rfl, (sortBy_prefix_iff (perm_rebound set active added) hnodup).1 hpref⟩
  · intro ⟨hb, hlt⟩
    have hnodup : ((rebound set (active ++ added)).map Tool.name).Nodup := by
      have hperm := (perm_rebound set active added).map Tool.name
      rw [hperm.nodup_iff, List.map_append, List.nodup_append]
      rw [List.map_append, List.nodup_append] at hactive
      refine ⟨hn, hactive.2.1, ?_⟩
      intro a ha b hb heq
      obtain ⟨o, ho, rfl⟩ := List.mem_map.1 ha
      obtain ⟨t, ht, rfl⟩ := List.mem_map.1 hb
      exact absurd heq (ne_of_lt (hlt o ho t ht))
    rw [hb]
    exact ⟨(sortBy_prefix_iff (perm_rebound set active added) hnodup).2 hlt, hnodup⟩

theorem keepsPrefix_last {s : State} (h : KeepsPrefix s.bound)
    (hlast : s.bound.getLast? = some (w.binder.bind (s.last set))) :
    ((s.last set).map Tool.name).Nodup :=
  (nodup_bind _ _).1 (h.nodup _ (List.mem_of_getLast? hlast))

theorem last_append {s : State} (h : s.sent ≤ s.active.length) (added : List Tool) :
    State.last set { s with active := s.active ++ added } = s.last set := by
  rw [State.last, State.last, List.take_append_of_le_length h]

theorem Inv.activate {s : State} (h : Inv w set s)
    (hd : ((s.active ++ added).map Tool.name).Nodup) :
    Inv w set { s with active := s.active ++ added } := by
  constructor
  · rw [last_append h.sent]
    exact h.last
  · rw [List.length_append]
    exact h.sent.trans (Nat.le_add_right _ _)
  · rw [last_append h.sent]
    exact h.known
  · exact hd

theorem drop_ne_nil {s : State} (h : Inv w set s) (hnew : newTools set s ≠ []) :
    s.active.drop s.sent ≠ [] := by
  intro hdrop
  obtain ⟨t, ht⟩ := List.exists_mem_of_ne_nil _ hnew
  rw [newTools, List.mem_filter, decide_eq_true_eq] at ht
  apply ht.2
  apply h.known
  rw [State.last, ← List.append_nil (s.active.take s.sent), ← hdrop, List.take_append_drop]
  exact List.mem_append_left _ ht.1

theorem known_sync {s : State} (h : Inv w set s) (ht : t ∈ rebound set s.active) :
    t.name ∈ s.toolMap ++ (newTools set s).map Tool.name := by
  by_cases hknown : t.name ∈ s.toolMap
  · exact List.mem_append_left _ hknown
  · rw [rebound, List.mem_append, List.mem_singleton] at ht
    cases ht with
    | inl ht =>
      apply List.mem_append_right
      apply List.mem_map_of_mem
      rw [newTools, List.mem_filter, decide_eq_true_eq]
      exact ⟨ht, hknown⟩
    | inr ht =>
      subst ht
      exact absurd (h.known searchTool (List.mem_append_right _ (List.mem_singleton_self _))) hknown

theorem sync_inv {s : State} (h : Inv w set s) :
    Inv w set (syncDeferredTools w set s) ∧
      (KeepsPrefix (syncDeferredTools w set s).bound ↔ KeepsPrefix s.bound ∧
        (w.rebinds = true → newTools set s ≠ [] → w.binder = .cacheAware ∧
          ∀ o ∈ s.last set, ∀ t ∈ s.active.drop s.sent, o.name < t.name)) := by
  rw [syncDeferredTools]
  by_cases hnew : newTools set s = []
  · rw [if_pos hnew]
    exact ⟨h, fun hk => ⟨hk, fun _ hne => absurd hnew hne⟩, fun hk => hk.1⟩
  · rw [if_neg hnew]
    dsimp only
    cases hr : w.rebinds with
    | false =>
      rw [if_neg Bool.false_ne_true]
      refine ⟨⟨h.last, h.sent, ?_, h.distinct⟩, fun hk => ⟨hk, fun hf => by cases hf⟩,
        fun hk => hk.1⟩
      intro t ht
      exact List.mem_append_left _ (h.known t ht)
    | true =>
      rw [if_pos rfl]
      have hlast : State.last set { s with
          toolMap := s.toolMap ++ (newTools set s).map Tool.name
          bound := s.bound ++ [w.binder.bind (rebound set s.active)]
          sent := s.active.length } = rebound set s.active := by
        rw [State.last, List.take_length]
      refine ⟨⟨?_, le_refl _, ?_, h.distinct⟩, ?_⟩
      · rw [hlast, List.getLast?_append]
        rfl
      · intro t ht
        rw [hlast] at ht
        exact known_sync h ht
      · have hsplit : s.active.take s.sent ++ s.active.drop s.sent = s.active :=
          List.take_append_drop _ _
        have hdistinct : ((s.active.take s.sent ++ s.active.drop s.sent).map Tool.name).Nodup :=
          hsplit.symm ▸ h.distinct
        rw [keepsPrefix_append h.last]
        constructor
        · intro ⟨hk, hpref⟩
          refine ⟨hk, fun _ _ => ?_⟩
          rw [← hsplit] at hpref
          exact (rebound_prefix_iff (drop_ne_nil h hnew) hdistinct
            (keepsPrefix_last hk h.last)).1 hpref
        · intro ⟨hk, happends⟩
          refine ⟨hk, ?_⟩
          have hpref := (rebound_prefix_iff (w := w) (drop_ne_nil h hnew) hdistinct
            (keepsPrefix_last hk h.last)).2 (happends rfl hnew)
          rw [hsplit] at hpref
          exact hpref

theorem step_inv {s : State} (calls : List (String × Int)) (h : Inv w set s) :
    Inv w set (step w set s calls) ∧
      (KeepsPrefix (step w set s calls).bound ↔ KeepsPrefix s.bound ∧ Appends w set s calls) := by
  obtain ⟨added, hadded, hd⟩ := searches_append w set calls h.distinct
  have hsync := sync_inv (h.activate hd)
  rw [last_append h.sent] at hsync
  rw [step, Appends, hadded]
  exact hsync

theorem exposed_of_set {settings : Settings} {tools : List Tool}
    (hplan : planDeferredTools settings tools = plan) (h : plan.deferredSet = some set) :
    plan.exposed = rebound set [] := by
  rw [planDeferredTools] at hplan
  split at hplan
  · subst hplan
    cases h
  · split at hplan
    split at hplan
    · subst hplan
      cases h
    · split at hplan
      · subst hplan
        cases h
      · subst hplan
        cases h
        rw [rebound, DeferredToolSet.exposed, List.append_nil]

theorem inv_init {plan : DeferredPlan} (h : plan.exposed = rebound set []) :
    Inv w set (init w plan) := by
  have hlast : State.last set (init w plan) = plan.exposed := by
    rw [h]
    rfl
  constructor
  · rw [hlast]
    rfl
  · exact le_refl _
  · intro t ht
    rw [hlast] at ht
    exact List.mem_map_of_mem ht
  · exact List.nodup_nil

theorem keepsPrefix_init (w : Wiring) (plan : DeferredPlan) :
    KeepsPrefix (init w plan).bound ↔ (plan.exposed.map Tool.name).Nodup := by
  constructor
  · intro h
    exact (nodup_bind _ _).1 (h.nodup _ (List.mem_singleton_self _))
  · intro h
    refine ⟨List.isChain_singleton _, ?_⟩
    intro tools ht
    cases List.mem_singleton.1 ht
    exact (nodup_bind _ _).2 h

def AppendsAlong (w : Wiring) (plan : DeferredPlan) (turns : List (List (String × Int))) : Prop :=
  match plan.deferredSet with
  | none => True
  | some set => Along (step w set) (fun s calls _ => Appends w set s calls) (init w plan) turns

/-- The lists that are bound keep the prefix of the cache exactly when the first of them names no
tool twice and every turn that binds anew appends to a sorted list. -/
theorem bound_keepsPrefix_iff (settings : Settings) (tools : List Tool) (w : Wiring)
    (turns : List (List (String × Int))) :
    KeepsPrefix (run w (planDeferredTools settings tools) turns).bound ↔
      ((planDeferredTools settings tools).exposed.map Tool.name).Nodup ∧
        AppendsAlong w (planDeferredTools settings tools) turns := by
  cases hplan : planDeferredTools settings tools with
  | mk exposed deferredSet =>
    cases deferredSet with
    | none =>
      rw [run, AppendsAlong, and_true]
      exact keepsPrefix_init w _
    | some set =>
      have hinv : Inv w set (init w ⟨exposed, some set⟩) := inv_init (exposed_of_set hplan rfl)
      have hrun : KeepsPrefix (final (step w set) (init w ⟨exposed, some set⟩) turns).bound ↔
          KeepsPrefix (init w ⟨exposed, some set⟩).bound ∧
            Along (step w set) (fun s calls _ => Appends w set s calls)
              (init w ⟨exposed, some set⟩) turns :=
        final_iff_along (fun s : State => KeepsPrefix s.bound)
          (fun s calls hs => step_inv calls hs) hinv
      rw [keepsPrefix_init] at hrun
      exact hrun

def matchAll : Wiring where
  ranking := ⟨fun query => [query], fun _ _ _ => 1⟩
  binder := .plain
  rebinds := true

def twoTools : DeferredPlan :=
  planDeferredTools ⟨true, ["a"], 1, false⟩ [⟨"a", ""⟩, ⟨"b", ""⟩]

theorem twoTools_eq :
    twoTools = ⟨[⟨"a", ""⟩, searchTool], some ⟨[⟨"a", ""⟩], [⟨"b", ""⟩]⟩⟩ := by
  simp [twoTools, planDeferredTools, splitCoreAndDeferred]

theorem search_one : search matchAll.ranking [⟨"b", ""⟩] "b" 5 = [⟨"b", ""⟩] := by
  simp [search, matchAll]

theorem twoTools_bound : (run matchAll twoTools [[("b", 5)]]).bound =
    [[⟨"a", ""⟩, searchTool], [⟨"a", ""⟩, ⟨"b", ""⟩, searchTool]] := by
  rw [twoTools_eq]
  change (step matchAll ⟨[⟨"a", ""⟩], [⟨"b", ""⟩]⟩ (init matchAll
    ⟨[⟨"a", ""⟩, searchTool], some ⟨[⟨"a", ""⟩], [⟨"b", ""⟩]⟩⟩) [("b", 5)]).bound = _
  rw [step, List.foldl_cons, List.foldl_nil, searchTools, search_one]
  decide

/-- The search tool stands where the next list has the tool that it has found. -/
theorem search_tool_moves : ¬KeepsPrefix (run matchAll twoTools [[("b", 5)]]).bound := by
  intro h
  have hchain := h.chain
  rw [twoTools_bound] at hchain
  exact absurd hchain (by decide)

end Prismal.Agents.ToolSearch
