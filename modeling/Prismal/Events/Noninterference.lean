import Prismal.Events.Secrecy

namespace Prismal.Events
open Prismal.Lib
set_option autoImplicit true

/-! Entries that are not allow-listed do not reach the client. -/

/-! The patch between two views depends on what they hold, not on the order of their entries. -/

theorem unionKeys_congr {es es' fs fs' : List (Key × Py)} (he : (es.map Prod.fst).Nodup)
    (he' : (es'.map Prod.fst).Nodup) (hf : (fs.map Prod.fst).Nodup)
    (hf' : (fs'.map Prod.fst).Nodup) (hstr : ∀ k ∈ unionKeys es fs, ∃ s, k = .str s)
    (hes : ∀ k, k ∈ es.map Prod.fst ↔ k ∈ es'.map Prod.fst)
    (hfs : ∀ k, k ∈ fs.map Prod.fst ↔ k ∈ fs'.map Prod.fst) :
    unionKeys es fs = unionKeys es' fs' := by
  have hmem : ∀ k, k ∈ unionKeys es fs ↔ k ∈ unionKeys es' fs' := fun k => by
    rw [mem_unionKeys, mem_unionKeys, hes, hfs]
  have hperm : (unionKeys es fs).Perm (unionKeys es' fs') :=
    (List.perm_ext_iff_of_nodup (nodup_unionKeys he hf) (nodup_unionKeys he' hf')).2 hmem
  have hsorted : ∀ es fs : List (Key × Py),
      (unionKeys es fs).Pairwise fun j k => decide (j.render ≤ k.render) = true := by
    intro es fs
    apply List.pairwise_mergeSort
    · intro i j k h₁ h₂
      exact decide_eq_true ((of_decide_eq_true h₁).trans (of_decide_eq_true h₂))
    · intro j k
      rw [Bool.or_eq_true, decide_eq_true_eq, decide_eq_true_eq]
      exact le_total _ _
  refine hperm.eq_of_pairwise (fun j k hj hk h₁ h₂ => ?_) (hsorted es fs) (hsorted es' fs')
  -- keys of views are strings, told apart by their rendering
  obtain ⟨s, rfl⟩ := hstr j hj
  obtain ⟨t, rfl⟩ := hstr k ((hmem k).2 hk)
  have hst : s = t := le_antisymm (of_decide_eq_true h₁) (of_decide_eq_true h₂)
  rw [hst]

theorem diffKeys_congr {es es' fs fs' : List (Key × Py)}
    (hes : ∀ k, Dict.lookup k es = Dict.lookup k es')
    (hfs : ∀ k, Dict.lookup k fs = Dict.lookup k fs') (path : String) (ks : List Key) :
    diffKeys (differs es) es fs path ks = diffKeys (differs es') es' fs' path ks := by
  induction ks with
  | nil => rfl
  | cons k ks ih =>
    rw [diffKeys_cons, diffKeys_cons, ih, keyOps, keyOps, lookup_differs, lookup_differs, hes, hfs]

def SameView (d d' : Dict String Py) : Prop := ∀ key, d.get? key = d'.get? key

theorem SameView.keys (h : SameView d d') (k : Key) :
    k ∈ (d.entries.map fun e => (Key.str e.1, e.2)).map Prod.fst ↔
      k ∈ (d'.entries.map fun e => (Key.str e.1, e.2)).map Prod.fst := by
  rw [← not_iff_not, ← Dict.lookup_eq_none, ← Dict.lookup_eq_none]
  cases k with
  | str key =>
    rw [lookup_asPy, lookup_asPy]
    have hkey : Dict.lookup key d.entries = Dict.lookup key d'.entries := h key
    rw [hkey]
  | other r =>
    rw [lookup_asPy_other, lookup_asPy_other]

theorem nodup_asPy (d : Dict String Py) :
    ((d.entries.map fun e => (Key.str e.1, e.2)).map Prod.fst).Nodup := by
  have hn := d.nodup.map fun a b (h : Key.str a = Key.str b) => Key.str.inj h
  rw [List.map_map] at hn ⊢
  exact hn

theorem jsonPatchDiff_congr (h : SameView d d') (h' : SameView e e') :
    jsonPatchDiff d e = jsonPatchDiff d' e' := by
  have hl : ∀ {d d' : Dict String Py}, SameView d d' → ∀ k,
      Dict.lookup k (d.entries.map fun e => (Key.str e.1, e.2)) =
        Dict.lookup k (d'.entries.map fun e => (Key.str e.1, e.2)) := by
    intro d d' h k
    cases k with
    | str key =>
      rw [lookup_asPy, lookup_asPy]
      exact h key
    | other r => rw [lookup_asPy_other, lookup_asPy_other]
  rw [jsonPatchDiff, jsonPatchDiff, diffShared, diffShared, diffKeys_congr (hl h) (hl h')]
  congr 1
  refine unionKeys_congr (nodup_asPy d) (nodup_asPy d') (nodup_asPy e) (nodup_asPy e') ?_
    h.keys h'.keys
  intro k hk
  rw [mem_unionKeys] at hk
  rcases hk with hk | hk <;>
  · obtain ⟨x, hx, rfl⟩ := List.mem_map.1 hk
    obtain ⟨y, -, rfl⟩ := List.mem_map.1 hx
    exact ⟨_, rfl⟩

def clientValue (key : String) (v : Py) : Except PyError (Option Py) :=
  if key.startsWith "_" then .ok none else viewEntry key v

/-- The two states or updates agree on the allow-listed keys. -/
inductive Py.Agree (keys : List String) : Py → Py → Prop
  | plain (h : v.isMapping = false) (h' : v'.isMapping = false) : Agree keys v v'
  | rogue (t t' : String) : Agree keys (.rogue t) (.rogue t')
  | dict (hn : (es.map Prod.fst).Nodup) (hn' : (es'.map Prod.fst).Nodup)
      (h : ∀ key ∈ keys, (Dict.lookup (.str key) es).map (clientValue key) =
        (Dict.lookup (.str key) es').map (clientValue key)) : Agree keys (.dict es) (.dict es')

theorem clientValue_visible (hv : Visible keys key) (v : Py) :
    clientValue key v = viewEntry key v :=
  if_neg hv.2

theorem viewEntries_agree {es es' : List (Key × Py)} (hn : (es.map Prod.fst).Nodup)
    (hn' : (es'.map Prod.fst).Nodup)
    (h : ∀ key ∈ keys, (Dict.lookup (.str key) es).map (clientValue key) =
      (Dict.lookup (.str key) es').map (clientValue key))
    (hd : viewEntries keys es = .ok d) : ∃ d', viewEntries keys es' = .ok d' ∧ SameView d d' := by
  have hvalue : ∀ key v', Visible keys key → Dict.lookup (.str key) es' = some v' →
      viewEntry key v' = .ok (d.get? key) := by
    intro key v' hv hl
    have hkey := h key hv.1
    rw [hl, Option.map_some, clientValue_visible hv] at hkey
    obtain ⟨v, hlv, hc⟩ := Option.map_eq_some_iff.1 hkey
    rw [clientValue_visible hv] at hc
    have hview := get?_viewEntries hn hd key
    rw [if_pos hv, hlv] at hview
    exact hc.symm.trans hview
  have hok : ∃ d', viewEntries keys es' = .ok d' := by
    apply viewEntries_ok
    exact fun key v' hm hv => ⟨_, hvalue key v' hv ((Dict.lookup_eq_some hn').2 hm)⟩
  obtain ⟨d', hd'⟩ := hok
  refine ⟨d', hd', fun key => ?_⟩
  have hview := get?_viewEntries hn hd key
  have hview' := get?_viewEntries hn' hd' key
  by_cases hv : Visible keys key
  · rw [if_pos hv] at hview hview'
    cases hl' : Dict.lookup (.str key) es' with
    | none =>
      have hkey := h key hv.1
      rw [hl', Option.map_none, Option.map_eq_none_iff] at hkey
      rw [hkey] at hview
      rw [hl'] at hview'
      exact hview.trans hview'.symm
    | some v' =>
      rw [hl'] at hview'
      exact Except.ok.inj ((hvalue key v' hv hl').symm.trans hview')
  · rw [if_neg hv] at hview hview'
    rw [hview, hview']

theorem Py.Agree.symm (h : Py.Agree keys v v') : Py.Agree keys v' v := by
  cases h with
  | plain h h' => exact .plain h' h
  | rogue t t' => exact .rogue t' t
  | dict hn hn' h => exact .dict hn' hn fun key hk => (h key hk).symm

theorem stateView_agree (h : Py.Agree keys v v') (hd : stateView v keys = .ok d) :
    ∃ d', stateView v' keys = .ok d' ∧ SameView d d' := by
  have hplain : ∀ v : Py, v.isMapping = false → stateView v keys = .ok ∅ := by
    intro v hv
    cases v with
    | dict es => cases hv
    | rogue t => cases hv
    | _ => rfl
  cases h with
  | plain h h' =>
    rw [hplain v h] at hd
    cases hd
    exact ⟨_, hplain v' h', fun _ => rfl⟩
  | rogue t t' => cases hd
  | dict hn hn' h => exact viewEntries_agree hn hn' h hd

/-- The JSON view of a metadata entry; `none`: there is no such entry. -/
def reading (md : Py) (key : String) : Except PyError (Option (Option Py)) := do
  match ← md.get key with
  | none => return none
  | some v => return some (← jsonValue v)

def channel (v : Py) (key : String) : Except PyError (Option (Option Py)) := do
  match ← v.get "metadata" with
  | none => return none
  | some md => if md.isMapping then reading md key else return none

/-- The routing and decision entries can be read in both or in neither, and have the same JSON
views when they are sent. -/
def Py.Channels (on : Bool) (v v' : Py) : Prop :=
  ∀ e ∈ metadataCustom, Both (fun r r' => on = true → r = r') (channel v e.1) (channel v' e.1)

/-- All that reaches the client of two updates. -/
structure Py.Alike (keys : List String) (on : Bool) (v v' : Py) : Prop where
  mapping : v.isMapping = v'.isMapping
  written : ∀ key ∈ keys, Key.str key ∈ (entriesOf v).map Prod.fst ↔
    Key.str key ∈ (entriesOf v').map Prod.fst
  view : Both SameView (stateView v keys) (stateView v' keys)
  channels : Py.Channels on v v'

theorem Py.Alike.refl (v : Py) : Py.Alike keys on v v where
  mapping := rfl
  written := fun _ _ => Iff.rfl
  view := Both.refl (fun _ _ => rfl) _
  channels := fun _ _ => Both.refl (fun _ _ => rfl) _

theorem Py.Agree.alike (h : Py.Agree keys v v') (hc : Py.Channels on v v') :
    Py.Alike keys on v v' where
  mapping := by
    cases h with
    | plain h h' => rw [h, h']
    | rogue t t' => rfl
    | dict hn hn' h => rfl
  written := by
    have hplain : ∀ v : Py, v.isMapping = false → entriesOf v = [] := by
      intro v hv
      cases v with
      | dict es => cases hv
      | _ => rfl
    intro key hk
    cases h with
    | plain h h' => rw [hplain v h, hplain v' h']
    | rogue t t' => exact Iff.rfl
    | dict hn hn' h =>
      rw [← not_iff_not, entriesOf, entriesOf, ← Dict.lookup_eq_none, ← Dict.lookup_eq_none]
      have hkey := congrArg Option.isNone (h key hk)
      rw [Option.isNone_map, Option.isNone_map] at hkey
      rw [← Option.isNone_iff_eq_none, ← Option.isNone_iff_eq_none, hkey]
  view := by
    cases hd : stateView v keys with
    | ok d =>
      obtain ⟨d', hd', hs⟩ := stateView_agree h hd
      rw [hd']
      exact hs
    | error e =>
      cases hd' : stateView v' keys with
      | ok d' =>
        obtain ⟨d, hd₁, -⟩ := stateView_agree h.symm hd'
        rw [hd] at hd₁
        cases hd₁
      | error e' => trivial
  channels := hc

/-! The two runs side by side. -/

theorem Twin.retrack (h : Twin keys on ctx ctx') (t t' : Tracked)
    (ht : t.Alike keys on t') : Twin keys on (ctx.put t) (ctx'.put t') := by
  refine ⟨?_, ht⟩
  rw [h.rest]
  rfl

def customStep (key name : String) (r : Option (Option Py)) (ctx : AgUiContext) :
    List Event × AgUiContext :=
  match r with
  | some (some value) =>
    if sameAsLast (ctx.lastMetadata.get? key) value then ([], ctx)
    else (if ctx.includeMetadata then [.custom name value] else [],
      { ctx with lastMetadata := ctx.lastMetadata.set key (some value) })
  | _ => ([], ctx)

def customs (read : String → Except PyError (Option (Option Py))) :
    List (String × String) → Tr (List Event)
  | [] => pure []
  | (key, name) :: rest => do
    let r ← liftPy (read key)
    let first ← emit (customStep key name r)
    let more ← customs read rest
    return first ++ more

theorem metadataKey_eq (md : Py) (key name : String) :
    metadataKey md key name = (do
      let r ← liftPy (reading md key)
      emit (customStep key name r)) := by
  funext ctx
  rw [metadataKey, reading]
  cases md.get key with
  | error e => rfl
  | ok v =>
    cases v with
    | none => rfl
    | some v =>
      cases hv : jsonValue v with
      | error e =>
        change (liftPy (jsonValue v) >>= _) ctx = (liftPy (jsonValue v >>= _) >>= _) ctx
        rw [hv]
        rfl
      | ok seen =>
        change (liftPy (jsonValue v) >>= _) ctx = (liftPy (jsonValue v >>= _) >>= _) ctx
        rw [hv]
        cases seen with
        | none => rfl
        | some value =>
          change (if sameAsLast (ctx.lastMetadata.get? key) value = true then pure [] else do
              set { ctx with lastMetadata := ctx.lastMetadata.set key (some value) }
              return if ctx.includeMetadata then [Event.custom name value] else [] : Tr _) ctx =
            .ok (customStep key name (some (some value)) ctx).1
              (customStep key name (some (some value)) ctx).2
          rw [customStep]
          split <;> rfl

theorem metadataKeys_eq (md : Py) (keys : List (String × String)) :
    metadataKeys md keys = customs (reading md) keys := by
  induction keys with
  | nil => rfl
  | cons e keys ih => rw [metadataKeys, customs, ih, metadataKey_eq, bind_assoc]

theorem customs_none (keys : List (String × String)) :
    customs (fun _ => .ok none) keys = pure [] := by
  induction keys with
  | nil => rfl
  | cons e keys ih =>
    rw [customs, ih]
    rfl

theorem channel_cases (v : Py) :
    (∃ e, v.get "metadata" = .error e ∧ channel v = fun _ => .error e) ∨
    (v.get "metadata" = .ok none ∧ channel v = fun _ => .ok none) ∨
    ∃ md, v.get "metadata" = .ok (some md) ∧
      (md.isMapping = true ∧ channel v = reading md ∨
        ¬ md.isMapping = true ∧ channel v = fun _ => .ok none) := by
  cases hv : v.get "metadata" with
  | error e =>
    refine .inl ⟨e, rfl, ?_⟩
    funext key
    rw [channel, hv]
    rfl
  | ok md =>
    cases md with
    | none =>
      refine .inr (.inl ⟨rfl, ?_⟩)
      funext key
      rw [channel, hv]
      rfl
    | some md =>
      refine .inr (.inr ⟨md, rfl, ?_⟩)
      by_cases hm : md.isMapping = true
      · refine .inl ⟨hm, ?_⟩
        funext key
        rw [channel, hv]
        exact if_pos hm
      · refine .inr ⟨hm, ?_⟩
        funext key
        rw [channel, hv]
        exact if_neg hm

theorem metadataCustoms_eq (v : Py) : metadataCustoms v = customs (channel v) metadataCustom := by
  rw [metadataCustoms]
  rcases channel_cases v with ⟨e, hv, hc⟩ | ⟨hv, hc⟩ | ⟨md, hv, ⟨hm, hc⟩ | ⟨hm, hc⟩⟩
  · rw [hv, hc]
    rfl
  · rw [hv, hc, customs_none]
    rfl
  · rw [hv, hc, ← metadataKeys_eq]
    exact if_pos hm
  · rw [hv, hc, customs_none]
    exact if_neg hm

theorem Twin.includeMetadata (h : Twin keys on ctx ctx') :
    ctx.includeMetadata = on ∧ ctx'.includeMetadata = on :=
  ⟨h.alike.flag, h.alike.flag'⟩

theorem customStep_off (hoff : ctx.includeMetadata = false) (key name : String)
    (r : Option (Option Py)) :
    ∃ m, customStep key name r ctx = ([], { ctx with lastMetadata := m }) := by
  rw [customStep.eq_def]
  split
  · split
    · exact ⟨_, rfl⟩
    · rw [hoff]
      exact ⟨_, rfl⟩
  · exact ⟨_, rfl⟩

theorem rel_customStep {r r' : Option (Option Py)} (hr : on = true → r = r') (key name : String) :
    Rel (Twin keys on) Eq (emit (customStep key name r)) (emit (customStep key name r')) := by
  intro ctx ctx' h
  obtain ⟨hflag, hflag'⟩ := h.includeMetadata
  cases on with
  | true =>
    have hlast : ctx.lastMetadata = ctx'.lastMetadata := h.alike.metadata rfl
    rw [← hr rfl, emit, emit, customStep.eq_def, customStep.eq_def, ← hlast]
    split
    next value =>
      split
      · exact ⟨rfl, h⟩
      · refine ⟨?_, h.retrack { ctx.tracked with lastMetadata := _ }
          { ctx'.tracked with lastMetadata := ctx.lastMetadata.set key (some value) }
          { h.alike with metadata := fun _ => rfl }⟩
        have hsame : ctx.includeMetadata = ctx'.includeMetadata := hflag.trans hflag'.symm
        rw [hsame]
    · exact ⟨rfl, h⟩
  | false =>
    obtain ⟨m, hm⟩ := customStep_off hflag key name r
    obtain ⟨m', hm'⟩ := customStep_off hflag' key name r'
    rw [emit, emit, hm, hm']
    exact ⟨rfl, h.retrack { ctx.tracked with lastMetadata := m }
      { ctx'.tracked with lastMetadata := m' } { h.alike with metadata := fun h => by cases h }⟩

theorem rel_customs {read read' : String → Except PyError (Option (Option Py))}
    {names : List (String × String)}
    (h : ∀ e ∈ names, Both (fun r r' => on = true → r = r') (read e.1) (read' e.1)) :
    Rel (Twin keys on) Eq (customs read names) (customs read' names) := by
  induction names with
  | nil => exact Rel.pure rfl
  | cons e names ih =>
    refine Rel.bind (rel_liftPy (h e List.mem_cons_self)) fun r r' hr => ?_
    exact rel_append (rel_customStep hr _ _) (ih fun e' he => h e' (List.mem_cons_of_mem _ he))

theorem rel_metadataCustoms (h : Py.Channels on v v') :
    Rel (Twin keys on) Eq (metadataCustoms v) (metadataCustoms v') := by
  rw [metadataCustoms_eq, metadataCustoms_eq]
  exact rel_customs h

theorem rel_stateDelta (h : Py.Alike keys on v v') :
    Rel (Twin keys on) Eq (stateDelta v) (stateDelta v') := by
  refine Rel.bind Rel.get fun ctx ctx' hc => ?_
  have hkeys : ctx.stateKeys = keys := hc.alike.allowed
  have hkeys' : ctx'.stateKeys = keys := hc.alike.allowed'
  have hview : Both SameView (stateView v ctx.stateKeys) (stateView v' ctx'.stateKeys) := by
    rw [hkeys, hkeys']
    exact h.view
  refine Rel.bind (rel_liftPy hview) fun part part' hpart => ?_
  have hold : SameView (ctx.lastState.getD ∅) (ctx'.lastState.getD ∅) := hc.alike.last
  have hnew : SameView (overlay ctx.stateKeys part (entriesOf v) (ctx.lastState.getD ∅))
      (overlay ctx'.stateKeys part' (entriesOf v') (ctx'.lastState.getD ∅)) := by
    intro key
    rw [hkeys, hkeys', get?_overlay, get?_overlay, hpart key, hold key]
    exact if_congr (and_congr_left fun hk => h.written key hk) rfl rfl
  have hdeltas : ctx'.includeStateDeltas = ctx.includeStateDeltas := by
    rw [hc.rest]
    rfl
  refine Rel.bind (Rel.set ?_) fun _ _ _ => ?_
  · exact hc.retrack { ctx.tracked with lastState := some _ }
      { ctx'.tracked with lastState := some _ } { hc.alike with last := hnew }
  · dsimp only
    rw [hdeltas, jsonPatchDiff_congr hold hnew]
    split
    · exact Rel.pure rfl
    · exact Rel.pure rfl

theorem rel_changes (h : Py.Alike keys on v v') (ns : List String) :
    Rel (Twin keys on) Eq (changes ns v) (changes ns v') := by
  rw [changes, changes, h.mapping]
  split
  · exact rel_append (rel_stateDelta h) (rel_metadataCustoms h.channels)
  · exact Rel.pure rfl

/-- Two entries of an `updates` payload that the client cannot tell apart. -/
def NodeTwin (keys : List String) (on : Bool) (ns : List String) (e e' : Key × Py) : Prop :=
  e.1 = e'.1 ∧ if e.1 = .str "__interrupt__" then e.2 = e'.2
    else ns = [] → Py.Agree keys e.2 e'.2 ∧ Py.Channels on e.2 e'.2

theorem rel_changes_nested (hns : ns ≠ []) (v : Py) : changes ns v = pure [] := by
  rw [changes, if_neg]
  rintro ⟨-, hns'⟩
  exact hns (List.isEmpty_iff.1 hns')

theorem rel_updateNode {node : Key} (hc : node ≠ .str "__interrupt__" →
      Rel (Twin keys on) Eq (changes ns v) (changes ns v'))
    (hi : node = .str "__interrupt__" → v = v') :
    Rel (Twin keys on) Eq (updateNode ns node v) (updateNode ns node v') := by
  rw [updateNode, updateNode]
  split
  next hnode =>
    rw [hi hnode]
    exact Rel.bind (oblivious_recordInterrupts _) fun _ _ _ => Rel.pure rfl
  next hnode =>
    refine Rel.bind (oblivious_emit (blind_closeOwner _)) fun closed closed' h => ?_
    refine Rel.bind (hc hnode) fun changed changed' h' => Rel.pure ?_
    rw [h, h']

theorem rel_updateNodes {es es' : List (Key × Py)}
    (h : List.Forall₂ (fun e e' => Rel (Twin keys on) Eq (updateNode ns e.1 e.2)
      (updateNode ns e'.1 e'.2)) es es') :
    Rel (Twin keys on) Eq (updateNodes ns es) (updateNodes ns es') := by
  induction h with
  | nil => exact Rel.pure rfl
  | cons h _ ih => exact rel_append h ih

theorem NodeTwin.rel (h : NodeTwin keys on ns e e') :
    Rel (Twin keys on) Eq (updateNode ns e.1 e.2) (updateNode ns e'.1 e'.2) := by
  obtain ⟨hnode, hv⟩ := h
  rw [← hnode]
  apply rel_updateNode
  · intro hn
    rw [if_neg hn] at hv
    by_cases hns : ns = []
    · obtain ⟨ha, hc⟩ := hv hns
      exact rel_changes (ha.alike hc) ns
    · rw [rel_changes_nested hns, rel_changes_nested hns]
      exact Rel.pure rfl
  · intro hn
    rwa [if_pos hn] at hv

theorem oblivious_updates (ns : List String) (payload : Payload) :
    Oblivious keys on (updates ns payload) := by
  rw [updates.eq_def]
  split
  · refine oblivious_some (rel_updateNodes ?_)
    refine List.forall₂_same.2 fun e _ => ?_
    exact rel_updateNode (fun _ => rel_changes (Py.Alike.refl e.2) ns) fun _ => rfl
  · exact Rel.throw _ _
  · exact Rel.pure rfl

theorem oblivious_dispatch (ns : List String) (mode : String) (payload : Payload) :
    Oblivious keys on (dispatch ns mode payload) := by
  unfold dispatch
  split
  · exact oblivious_messages ns payload
  · split
    · exact oblivious_updates ns payload
    · split
      · exact oblivious_some (oblivious_custom payload)
      · exact Rel.pure rfl

theorem oblivious_translate (chunk : Chunk) : Oblivious keys on (translate chunk) := by
  unfold translate
  split
  · exact oblivious_raw _ _ _
  · refine Rel.bind (oblivious_dispatch _ _ _) fun result result' h => ?_
    subst h
    cases result with
    | some evs => exact Rel.pure rfl
    | none => exact oblivious_raw _ _ _

/-- Two chunks of the streams that the client cannot tell apart. -/
inductive Chunk.Alike (keys : List String) (on : Bool) : Chunk → Chunk → Prop
  | same (chunk : Chunk) : Alike keys on chunk chunk
  | nodes (hs : split chunk = .ok (ns, "updates", .data (.dict es)))
      (hs' : split chunk' = .ok (ns, "updates", .data (.dict es')))
      (h : List.Forall₂ (NodeTwin keys on ns) es es') : Alike keys on chunk chunk'
  | custom (hs : split chunk = .ok (ns, "custom", .data v))
      (hs' : split chunk' = .ok (ns', "custom", .data v')) (ht : v.typeName = v'.typeName)
      (hp : subagentPhase v = .ok none) (hp' : subagentPhase v' = .ok none)
      (hm : sanitizeMetadata v = sanitizeMetadata v') : Alike keys on chunk chunk'
  | raw (hmode : mode ∉ ["messages", "updates", "custom"])
      (hs : split chunk = .ok (ns, mode, .data v)) (hs' : split chunk' = .ok (ns', mode, .data v'))
      (ht : v.typeName = v'.typeName) : Alike keys on chunk chunk'

theorem rel_raw {v v' : Py} (ht : v.typeName = v'.typeName)
    (hm : mode = "custom" → sanitizeMetadata v = sanitizeMetadata v') (source : String) :
    Rel (Twin keys on) Eq (raw mode (.data v) source) (raw mode (.data v') source) := by
  rw [raw, raw, ht]
  split
  next hc =>
    rw [hm hc]
    refine Rel.bind (oblivious_liftPy _) fun view view' h => Rel.pure ?_
    rw [h]
  · exact Rel.pure rfl

theorem rel_custom {v v' : Py} (ht : v.typeName = v'.typeName) (hp : subagentPhase v = .ok none)
    (hp' : subagentPhase v' = .ok none) (hm : sanitizeMetadata v = sanitizeMetadata v') :
    Rel (Twin keys on) Eq (custom (.data v)) (custom (.data v')) := by
  rw [custom, custom]
  dsimp only
  rw [hp, hp']
  have hraw : Rel (Twin keys on) Eq (raw "custom" (.data v) "langgraph.custom")
      (raw "custom" (.data v') "langgraph.custom") := rel_raw ht (fun _ => hm) _
  exact hraw

theorem dispatch_other (hm : mode ∉ ["messages", "updates", "custom"]) (ns : List String)
    (payload : Payload) : dispatch ns mode payload = pure none := by
  have hne : ∀ s ∈ ["messages", "updates", "custom"], mode ≠ s := fun s hs h => hm (h ▸ hs)
  rw [dispatch, if_neg (hne _ (by simp)), if_neg (hne _ (by simp)), if_neg (hne _ (by simp))]

theorem rel_answer {R : AgUiContext → AgUiContext → Prop} {Q : List Event → List Event → Prop}
    {x x' : Tr (List Event)} (h : Rel R Q x x') (k k' : Tr (List Event)) :
    Rel R Q
      ((do return some (← x)) >>= fun (result : Option (List Event)) =>
        match result with
        | some evs => pure evs
        | none => k)
      ((do return some (← x')) >>= fun (result : Option (List Event)) =>
        match result with
        | some evs => pure evs
        | none => k') := by
  rw [bind_assoc, bind_assoc]
  exact Rel.bind h fun evs evs' he => Rel.pure he

theorem Chunk.Alike.rel (h : Chunk.Alike keys on chunk chunk') :
    Rel (Twin keys on) Eq (translate chunk) (translate chunk') := by
  cases h with
  | same => exact oblivious_translate chunk
  | nodes hs hs' h =>
    rw [translate, translate, hs, hs']
    exact rel_answer (rel_updateNodes (h.imp fun _ _ he => he.rel)) _ _
  | custom hs hs' ht hp hp' hm =>
    rw [translate, translate, hs, hs']
    exact rel_answer (rel_custom ht hp hp' hm) _ _
  | raw hmode hs hs' ht =>
    rw [translate, translate, hs, hs']
    dsimp only
    rw [dispatch_other hmode, dispatch_other hmode]
    refine rel_raw ht (fun hc => ?_) _
    rw [hc] at hmode
    exact absurd (by simp) hmode

inductive SameEvent : Event → Event → Prop
  | same (e : Event) : SameEvent e e
  | snapshot (h : SameView d d') : SameEvent (.stateSnapshot d) (.stateSnapshot d')

theorem sameEvents_of_eq (h : evs = evs') : List.Forall₂ SameEvent evs evs' := by
  subst h
  exact List.forall₂_same.2 fun e _ => .same e

def rememberStep (key : String) (r : Option (Option Py)) (ctx : AgUiContext) : AgUiContext :=
  match r with
  | some seen => { ctx with lastMetadata := ctx.lastMetadata.set key seen }
  | none => ctx

def remembers (read : String → Except PyError (Option (Option Py))) :
    List (String × String) → Tr Unit
  | [] => pure ()
  | (key, _) :: rest => do
    let r ← liftPy (read key)
    modify (rememberStep key r)
    remembers read rest

theorem rememberKeys_eq (md : Py) (keys : List (String × String)) :
    rememberKeys md keys = remembers (reading md) keys := by
  induction keys with
  | nil => rfl
  | cons e keys ih =>
    funext ctx
    rw [rememberKeys, remembers, ← ih, reading]
    cases md.get e.1 with
    | error e => rfl
    | ok v =>
      cases v with
      | none => rfl
      | some v =>
        cases hv : jsonValue v with
        | error e =>
          change (liftPy (jsonValue v) >>= _) ctx = (liftPy (jsonValue v >>= _) >>= _) ctx
          rw [hv]
          rfl
        | ok seen =>
          change (liftPy (jsonValue v) >>= _) ctx = (liftPy (jsonValue v >>= _) >>= _) ctx
          rw [hv]
          rfl

theorem remembers_none (keys : List (String × String)) :
    remembers (fun _ => .ok none) keys = pure () := by
  induction keys with
  | nil => rfl
  | cons e keys ih =>
    rw [remembers, ih]
    rfl

theorem rememberMetadata_eq (v : Py) :
    rememberMetadata v = remembers (channel v) metadataCustom := by
  rw [rememberMetadata]
  rcases channel_cases v with ⟨e, hv, hc⟩ | ⟨hv, hc⟩ | ⟨md, hv, ⟨hm, hc⟩ | ⟨hm, hc⟩⟩
  · rw [hv, hc]
    rfl
  · rw [hv, hc, remembers_none]
    rfl
  · rw [hv, hc, ← rememberKeys_eq]
    exact if_pos hm
  · rw [hv, hc, remembers_none]
    exact if_neg hm

theorem rel_remembers {read read' : String → Except PyError (Option (Option Py))}
    {names : List (String × String)}
    (h : ∀ e ∈ names, Both (fun r r' => on = true → r = r') (read e.1) (read' e.1)) :
    Rel (Twin keys on) (fun _ _ => True) (remembers read names) (remembers read' names) := by
  induction names with
  | nil => exact Rel.pure trivial
  | cons e names ih =>
    refine Rel.bind (rel_liftPy (h e List.mem_cons_self)) fun r r' hr => ?_
    refine Rel.bind (Rel.modify fun ctx ctx' hc => ?_) fun _ _ _ =>
      ih fun e' he => h e' (List.mem_cons_of_mem _ he)
    have hstep : ∀ (r : Option (Option Py)) (ctx : AgUiContext), rememberStep e.1 r ctx =
        ctx.put { ctx.tracked with lastMetadata := (rememberStep e.1 r ctx).lastMetadata } := by
      intro r ctx
      cases r <;> rfl
    rw [hstep r ctx, hstep r' ctx']
    refine hc.retrack _ _ { hc.alike with metadata := fun hon => ?_ }
    have hlast : ctx.lastMetadata = ctx'.lastMetadata := hc.alike.metadata hon
    rw [hr hon]
    cases r' with
    | none => exact hlast
    | some seen => exact congrArg (fun m => m.set e.1 seen) hlast

theorem rel_rememberMetadata (h : Py.Channels on v v') :
    Rel (Twin keys on) (fun _ _ => True) (rememberMetadata v) (rememberMetadata v') := by
  rw [rememberMetadata_eq, rememberMetadata_eq]
  exact rel_remembers h

theorem rel_startRun (h : Py.Alike keys on v v') (input : Option Py) :
    Rel (Twin keys on) (List.Forall₂ SameEvent) (startRun v input) (startRun v' input) := by
  refine Rel.bind Rel.get fun ctx ctx' hc => ?_
  have hkeys : ctx.stateKeys = keys := hc.alike.allowed
  have hkeys' : ctx'.stateKeys = keys := hc.alike.allowed'
  have hview : Both SameView (stateView v ctx.stateKeys) (stateView v' ctx'.stateKeys) := by
    rw [hkeys, hkeys']
    exact h.view
  refine Rel.bind (oblivious_safeOption _) fun input' input'' hin => ?_
  subst hin
  refine Rel.bind (rel_liftPy hview) fun view view' hv => ?_
  refine Rel.bind (Rel.modify fun c c' hc => ?_) fun _ _ _ => ?_
  · exact hc.retrack { c.tracked with lastState := some view }
      { c'.tracked with lastState := some view' } { hc.alike with last := hv }
  · refine Rel.bind (rel_rememberMetadata h.channels) fun _ _ _ => Rel.pure ?_
    rw [hc.rest]
    refine List.Forall₂.cons (.same _) ?_
    change List.Forall₂ SameEvent (if ctx.includeStateDeltas = true then _ else _)
      (if ctx.includeStateDeltas = true then _ else _)
    split
    · exact .cons (SameEvent.snapshot hv) .nil
    · exact .nil

theorem beside_swallow {R : AgUiContext → AgUiContext → Prop}
    {Q : List Event → List Event → Prop} {x x' : Tr (List Event)}
    (h : Beside R Q (x ctx) (x' ctx')) (hnil : Q [] []) :
    Q (swallow x ctx).1 (swallow x' ctx').1 ∧ R (swallow x ctx).2 (swallow x' ctx').2 := by
  rw [swallow, swallow]
  cases hs : x ctx with
  | ok evs c =>
    cases hs' : x' ctx' with
    | ok evs' c' =>
      rw [hs, hs'] at h
      exact h
    | error e c' =>
      rw [hs, hs'] at h
      exact h.elim
  | error e c =>
    cases hs' : x' ctx' with
    | ok evs' c' =>
      rw [hs, hs'] at h
      exact h.elim
    | error e' c' =>
      rw [hs, hs'] at h
      exact ⟨hnil, h⟩

theorem hostStream_twin (h : List.Forall₂ (Chunk.Alike keys on) chunks chunks')
    (hc : Twin keys on ctx ctx') :
    List.Forall₂ SameEvent (hostStream ctx chunks).1 (hostStream ctx' chunks').1 ∧
      Twin keys on (hostStream ctx chunks).2 (hostStream ctx' chunks').2 := by
  induction h generalizing ctx ctx' with
  | nil => exact ⟨.nil, hc⟩
  | cons h _ ih =>
    have hrel := h.rel.mono fun _ _ he => sameEvents_of_eq he
    obtain ⟨he, hc₁⟩ := beside_swallow (hrel _ _ hc) .nil
    obtain ⟨he', hc₂⟩ := ih hc₁
    exact ⟨List.rel_append he he', hc₂⟩

theorem oblivious_ending (ending : Ending) : Oblivious keys on ending.events := by
  cases ending with
  | finish summary result =>
    refine Rel.bind (oblivious_emit blind_closeAll) fun closed closed' h => ?_
    refine Rel.bind Rel.get fun ctx ctx' hc => ?_
    refine Rel.bind (oblivious_safeOption _) fun result' result'' hr => Rel.pure ?_
    rw [h, hr, hc.rest]
    rfl
  | error code message summary =>
    refine Rel.bind (oblivious_emit blind_closeAll) fun closed closed' h => ?_
    refine Rel.bind Rel.get fun ctx ctx' hc => Rel.pure ?_
    rw [h, hc.rest]
    rfl

/-- What the client may not see has no influence on the events of a run. -/
theorem hostRun_noninterference (host : Host) (input : Option Py) (ending : Ending)
    (hstate : Py.Agree host.stateKeys initialState initialState')
    (hchannels : Py.Channels host.includeMetadata initialState initialState')
    (hchunks : List.Forall₂ (Chunk.Alike host.stateKeys host.includeMetadata) chunks chunks') :
    List.Forall₂ SameEvent (hostRun initialState input chunks ending host.context)
      (hostRun initialState' input chunks' ending host.context) := by
  have hc : Twin host.stateKeys host.includeMetadata host.context host.context :=
    ⟨rfl, fun _ => rfl, fun _ => rfl, rfl, rfl, rfl, rfl⟩
  obtain ⟨he₁, hc₁⟩ := beside_swallow (rel_startRun (hstate.alike hchannels) input _ _ hc) .nil
  obtain ⟨he₂, hc₂⟩ := hostStream_twin hchunks hc₁
  have hending : Oblivious host.stateKeys host.includeMetadata ending.events :=
    oblivious_ending ending
  have hrel := hending.mono fun _ _ he => sameEvents_of_eq he
  obtain ⟨he₃, -⟩ := beside_swallow (hrel _ _ hc₂) .nil
  exact List.rel_append (List.rel_append he₁ he₂) he₃

theorem clientValue_metadata {md md' : List (Key × Py)}
    (h : ∀ e ∈ allowedMetadataKeys, Dict.lookup (.str e.1) md = Dict.lookup (.str e.1) md') :
    clientValue "metadata" (.dict md) = clientValue "metadata" (.dict md') := by
  have hentries : ∀ table : List (String × Option (List String)),
      (∀ e ∈ table, Dict.lookup (.str e.1) md = Dict.lookup (.str e.1) md') →
      sanitizeEntries (.dict md) table = sanitizeEntries (.dict md') table := by
    intro table ht
    induction table with
    | nil => rfl
    | cons e table ih =>
      rw [sanitizeEntries, sanitizeEntries, ih fun e' he => ht e' (List.mem_cons_of_mem _ he),
        Py.get, Py.get, ht e List.mem_cons_self]
  have hview : viewEntry "metadata" (.dict md) = viewEntry "metadata" (.dict md') := by
    rw [viewEntry, viewEntry, if_pos rfl, if_pos rfl, sanitizeMetadata, sanitizeMetadata]
    dsimp only [Py.isMapping]
    rw [hentries _ h]
    rfl
  rw [clientValue, clientValue, hview]

def stateWith (token key : String) (entry : Py) : Py :=
  .dict [(.str "token", .str token), (.str "metadata", .dict [(.str key, entry)])]

theorem lookup_single {name key : String} (h : name ≠ key) (v : Py) :
    Dict.lookup (Key.str name) [(Key.str key, v)] = none := by
  rw [Dict.lookup, if_neg fun he => h (Key.str.inj he).symm]
  rfl

theorem agree_stateWith {key key' : String} (hk : ∀ e ∈ allowedMetadataKeys, e.1 ≠ key)
    (hk' : ∀ e ∈ allowedMetadataKeys, e.1 ≠ key') (token token' : String) (entry entry' : Py) :
    Py.Agree defaultStateKeys (stateWith token key entry) (stateWith token' key' entry') := by
  have hnodup : [Key.str "token", .str "metadata"].Nodup := by decide
  refine .dict hnodup hnodup fun name hname => ?_
  by_cases hm : name = "metadata"
  · subst hm
    refine congrArg some (clientValue_metadata fun e he => ?_)
    rw [lookup_single (hk e he), lookup_single (hk' e he)]
  · have ht : "token" ≠ name := fun h => absurd (h ▸ hname) (by decide)
    have hnone : ∀ v w : Py,
        Dict.lookup (Key.str name) [(Key.str "token", v), (Key.str "metadata", w)] = none := by
      intro v w
      rw [Dict.lookup, if_neg fun h => ht (Key.str.inj h)]
      exact lookup_single (fun h => hm h) w
    rw [hnone, hnone]

def updateOf (update : Py) : Chunk := .pair "updates" (.data (.dict [(.str "worker", update)]))

theorem channels_stateWith {key key' : String} (hk : ∀ e ∈ metadataCustom, e.1 ≠ key)
    (hk' : ∀ e ∈ metadataCustom, e.1 ≠ key') (token token' : String) (entry entry' : Py) :
    Py.Channels on (stateWith token key entry) (stateWith token' key' entry') := by
  have hread : ∀ {key : String}, (∀ e ∈ metadataCustom, e.1 ≠ key) → ∀ token entry,
      ∀ e ∈ metadataCustom, channel (stateWith token key entry) e.1 = .ok none := by
    intro key hk token entry e he
    have hget : channel (stateWith token key entry) e.1 = reading (.dict [(.str key, entry)]) e.1 :=
      rfl
    rw [hget, reading, Py.get, lookup_single (hk e he)]
    rfl
  intro e he
  rw [hread hk token entry e he, hread hk' token' entry' e he]
  exact fun _ => rfl

theorem hostRun_noninterference_token : List.Forall₂ SameEvent
    (hostRun (stateWith "a" "trace" (.object "Span")) none
      [updateOf (stateWith "b" "cost" (.int 1))] (.finish none none)
      ({ runId := "r", threadId := "t" } : Host).context)
    (hostRun (stateWith "c" "user" .none) none
      [updateOf (stateWith "d" "trace" (.str "x"))] (.finish none none)
      ({ runId := "r", threadId := "t" } : Host).context) := by
  refine hostRun_noninterference { runId := "r", threadId := "t" } none (.finish none none)
    (agree_stateWith (by decide) (by decide) _ _ _ _)
    (channels_stateWith (by decide) (by decide) _ _ _ _)
    (.cons (.nodes rfl rfl (.cons ⟨rfl, ?_⟩ .nil)) .nil)
  rw [if_neg (by decide)]
  intro _
  exact ⟨agree_stateWith (by decide) (by decide) _ _ _ _,
    channels_stateWith (by decide) (by decide) _ _ _ _⟩

def runOf (includeMetadata : Bool) (update : Py) : List Event :=
  hostRun (.dict []) none [updateOf update] (.finish none none)
    ({ runId := "r", threadId := "t", includeStateDeltas := false,
       includeMetadata := includeMetadata } : Host).context

/-- Routing metadata is not allow-listed but sent, and can stop a chunk when it is not sent. -/
theorem hostRun_channels_differ :
    Py.Agree defaultStateKeys (stateWith "a" "routing" (.str "fast"))
      (stateWith "a" "trace" .none) ∧
    (runOf true (stateWith "a" "routing" (.str "fast"))).length ≠
      (runOf true (stateWith "a" "trace" .none)).length ∧
    Py.Agree defaultStateKeys (stateWith "a" "routing" (.rogue "Lazy"))
      (stateWith "a" "trace" .none) ∧
    (runOf false (stateWith "a" "routing" (.rogue "Lazy"))).length ≠
      (runOf false (stateWith "a" "trace" .none)).length :=
  ⟨agree_stateWith (by decide) (by decide) _ _ _ _, by decide +kernel,
    agree_stateWith (by decide) (by decide) _ _ _ _, by decide +kernel⟩

end Prismal.Events
