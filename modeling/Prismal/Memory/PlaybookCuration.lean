import Prismal.Memory.Playbooks
import Prismal.Lib.Lists

namespace Prismal.Memory
open Prismal.Lib Prismal.Utils
set_option autoImplicit true

/-! What one cycle of curation may do to a playbook. -/

def PlaybookDelta.target (delta : PlaybookDelta) : String := delta.bulletId.getD ""

def PlaybookDelta.Rewrites (delta : PlaybookDelta) : Prop :=
  delta.op = .modify ∨ delta.op = .deprecate

def Trusted (playbook : Playbook) (sources : Dict String MemoryRecord) (rid : String) : Prop :=
  ∃ record, sources.get? rid = some record ∧ record.id = rid ∧
    PlaybookCurator.sharedWith record.scope playbook = true ∧
    record.provenance.tainted = false ∧ record.provenance.trust = .trusted

namespace PlaybookCurator

variable {curator : PlaybookCurator} {playbook : Playbook} {sources : Dict String MemoryRecord}
  {deltas : List PlaybookDelta} {delta : PlaybookDelta}
  {bullets bullets' : Dict String PlaybookBullet}

theorem citable_iff {rid : String} :
    citable playbook sources rid = true ↔ Trusted playbook sources rid := by
  rw [citable, Trusted]
  cases sources.get? rid with
  | none => simp
  | some record => simp [and_assoc]

/-- A delta that puts a text into a playbook: it passes T7, which asks for sources and trusts
each. -/
structure Accepted (curator : PlaybookCurator) (playbook : Playbook)
    (sources : Dict String MemoryRecord) (delta : PlaybookDelta) (text : String) : Prop where
  op : delta.op = .add ∨ delta.op = .modify
  text : delta.text.map curator.clean = some text
  cited : curator.allowUncited = true ∨ delta.sourceRecordIds ≠ []
  trusted : ∀ rid ∈ delta.sourceRecordIds, Trusted playbook sources rid

theorem trusted_of_t7Clean (h : curator.t7Clean delta playbook sources = true) :
    ∀ rid ∈ delta.sourceRecordIds, Trusted playbook sources rid := by
  rw [t7Clean, Bool.and_eq_true, List.all_eq_true] at h
  intro rid hrid
  exact citable_iff.1 (h.2 rid hrid)

theorem accepted_of_t7Clean (h : curator.t7Clean delta playbook sources = true)
    (hop : delta.op = .add ∨ delta.op = .modify)
    (htext : delta.text.map curator.clean = some text) :
    Accepted curator playbook sources delta text where
  op := hop
  text := htext
  cited := by
    have hcited := h
    rw [t7Clean, Bool.and_eq_true] at hcited
    cases hallow : curator.allowUncited with
    | true => exact .inl rfl
    | false =>
      right
      intro hnone
      have huncited := hcited.1
      rw [hnone, hallow] at huncited
      cases hop with
      | inl hadd => simp [hadd] at huncited
      | inr hmodify => simp [hmodify] at huncited
  trusted := trusted_of_t7Clean h

/-! One delta. -/

/-- What an effective delta does to the bullets. -/
inductive Applied (curator : PlaybookCurator) (bullets : Dict String PlaybookBullet)
    (delta : PlaybookDelta) : Dict String PlaybookBullet → Prop
  | added (key : String) (b : PlaybookBullet) (hop : delta.op = .add) (hnew : key ∉ bullets)
      (hid : b.bulletId = key) (htext : delta.text.map curator.clean = some b.text)
      (hsources : b.sourceRecordIds = delta.sourceRecordIds.eraseDups) :
      Applied curator bullets delta (bullets.set key b)
  | deprecated (current : PlaybookBullet) (hop : delta.op = .deprecate)
      (hcurrent : bullets.get? delta.target = some current) :
      Applied curator bullets delta (bullets.erase current.bulletId)
  | voted (current b : PlaybookBullet) (hop : delta.op = .vote)
      (hcurrent : bullets.get? delta.target = some current) (hid : b.bulletId = current.bulletId)
      (htext : b.text = current.text) (hsources : b.sourceRecordIds = current.sourceRecordIds) :
      Applied curator bullets delta (bullets.set current.bulletId b)
  | modified (current b : PlaybookBullet) (hop : delta.op = .modify)
      (hcurrent : bullets.get? delta.target = some current) (hid : b.bulletId = current.bulletId)
      (htext : delta.text.map curator.clean = some b.text)
      (hsources : b.sourceRecordIds =
        (current.sourceRecordIds ++ delta.sourceRecordIds).eraseDups) :
      Applied curator bullets delta (bullets.set current.bulletId b)

theorem text_of_getD (h : ¬ (delta.text.map curator.clean).getD "" = "") :
    delta.text.map curator.clean = some ((delta.text.map curator.clean).getD "") := by
  cases htext : delta.text.map curator.clean with
  | none =>
    rw [htext] at h
    exact absurd rfl h
  | some text => rfl

theorem apply_applied (h : curator.apply bullets delta = some bullets') :
    Applied curator bullets delta bullets' := by
  rw [apply] at h
  dsimp only at h
  split at h
  · next hop =>
    split at h
    · cases h
    · next hnot =>
      rw [not_or] at hnot
      cases h
      exact .added _ _ hop hnot.2 rfl (text_of_getD hnot.1) rfl
  · next hop =>
    obtain ⟨current, hcurrent, h⟩ := Option.bind_eq_some_iff.1 h
    cases h
    exact .deprecated current hop hcurrent
  · next hop =>
    obtain ⟨current, hcurrent, h⟩ := Option.bind_eq_some_iff.1 h
    split at h
    · cases h
      exact .voted current _ hop hcurrent rfl rfl rfl
    · split at h
      · cases h
        exact .voted current _ hop hcurrent rfl rfl rfl
      · cases h
  · next hop =>
    obtain ⟨current, hcurrent, h⟩ := Option.bind_eq_some_iff.1 h
    split at h
    · cases h
    · next hnot =>
      rw [not_or] at hnot
      cases h
      exact .modified current _ hop hcurrent rfl (text_of_getD hnot.1) rfl

/-! A cycle. -/

def mergeStep (curator : PlaybookCurator) (playbook : Playbook)
    (sources : Dict String MemoryRecord) (acc : Dict String PlaybookBullet × Bool)
    (delta : PlaybookDelta) : Dict String PlaybookBullet × Bool :=
  if curator.t7Clean delta playbook sources then
    match curator.apply acc.1 delta with
    | none => acc
    | some bullets => (bullets, true)
  else acc

def startOf (playbook : Playbook) : Dict String PlaybookBullet :=
  Dict.collect (playbook.bullets.map fun b => (b.bulletId, b))

theorem merge_eq : curator.merge playbook sources deltas =
    deltas.foldl (mergeStep curator playbook sources) (startOf playbook, false) := rfl

theorem merge_invariant {P : Dict String PlaybookBullet → Prop} (hstart : P (startOf playbook))
    (hstep : ∀ delta ∈ deltas, curator.t7Clean delta playbook sources = true →
      ∀ bullets bullets', P bullets → Applied curator bullets delta bullets' → P bullets') :
    P (curator.merge playbook sources deltas).1 := by
  have hfold (acc : Dict String PlaybookBullet × Bool) (hacc : P acc.1) :
      P (deltas.foldl (mergeStep curator playbook sources) acc).1 := by
    induction deltas generalizing acc with
    | nil => exact hacc
    | cons delta deltas ih =>
      rw [List.foldl_cons]
      apply ih fun delta' hdelta' => hstep delta' (List.mem_cons_of_mem delta hdelta')
      rw [mergeStep]
      split
      · next hclean =>
        split
        · exact hacc
        · next bullets happly =>
          exact hstep delta List.mem_cons_self hclean acc.1 bullets hacc (apply_applied happly)
      · exact hacc
  rw [merge_eq]
  exact hfold _ hstart

/-- Where the text and the sources of a bullet come from: from the bullet of the same id before the
cycle, and from accepted deltas. -/
structure Grounded (curator : PlaybookCurator) (playbook : Playbook)
    (sources : Dict String MemoryRecord) (deltas : List PlaybookDelta) (b : PlaybookBullet) :
    Prop where
  text : (∃ old ∈ playbook.bullets, old.bulletId = b.bulletId ∧ old.text = b.text ∧
      old.sourceRecordIds = b.sourceRecordIds) ∨
    ∃ delta ∈ deltas, Accepted curator playbook sources delta b.text ∧
      delta.sourceRecordIds ⊆ b.sourceRecordIds
  sources : ∀ rid ∈ b.sourceRecordIds, Trusted playbook sources rid ∨
    ∃ old ∈ playbook.bullets, old.bulletId = b.bulletId ∧ rid ∈ old.sourceRecordIds

structure Curated (curator : PlaybookCurator) (playbook : Playbook)
    (sources : Dict String MemoryRecord) (deltas : List PlaybookDelta)
    (bullets : Dict String PlaybookBullet) : Prop where
  keyed : ∀ key b, bullets.get? key = some b → b.bulletId = key
  grounded : ∀ key b, bullets.get? key = some b → Grounded curator playbook sources deltas b

theorem Curated.set {key : String} {b : PlaybookBullet}
    (h : Curated curator playbook sources deltas bullets) (hid : b.bulletId = key)
    (hb : Grounded curator playbook sources deltas b) :
    Curated curator playbook sources deltas (bullets.set key b) := by
  apply Curated.mk
  · intro key' b' hget
    rw [Dict.get?_set] at hget
    split at hget
    · next heq =>
      cases hget
      exact hid.trans heq
    · exact h.keyed key' b' hget
  · intro key' b' hget
    rw [Dict.get?_set] at hget
    split at hget
    · cases hget
      exact hb
    · exact h.grounded key' b' hget

theorem Grounded.voted {old b : PlaybookBullet}
    (h : Grounded curator playbook sources deltas old) (hid : b.bulletId = old.bulletId)
    (htext : b.text = old.text) (hsources : b.sourceRecordIds = old.sourceRecordIds) :
    Grounded curator playbook sources deltas b where
  text := by
    rw [hid, htext, hsources]
    exact h.text
  sources := by
    rw [hid, hsources]
    exact h.sources

theorem Curated.step (h : Curated curator playbook sources deltas bullets)
    (hmem : delta ∈ deltas) (hclean : curator.t7Clean delta playbook sources = true)
    (happlied : Applied curator bullets delta bullets') :
    Curated curator playbook sources deltas bullets' := by
  have htrusted := trusted_of_t7Clean hclean
  cases happlied with
  | added key b hop hnew hid htext hsources =>
    apply h.set hid
    apply Grounded.mk
    · right
      refine ⟨delta, hmem, accepted_of_t7Clean hclean (.inl hop) htext, ?_⟩
      intro rid hrid
      rw [hsources]
      exact List.mem_eraseDups.2 hrid
    · intro rid hrid
      rw [hsources, List.mem_eraseDups] at hrid
      exact .inl (htrusted rid hrid)
  | deprecated current hop hcurrent =>
    apply Curated.mk
    · intro key b hget
      exact h.keyed key b (Dict.get?_of_get?_erase hget)
    · intro key b hget
      exact h.grounded key b (Dict.get?_of_get?_erase hget)
  | voted current b hop hcurrent hid htext hsources =>
    apply h.set hid
    exact (h.grounded _ current hcurrent).voted hid htext hsources
  | modified current b hop hcurrent hid htext hsources =>
    apply h.set hid
    have hold := h.grounded _ current hcurrent
    apply Grounded.mk
    · right
      refine ⟨delta, hmem, accepted_of_t7Clean hclean (.inr hop) htext, ?_⟩
      intro rid hrid
      rw [hsources]
      exact List.mem_eraseDups.2 (List.mem_append_right _ hrid)
    · intro rid hrid
      rw [hsources, List.mem_eraseDups] at hrid
      rw [hid]
      cases List.mem_append.1 hrid with
      | inl hrid => exact hold.sources rid hrid
      | inr hrid => exact .inl (htrusted rid hrid)

theorem curated_start : Curated curator playbook sources deltas (startOf playbook) := by
  have hold : ∀ key b, (startOf playbook).get? key = some b →
      b.bulletId = key ∧ b ∈ playbook.bullets := by
    intro key b hget
    obtain ⟨old, hmem, heq⟩ := List.mem_map.1 (Dict.mem_of_get?_collect hget)
    cases heq
    exact ⟨rfl, hmem⟩
  apply Curated.mk
  · intro key b hget
    exact (hold key b hget).1
  · intro key b hget
    have hmem := (hold key b hget).2
    exact ⟨.inl ⟨b, hmem, rfl, rfl, rfl⟩, fun rid hrid => .inr ⟨b, hmem, rfl, hrid⟩⟩

theorem curated_merge (curator : PlaybookCurator) (playbook : Playbook)
    (sources : Dict String MemoryRecord) (deltas : List PlaybookDelta) :
    Curated curator playbook sources deltas (curator.merge playbook sources deltas).1 :=
  merge_invariant curated_start fun _ hdelta hclean _ _ h happlied =>
    h.step hdelta hclean happlied

/-! What a cycle keeps. -/

def KeepsText (bullets : Dict String PlaybookBullet) (b : PlaybookBullet) : Prop :=
  ∃ b', bullets.get? b.bulletId = some b' ∧ b'.text = b.text

theorem KeepsText.step {b : PlaybookBullet} (h : KeepsText bullets b)
    (hkeyed : ∀ key b, bullets.get? key = some b → b.bulletId = key)
    (hspared : delta.Rewrites → delta.target ≠ b.bulletId)
    (happlied : Applied curator bullets delta bullets') : KeepsText bullets' b := by
  obtain ⟨b', hget, htext⟩ := h
  cases happlied with
  | added key new hop hnew hid htext' hsources =>
    have hne : key ≠ b.bulletId := fun heq => hnew (heq ▸ Dict.mem_of_get? hget)
    exact ⟨b', (Dict.get?_set_ne bullets hne).trans hget, htext⟩
  | deprecated current hop hcurrent =>
    have hne : current.bulletId ≠ b.bulletId := by
      rw [hkeyed _ current hcurrent]
      exact hspared (.inr hop)
    refine ⟨b', ?_, htext⟩
    rw [Dict.get?_erase, if_neg hne]
    exact hget
  | voted current new hop hcurrent hid htext' hsources =>
    by_cases heq : current.bulletId = b.bulletId
    · have hsame : current = b' := by
        rw [← hkeyed _ current hcurrent, heq, hget] at hcurrent
        exact (Option.some.inj hcurrent).symm
      rw [heq]
      refine ⟨new, Dict.get?_set_self bullets b.bulletId new, ?_⟩
      rw [htext', hsame, htext]
    · exact ⟨b', (Dict.get?_set_ne bullets heq).trans hget, htext⟩
  | modified current new hop hcurrent hid htext' hsources =>
    have hne : current.bulletId ≠ b.bulletId := by
      rw [hkeyed _ current hcurrent]
      exact hspared (.inl hop)
    exact ⟨b', (Dict.get?_set_ne bullets hne).trans hget, htext⟩

theorem keepsText_merge (curator : PlaybookCurator) (sources : Dict String MemoryRecord)
    {b : PlaybookBullet} (hunique : (playbook.bullets.map PlaybookBullet.bulletId).Nodup)
    (hb : b ∈ playbook.bullets) (hspared : ∀ delta ∈ deltas, delta.Rewrites →
      delta.target ≠ b.bulletId) :
    KeepsText (curator.merge playbook sources deltas).1 b := by
  have hboth : (Curated curator playbook sources deltas (curator.merge playbook sources deltas).1) ∧
      KeepsText (curator.merge playbook sources deltas).1 b := by
    apply merge_invariant (P := fun bullets =>
      Curated curator playbook sources deltas bullets ∧ KeepsText bullets b)
    · refine ⟨curated_start, b, ?_, rfl⟩
      apply Dict.get?_collect
      · rw [List.map_map]
        exact hunique
      · exact List.mem_map_of_mem hb
    · intro delta hdelta hclean bullets bullets' h happlied
      exact ⟨h.1.step hdelta hclean happlied,
        h.2.step h.1.keyed (hspared delta hdelta) happlied⟩
  exact hboth.2

def Addressed (playbook : Playbook) (deltas : List PlaybookDelta) : Prop :=
  (∀ b ∈ playbook.bullets, b.bulletId ≠ "") ∨
    ∀ delta ∈ deltas, delta.Rewrites → delta.bulletId ≠ none

def existing (playbook : Playbook) : List String :=
  (playbook.bullets.map PlaybookBullet.bulletId).eraseDups

theorem target_rewritten {b : PlaybookBullet} (haddressed : Addressed playbook deltas)
    (hb : b ∈ playbook.bullets) (hdelta : delta ∈ deltas) (hrewrites : delta.Rewrites)
    (htarget : delta.target = b.bulletId) : b.bulletId ∈ rewritten (existing playbook) deltas := by
  have hexisting : b.bulletId ∈ existing playbook :=
    List.mem_eraseDups.2 (List.mem_map_of_mem hb)
  rw [rewritten, List.mem_eraseDups, List.mem_filterMap]
  refine ⟨delta, hdelta, ?_⟩
  have hop : delta.op = .modify ∨ delta.op = .deprecate := hrewrites
  rw [if_pos hop]
  cases hid : delta.bulletId with
  | none =>
    rw [PlaybookDelta.target, hid] at htarget
    cases haddressed with
    | inl hne => exact absurd htarget.symm (hne b hb)
    | inr hsome => exact absurd hid (hsome delta hdelta hrewrites)
  | some id =>
    rw [PlaybookDelta.target, hid] at htarget
    have heq : id = b.bulletId := htarget
    rw [heq]
    simp [hexisting]

def keptCount (playbook after : Playbook) : Nat :=
  playbook.bullets.countP fun b =>
    after.bullets.any fun b' => decide (b'.bulletId = b.bulletId ∧ b'.text = b.text)

theorem keptCount_merge (curator : PlaybookCurator) (sources : Dict String MemoryRecord)
    (after : Playbook) (hunique : (playbook.bullets.map PlaybookBullet.bulletId).Nodup)
    (haddressed : Addressed playbook deltas)
    (hafter : after.bullets = (curator.merge playbook sources deltas).1.values) :
    playbook.bullets.length ≤
      keptCount playbook after + (rewritten (existing playbook) deltas).length := by
  have hmerged := curated_merge curator playbook sources deltas
  have hcount := countP_mem_le hunique (rewritten (existing playbook) deltas)
  have hkept : playbook.bullets.countP
      (fun b => decide (¬ decide (b.bulletId ∈ rewritten (existing playbook) deltas) = true)) ≤
        keptCount playbook after := by
    apply List.countP_mono_left
    intro b hb hnot
    have hspared := of_decide_eq_true hnot
    obtain ⟨b', hget, htext⟩ := keepsText_merge curator sources hunique hb
      fun delta hdelta hrewrites htarget =>
        hspared (decide_eq_true (target_rewritten haddressed hb hdelta hrewrites htarget))
    rw [List.any_eq_true]
    refine ⟨b', ?_, decide_eq_true ⟨hmerged.keyed _ b' hget, htext⟩⟩
    rw [hafter]
    exact Dict.mem_values.2 ⟨_, hget⟩
  have hsplit := List.length_eq_countP_add_countP
    (fun b => decide (b.bulletId ∈ rewritten (existing playbook) deltas)) (l := playbook.bullets)
  omega

/-- What a cycle that is not refused makes of a playbook. -/
structure Cycle (curator : PlaybookCurator) (playbook : Playbook) (deltas : List PlaybookDelta)
    (sources : Dict String MemoryRecord) (after : Playbook) : Prop where
  version : after = playbook ∨ after.version = playbook.version + 1 ∧
    after.agent = playbook.agent ∧ after.orgId = playbook.orgId
  unique : (after.bullets.map PlaybookBullet.bulletId).Nodup
  grounded : ∀ b ∈ after.bullets, Grounded curator playbook sources deltas b
  kept : Addressed playbook deltas →
    playbook.bullets.length - max 1 (playbook.bullets.length / 2) ≤ keptCount playbook after

theorem unique_values (h : ∀ key b, bullets.get? key = some b → b.bulletId = key) :
    (bullets.values.map PlaybookBullet.bulletId).Nodup := by
  have hkeys : bullets.values.map PlaybookBullet.bulletId = bullets.keys := by
    rw [Dict.values, Dict.keys, List.map_map]
    apply List.map_congr_left
    intro e he
    exact h e.1 e.2 (Dict.get?_eq_some.2 he)
  rw [hkeys]
  exact bullets.nodup

theorem keptCount_self (playbook : Playbook) :
    keptCount playbook playbook = playbook.bullets.length := by
  rw [keptCount, List.countP_eq_length]
  intro b hb
  rw [List.any_eq_true]
  exact ⟨b, hb, decide_eq_true ⟨rfl, rfl⟩⟩

/-- A cycle is refused for too many deltas or too many rewritten bullets; otherwise it keeps the
text of half of the bullets at least, and what it adds comes from trusted records. -/
theorem curate_cycle (curator : PlaybookCurator) (settings : PlaybookSettings) (now : Rat)
    (playbook : Playbook) (deltas : List PlaybookDelta) (sources : Dict String MemoryRecord)
    (hunique : (playbook.bullets.map PlaybookBullet.bulletId).Nodup) :
    (∀ after, curator.curate settings now playbook deltas sources = .ok after →
      Cycle curator playbook deltas sources after) ∧
    ((∃ error, curator.curate settings now playbook deltas sources = .error error) ↔
      settings.maxDeltas < deltas.length ∨
        max 1 ((existing playbook).length / 2) <
          (rewritten (existing playbook) deltas).length) := by
  have hexisting : existing playbook = (playbook.bullets.map PlaybookBullet.bulletId).eraseDups :=
    rfl
  rw [curate]
  dsimp only
  rw [← hexisting]
  split
  · next hmany =>
    apply And.intro
    · intro after h
      cases h
    · exact iff_of_true ⟨_, rfl⟩ (.inl hmany)
  · next hfew =>
    split
    · next hrewrites =>
      apply And.intro
      · intro after h
        cases h
      · exact iff_of_true ⟨_, rfl⟩ (.inr hrewrites)
    · next hspares =>
      have hlength : (existing playbook).length ≤ playbook.bullets.length := by
        rw [hexisting, ← List.length_map PlaybookBullet.bulletId]
        exact length_eraseDups_le _
      have hmerged := curated_merge curator playbook sources deltas
      apply And.intro
      · intro after h
        split at h
        · cases h
          apply Cycle.mk
          · exact .inr ⟨rfl, rfl, rfl⟩
          · exact unique_values hmerged.keyed
          · intro b hb
            obtain ⟨key, hget⟩ := Dict.mem_values.1 hb
            exact hmerged.grounded key b hget
          · intro haddressed
            have hkept := keptCount_merge curator sources
              { playbook with
                version := playbook.version + 1
                bullets := (curator.merge playbook sources deltas).1.values
                updatedAt := now }
              hunique haddressed rfl
            omega
        · cases h
          apply Cycle.mk
          · exact .inl rfl
          · exact hunique
          · intro b hb
            exact ⟨.inl ⟨b, hb, rfl, rfl, rfl⟩, fun rid hrid => .inr ⟨b, hb, rfl, hrid⟩⟩
          · intro _
            rw [keptCount_self]
            omega
      · apply iff_of_false
        · intro ⟨error, h⟩
          split at h <;> cases h
        · rw [not_or]
          exact ⟨hfew, hspares⟩

def plainCurator : PlaybookCurator where
  nfkc text := text
  sha256 text := text

def oneBullet : Playbook where
  agent := "coder"
  orgId := "initech"
  version := 3
  bullets :=
    [{ bulletId := "b-1", section' := "general", text := "Test", sourceRecordIds := ["gone"] }]
  updatedAt := 0

def trustedRecord : MemoryRecord where
  id := "r"
  type := .episodic
  content := "Test first"
  scope := { orgId := "initech", nonEmpty := by decide }
  provenance :=
    { origin := .human
      sourceMessageIds := []
      sessionId := none
      agent := none
      createdAt := 0
      tainted := false
      trust := .trusted }
  confidence := 1

def trustedSources : Dict String MemoryRecord :=
  (∅ : Dict String MemoryRecord).set "r" trustedRecord

def sharpen : PlaybookDelta :=
  { op := .modify, bulletId := some "b-1", section' := "general", text := some "Test first",
    rationale := "", sourceRecordIds := ["r"] }

def sharpened : PlaybookBullet :=
  { bulletId := "b-1", section' := "general", text := "Test first",
    sourceRecordIds := ["gone", "r"] }

/-- A modified bullet still gives the record that is gone for a source. -/
theorem sharpen_keeps_source : ∃ after b, plainCurator.curate {} 1 oneBullet [sharpen]
      trustedSources = .ok after ∧ b ∈ after.bullets ∧ b.text = "Test first" ∧
    "gone" ∈ b.sourceRecordIds ∧ ¬ Trusted oneBullet trustedSources "gone" := by
  refine ⟨_, sharpened, rfl, by decide, rfl, by decide, ?_⟩
  rw [← citable_iff]
  decide

theorem sharpen_cycle : ∃ after, plainCurator.curate {} 1 oneBullet [sharpen] trustedSources =
      .ok after ∧ Cycle plainCurator oneBullet [sharpen] trustedSources after :=
  ⟨_, rfl, (curate_cycle plainCurator {} 1 oneBullet [sharpen] trustedSources
    (by decide)).1 _ rfl⟩

end PlaybookCurator

end Prismal.Memory
