import Prismal.Composition.HostSurface
import Prismal.Lib.HashChain
import Prismal.Lib.Lists

namespace Prismal.Composition
open Prismal.Lib Prismal.Lib.Json
set_option autoImplicit true

/-! What the last hash of a log says of the entries before. -/

variable {loads : Loads} {sha256 : Sha256} {prev h : String} {t u : Tree}
  {es fs : List (String × Tree)} {rs : List (Option (List Char))} {seq : Nat}
  {a b : List Char} {s : AuditChainStatus}

theorem isText_iff : isText h t = true ↔ t = .str h := by
  cases t with
  | str s =>
    rw [isText, beq_iff_eq]
    constructor
    · intro heq
      rw [heq]
    · intro heq
      exact Tree.str.inj heq
  | null => exact iff_of_false Bool.false_ne_true nofun
  | bool b => exact iff_of_false Bool.false_ne_true nofun
  | num s => exact iff_of_false Bool.false_ne_true nofun
  | arr xs => exact iff_of_false Bool.false_ne_true nofun
  | obj es => exact iff_of_false Bool.false_ne_true nofun

structure Linked (sha256 : Sha256) (prev : String) (es : List (String × Tree)) : Prop where
  stored : Dict.lookup "entry_hash" es = some (.str (entryDigest sha256 es))
  linked : Dict.lookup "prev_hash" (withoutHash es) = some (.str prev)

theorem chainHash_eq_some : chainHash sha256 prev t = some h ↔
    ∃ es, t = .obj es ∧ Linked sha256 prev es ∧ entryDigest sha256 es = h := by
  cases t with
  | obj es =>
    rw [chainHash]
    cases hstored : Dict.lookup "entry_hash" es with
    | none =>
      apply iff_of_false (fun h => by cases h)
      rintro ⟨_, ⟨⟩, hlinked, -⟩
      rw [hlinked.stored] at hstored
      cases hstored
    | some stored =>
      dsimp only
      constructor
      · intro hif
        split at hif
        · next hok =>
          rw [Bool.and_eq_true, Option.any_eq_true, isText_iff] at hok
          obtain ⟨⟨p, hp, hprev⟩, rfl⟩ := hok
          rw [isText_iff] at hprev
          subst hprev
          exact ⟨es, rfl, ⟨hstored, hp⟩, Option.some.inj hif⟩
        · cases hif
      · rintro ⟨_, ⟨⟩, hlinked, rfl⟩
        have hsame : stored = .str (entryDigest sha256 es) :=
          Option.some.inj (hstored.symm.trans hlinked.stored)
        apply if_pos
        rw [hlinked.linked, Bool.and_eq_true, hsame]
        exact ⟨isText_iff.2 rfl, isText_iff.2 rfl⟩
  | null => exact ⟨fun h => (by cases h), fun h => (by obtain ⟨_, h, _⟩ := h; cases h)⟩
  | bool b => exact ⟨fun h => (by cases h), fun h => (by obtain ⟨_, h, _⟩ := h; cases h)⟩
  | num s => exact ⟨fun h => (by cases h), fun h => (by obtain ⟨_, h, _⟩ := h; cases h)⟩
  | str s => exact ⟨fun h => (by cases h), fun h => (by obtain ⟨_, h, _⟩ := h; cases h)⟩
  | arr xs => exact ⟨fun h => (by cases h), fun h => (by obtain ⟨_, h, _⟩ := h; cases h)⟩

theorem wellFormed_withoutHash (h : wellFormed (.obj es) = true) :
    wellFormed (.obj (withoutHash es)) = true := by
  rw [wellFormed, Bool.and_eq_true, decide_eq_true_eq] at h ⊢
  refine ⟨h.1.sublist ((List.filter_sublist).map Prod.fst), ?_⟩
  rw [wellFormedEntries_iff] at h ⊢
  exact fun e he => h.2 e (List.mem_of_mem_filter he)

theorem length_withoutHash (hn : (es.map Prod.fst).Nodup) (hmem : "entry_hash" ∈ es.map Prod.fst) :
    es.length = (withoutHash es).length + 1 := by
  have hperm := (Dict.perm_keys_erase (d := ⟨es, hn⟩) hmem).length_eq
  rw [Dict.keys, List.length_map, List.length_cons, Dict.keys, List.length_map] at hperm
  exact hperm

theorem Linked.mem_key (hl : Linked sha256 prev es) : "entry_hash" ∈ es.map Prod.fst := by
  by_contra hnot
  have hstored := hl.stored
  rw [Dict.lookup_eq_none.2 hnot] at hstored
  cases hstored

theorem Linked.determined {q : String} (hinj : Function.Injective sha256)
    (hes : Linked sha256 prev es) (hfs : Linked sha256 q fs) (he : wellFormed (.obj es) = true)
    (hf : wellFormed (.obj fs) = true) (hhash : entryDigest sha256 es = entryDigest sha256 fs) :
    prev = q ∧ Same (.obj es) (.obj fs) := by
  have hsame := same_of_write (wellFormed_withoutHash he) (wellFormed_withoutHash hf) (hinj hhash)
  rw [wellFormed, Bool.and_eq_true, decide_eq_true_eq] at he hf
  rw [Same, sameEntries_iff] at hsame
  obtain ⟨hlen, hentries⟩ := hsame
  have hkeep : ((withoutHash fs).map Prod.fst).Nodup :=
    hf.1.sublist ((List.filter_sublist).map Prod.fst)
  constructor
  · have hmem := (Dict.lookup_eq_some (he.1.sublist ((List.filter_sublist).map Prod.fst))).1
      hes.linked
    obtain ⟨w, hw, hprev⟩ := hentries _ hmem
    cases w with
    | str r =>
      have hfound := (Dict.lookup_eq_some hkeep).2 hw
      rw [hfs.linked] at hfound
      exact hprev.trans (Tree.str.inj (Option.some.inj hfound)).symm
    | null => cases hprev
    | bool b => cases hprev
    | num r => cases hprev
    | arr xs => cases hprev
    | obj es => cases hprev
  · rw [Same, sameEntries_iff, length_withoutHash he.1 hes.mem_key,
      length_withoutHash hf.1 hfs.mem_key, hlen]
    refine ⟨rfl, ?_⟩
    intro e hmem
    by_cases hkey : e.1 = "entry_hash"
    · have hvalue : e.2 = .str (entryDigest sha256 es) := by
        have hfound := (Dict.lookup_eq_some he.1).2 hmem
        rw [hkey, hes.stored] at hfound
        exact (Option.some.inj hfound).symm
      refine ⟨.str (entryDigest sha256 fs), ?_, ?_⟩
      · rw [hkey]
        exact (Dict.lookup_eq_some hf.1).1 hfs.stored
      · rw [hvalue, hhash]
        exact rfl
    · obtain ⟨w, hw, hsame⟩ := hentries e
        (List.mem_filter.2 ⟨hmem, by rw [decide_eq_false hkey]; rfl⟩)
      exact ⟨w, List.mem_of_mem_filter hw, hsame⟩

abbrev linkOf (sha256 : Sha256) (prev : String) (d : Loaded) : Option String :=
  chainHash sha256 prev d.tree

theorem link_determined (hinj : Function.Injective sha256) (p q : String) (d e : Loaded)
    (h : String) (hd : linkOf sha256 p d = some h) (he : linkOf sha256 q e = some h) :
    p = q ∧ Same d.tree e.tree := by
  obtain ⟨es, hes, hlinked, hhash⟩ := chainHash_eq_some.1 hd
  obtain ⟨fs, hfs, hlinked', hhash'⟩ := chainHash_eq_some.1 he
  have hd := d.sound
  have he := e.sound
  rw [hes] at hd ⊢
  rw [hfs] at he ⊢
  exact hlinked.determined hinj hlinked' hd he (hhash.trans hhash'.symm)

/-- What `_verify_stream` says of the records. -/
inductive Verdict (loads : Loads) (sha256 : Sha256) (prev : String) (seq : Nat)
    (rs : List (Option (List Char))) : Except ReadError AuditChainStatus → Prop where
  | valid (last : String) (h : Chained (linkOf sha256) prev
      (rs.filterMap fun r => r.bind fun line => (loads line).toOption) last) :
      Verdict loads sha256 prev seq rs (.ok ⟨.valid, seq + rs.length, none⟩)
  | broken (n : Nat) : Verdict loads sha256 prev seq rs (.ok ⟨.broken, n, some n⟩)
  | unverified (h : none ∈ rs) : Verdict loads sha256 prev seq rs (.ok unverified)
  | raised (line : List Char) (hline : some line ∈ rs) (h : loads line = .error .recursion) :
      Verdict loads sha256 prev seq rs (.error .recursion)

theorem verdict (loads : Loads) (sha256 : Sha256) (prev : String) (seq : Nat)
    (rs : List (Option (List Char))) :
    Verdict loads sha256 prev seq rs (verifyStream loads sha256 prev seq rs) := by
  induction rs generalizing prev seq with
  | nil => exact Verdict.valid prev rfl
  | cons r rs ih =>
    cases r with
    | none => exact Verdict.unverified List.mem_cons_self
    | some line =>
      rw [verifyStream]
      split
      · next hload => exact Verdict.raised line List.mem_cons_self hload
      · exact Verdict.broken (seq + 1)
      · next entry hload =>
        split
        · exact Verdict.broken (seq + 1)
        · next stored hstored =>
          have hrest := ih stored (seq + 1)
          generalize verifyStream loads sha256 stored (seq + 1) rs = result at hrest ⊢
          cases hrest with
          | valid last h =>
            have hlen : seq + 1 + rs.length = seq + (some line :: rs).length := by
              rw [List.length_cons]
              omega
            rw [hlen]
            apply Verdict.valid last
            rw [List.filterMap_cons_some (b := entry) (by rw [Option.bind_some, hload]; rfl)]
            exact ⟨stored, hstored, h⟩
          | broken n => exact Verdict.broken n
          | unverified h => exact Verdict.unverified (List.mem_cons_of_mem _ h)
          | raised line' hline h => exact Verdict.raised line' (List.mem_cons_of_mem _ hline) h

def lastHash (loads : Loads) (cs : List Char) : Option Tree :=
  (entriesOf loads cs).getLast?.bind fun d =>
    match d.tree with
    | .obj es => Dict.lookup "entry_hash" es
    | _ => none

theorem chained_of_valid {cap : Option Int} {n : Nat}
    (h : verifyAuditChain loads sha256 (.text a) cap = .ok ⟨.valid, n, none⟩) :
    ∃ last, Chained (linkOf sha256) genesisHash (entriesOf loads a) last := by
  rw [verifyAuditChain] at h
  split at h
  · cases h
  · have hverdict := verdict loads sha256 genesisHash 0 (iterRecords a)
    rw [h] at hverdict
    cases hverdict with
    | valid last hchain => exact ⟨last, hchain⟩

theorem lastHash_of_chained {last : String}
    (h : Chained (linkOf sha256) genesisHash (entriesOf loads a) last) :
    (entriesOf loads a = [] ∧ last = genesisHash ∧ lastHash loads a = none) ∨
      lastHash loads a = some (.str last) := by
  cases hlist : entriesOf loads a using List.reverseRecOn with
  | nil =>
    rw [hlist] at h
    left
    refine ⟨rfl, h.symm, ?_⟩
    rw [lastHash, hlist]
    rfl
  | append_singleton ds d =>
    rw [hlist] at h
    obtain ⟨m, -, hlink⟩ := chained_concat.1 h
    obtain ⟨es, hes, hlinked, rfl⟩ := chainHash_eq_some.1 hlink
    right
    rw [lastHash, hlist, List.getLast?_concat, Option.bind_some, hes]
    exact hlinked.stored

def NoGenesis (loads : Loads) (sha256 : Sha256) (a b : List Char) : Prop :=
  ∀ d ∈ entriesOf loads a ++ entriesOf loads b, ∀ es, d.tree = .obj es →
    entryDigest sha256 es ≠ genesisHash

/-- A valid log determines the entries of every valid log with its last hash; a log with other
entries before that hash is reported as broken. -/
theorem audit_tamper_evident (hinj : Function.Injective sha256)
    (hgenesis : NoGenesis loads sha256 a b) {capA capB : Option Int} {n : Nat}
    (ha : verifyAuditChain loads sha256 (.text a) capA = .ok ⟨.valid, n, none⟩)
    (hlast : lastHash loads a = lastHash loads b) :
    (∀ m, verifyAuditChain loads sha256 (.text b) capB = .ok ⟨.valid, m, none⟩ →
      List.Forall₂ (fun d e => Same d.tree e.tree) (entriesOf loads a) (entriesOf loads b)) ∧
    (¬ List.Forall₂ (fun d e => Same d.tree e.tree) (entriesOf loads a) (entriesOf loads b) →
      (iterRecords b).length ≤ scanCap capB →
        (∀ r ∈ iterRecords b, ∃ line, r = some line ∧ loads line ≠ .error .recursion) →
          ∃ m, verifyAuditChain loads sha256 (.text b) capB = .ok ⟨.broken, m, some m⟩) := by
  have hsame : ∀ m, verifyAuditChain loads sha256 (.text b) capB = .ok ⟨.valid, m, none⟩ →
      List.Forall₂ (fun d e => Same d.tree e.tree) (entriesOf loads a) (entriesOf loads b) := by
    intro m hb
    obtain ⟨last, hchain⟩ := chained_of_valid ha
    obtain ⟨last', hchain'⟩ := chained_of_valid hb
    have heq : last = last' := by
      rcases lastHash_of_chained hchain with ⟨-, hstart, hnone⟩ | hsome
      · rcases lastHash_of_chained hchain' with ⟨-, hstart', -⟩ | hsome'
        · rw [hstart, hstart']
        · rw [hnone, hsome'] at hlast
          cases hlast
      · rcases lastHash_of_chained hchain' with ⟨-, -, hnone'⟩ | hsome'
        · rw [hsome, hnone'] at hlast
          cases hlast
        · rw [hsome, hsome'] at hlast
          exact Tree.str.inj (Option.some.inj hlast)
    subst heq
    apply Chained.determined (link_determined hinj) _ hchain hchain'
    intro p d hd hlink
    obtain ⟨es, hes, -, hhash⟩ := chainHash_eq_some.1 hlink
    exact hgenesis d hd es hes hhash
  refine ⟨hsame, ?_⟩
  intro hdiffer hcap hread
  have hverdict := verdict loads sha256 genesisHash 0 (iterRecords b)
  have hverify : verifyAuditChain loads sha256 (.text b) capB =
      verifyStream loads sha256 genesisHash 0 (iterRecords b) := if_neg (not_lt.2 hcap)
  rw [← hverify] at hverdict
  generalize hresult : verifyAuditChain loads sha256 (.text b) capB = result at hverdict ⊢
  cases hverdict with
  | valid last h => exact absurd (hsame _ hresult) hdiffer
  | broken m => exact ⟨m, rfl⟩
  | unverified h =>
    obtain ⟨line, hline, -⟩ := hread none h
    cases hline
  | raised line hline h =>
    obtain ⟨line', hline', hload⟩ := hread _ hline
    cases hline'
    exact absurd h hload

/-! A log of two entries. -/

def bootEntry : List (String × Tree) := [("event", .str "boot"), ("prev_hash", .str genesisHash)]

def loginEntry (prev : String) : List (String × Tree) :=
  [("event", .str "login"), ("prev_hash", .str prev)]

/-- A hash without collisions, which gives the first entry the hash `first`. -/
def hashFrom (first : String) : Sha256 := fun text =>
  if text = write (canon (.obj bootEntry)) then first
  else if text = write (canon (.obj (loginEntry first))) then "c"
  else String.ofList ('x' :: text)

theorem ofList_ne {first : String} (hx : first.toList.head? ≠ some 'x') (text : List Char) :
    String.ofList ('x' :: text) ≠ first := by
  rintro rfl
  rw [String.toList_ofList] at hx
  exact hx rfl

theorem hashFrom_injective {first : String} (hne : first ≠ "c")
    (hhead : first.toList.head? ≠ some 'x') : Function.Injective (hashFrom first) := by
  have hx := ofList_ne hhead
  have hc : ∀ text, String.ofList ('x' :: text) ≠ "c" := ofList_ne (by decide)
  intro s t h
  rw [hashFrom, hashFrom] at h
  split at h
  · next hs =>
    split at h
    · next ht => rw [hs, ht]
    · split at h
      · exact absurd h hne
      · exact absurd h.symm (hx t)
  · split at h
    · next hs =>
      split at h
      · exact absurd h.symm hne
      · split at h
        · next ht => rw [hs, ht]
        · exact absurd h.symm (hc t)
    · split at h
      · exact absurd h (hx s)
      · split at h
        · exact absurd h (hc s)
        · exact List.tail_eq_of_cons_eq (String.ofList_injective h)

def sealed (entry : List (String × Tree)) (hash : String) : Tree :=
  .obj (entry ++ [("entry_hash", .str hash)])

def lineOf (t : Tree) : List Char := write t ++ ['\n']

/-- `json.loads` on the lines of the log. -/
def loadsLog (first : String) : Loads := fun line =>
  if line = lineOf (sealed bootEntry first) then .ok ⟨sealed bootEntry first, rfl⟩
  else if line = lineOf (sealed (loginEntry first) "c") then
    .ok ⟨sealed (loginEntry first) "c", rfl⟩
  else .error .value

theorem loadsLog_ne (first : String) (line : List Char) :
    loadsLog first line ≠ .error .recursion := by
  rw [loadsLog]
  split
  · nofun
  · split <;> nofun

def loginLine (first : String) : List Char := lineOf (sealed (loginEntry first) "c")

def bootLog (first : String) : List Char := lineOf (sealed bootEntry first) ++ loginLine first

theorem lastHash_eq (hany : (lastHash loads a).any (isText h) = true) :
    lastHash loads a = some (.str h) := by
  rw [Option.any_eq_true] at hany
  obtain ⟨t, ht, htext⟩ := hany
  rw [ht, isText_iff.1 htext]

/-- The log without its first entry is broken. -/
theorem audit_tamper_evident_boot :
    ∃ m, verifyAuditChain (loadsLog "b") (hashFrom "b") (.text (loginLine "b")) =
      .ok ⟨.broken, m, some m⟩ := by
  have hruns : verifyAuditChain (loadsLog "b") (hashFrom "b") (.text (bootLog "b")) =
        .ok ⟨.valid, 2, none⟩ ∧
      (lastHash (loadsLog "b") (bootLog "b")).any (isText "c") = true ∧
      (lastHash (loadsLog "b") (loginLine "b")).any (isText "c") = true ∧
      (entriesOf (loadsLog "b") (bootLog "b")).length ≠
        (entriesOf (loadsLog "b") (loginLine "b")).length := by
    decide +kernel
  obtain ⟨hvalid, hlast, hlast', hlen⟩ := hruns
  have hgenesis : NoGenesis (loadsLog "b") (hashFrom "b") (bootLog "b") (loginLine "b") := by
    intro d _ es _
    rw [entryDigest, hashFrom]
    split
    · decide
    · split
      · decide
      · exact ofList_ne (by decide) _
  have hsame : lastHash (loadsLog "b") (bootLog "b") = lastHash (loadsLog "b") (loginLine "b") := by
    rw [lastHash_eq hlast, lastHash_eq hlast']
  have hrecords : iterRecords (loginLine "b") = [some (loginLine "b")] := by rfl
  apply (audit_tamper_evident (hashFrom_injective (by decide) (by decide)) hgenesis hvalid hsame).2
  · intro hsame
    exact hlen hsame.length_eq
  · decide +kernel
  · intro r hr
    rw [hrecords] at hr
    exact ⟨_, List.mem_singleton.1 hr, loadsLog_ne "b" _⟩

/-- An entry whose hash is the one that a chain starts with can be taken from the start of a log. -/
theorem audit_tamper_genesis :
    Function.Injective (hashFrom genesisHash) ∧
      verifyAuditChain (loadsLog genesisHash) (hashFrom genesisHash)
        (.text (bootLog genesisHash)) = .ok ⟨.valid, 2, none⟩ ∧
      verifyAuditChain (loadsLog genesisHash) (hashFrom genesisHash)
        (.text (loginLine genesisHash)) = .ok ⟨.valid, 1, none⟩ ∧
      lastHash (loadsLog genesisHash) (bootLog genesisHash) =
        lastHash (loadsLog genesisHash) (loginLine genesisHash) ∧
      (entriesOf (loadsLog genesisHash) (bootLog genesisHash)).length ≠
        (entriesOf (loadsLog genesisHash) (loginLine genesisHash)).length := by
  have hruns : verifyAuditChain (loadsLog genesisHash) (hashFrom genesisHash)
        (.text (bootLog genesisHash)) = .ok ⟨.valid, 2, none⟩ ∧
      verifyAuditChain (loadsLog genesisHash) (hashFrom genesisHash)
        (.text (loginLine genesisHash)) = .ok ⟨.valid, 1, none⟩ ∧
      (lastHash (loadsLog genesisHash) (bootLog genesisHash)).any (isText "c") = true ∧
      (lastHash (loadsLog genesisHash) (loginLine genesisHash)).any (isText "c") = true ∧
      (entriesOf (loadsLog genesisHash) (bootLog genesisHash)).length ≠
        (entriesOf (loadsLog genesisHash) (loginLine genesisHash)).length := by
    decide +kernel
  obtain ⟨hboot, hlogin, hlast, hlast', hlen⟩ := hruns
  refine ⟨hashFrom_injective (by decide) (by decide), hboot, hlogin, ?_, hlen⟩
  rw [lastHash_eq hlast, lastHash_eq hlast']

end Prismal.Composition

namespace Prismal.Composition
open Prismal.Lib Prismal.Lib.Json
set_option autoImplicit true

/-! The pages of the log, put together. -/

namespace Reader

variable {R : Reader} {orgId : Option String} {cutoff : Option Rat} {skip maxlen seq : Nat}
  {r : Option (List Char)} {rs : List (Option (List Char))}
  {kept : List (Nat × List (String × Tree))}

def shown (R : Reader) (orgId : Option String) (cutoff : Option Rat) (skip : Nat)
    (record : Option (List Char) × Nat) : Option (Nat × List (String × Tree)) :=
  if record.2 ≤ skip then none
  else
    match record.1.map R.loads with
    | some (.ok loaded) =>
      match loaded.tree with
      | .obj entry => if R.selects orgId cutoff entry then some (record.2, entry) else none
      | _ => none
    | _ => none

def visible (R : Reader) (orgId : Option String) (cutoff : Option Rat) (skip seq : Nat)
    (rs : List (Option (List Char))) : List (Nat × List (String × Tree)) :=
  (rs.zipIdx seq).filterMap (R.shown orgId cutoff skip)

def Loadable (R : Reader) (skip seq : Nat) (rs : List (Option (List Char))) : Prop :=
  ∀ line n, (some line, n) ∈ rs.zipIdx seq → skip < n → R.loads line ≠ .error .recursion

theorem visible_cons (R : Reader) (orgId : Option String) (cutoff : Option Rat) (skip seq : Nat)
    (r : Option (List Char)) (rs : List (Option (List Char))) :
    R.visible orgId cutoff skip seq (r :: rs) =
      (R.shown orgId cutoff skip (r, seq)).toList ++ R.visible orgId cutoff skip (seq + 1) rs := by
  rw [visible, List.zipIdx_cons, List.filterMap_cons]
  cases R.shown orgId cutoff skip (r, seq) with
  | none => rfl
  | some e => rfl

theorem scan_cons (hload : Loadable R skip seq (r :: rs)) (matched : Nat) :
    R.scan orgId cutoff skip maxlen seq matched kept (r :: rs) =
      match R.shown orgId cutoff skip (r, seq) with
      | none => R.scan orgId cutoff skip maxlen (seq + 1) matched kept rs
      | some e =>
        R.scan orgId cutoff skip maxlen (seq + 1) (matched + 1) (pushBounded maxlen kept e) rs := by
  cases r with
  | none =>
    have hnone : R.shown orgId cutoff skip (none, seq) = none := by
      rw [shown]
      split <;> rfl
    rw [hnone, scan]
  | some line =>
    rw [scan, shown]
    by_cases hskip : seq ≤ skip
    · rw [if_pos hskip, if_pos hskip]
    · have hline := hload line seq (by simp) (Nat.lt_of_not_le hskip)
      rw [if_neg hskip, if_neg hskip, Option.map_some]
      cases hread : R.loads line with
      | error e =>
        cases e with
        | value => rfl
        | recursion => exact absurd hread hline
      | ok loaded =>
        dsimp only
        cases loaded.tree with
        | obj entry =>
          dsimp only
          cases R.selects orgId cutoff entry with
          | true => rfl
          | false => rfl
        | null => rfl
        | bool b => rfl
        | num t => rfl
        | str t => rfl
        | arr xs => rfl

theorem pushBounded_drop (l : List α) (a : α) :
    pushBounded maxlen (l.drop (l.length - maxlen)) a =
      (l ++ [a]).drop ((l ++ [a]).length - maxlen) := by
  have hconcat : l.drop (l.length - maxlen) ++ [a] = (l ++ [a]).drop (l.length - maxlen) :=
    (List.drop_append_of_le_length (Nat.sub_le _ _)).symm
  rw [pushBounded, hconcat, List.drop_drop, List.length_drop, List.length_append,
    List.length_singleton]
  congr 1
  omega

theorem scan_eq (orgId : Option String) (cutoff : Option Rat) (maxlen : Nat)
    (hload : Loadable R skip seq rs) (seen : List (Nat × List (String × Tree))) :
    R.scan orgId cutoff skip maxlen seq seen.length (seen.drop (seen.length - maxlen)) rs =
      .ok ((seen ++ R.visible orgId cutoff skip seq rs).length,
        (seen ++ R.visible orgId cutoff skip seq rs).drop
          ((seen ++ R.visible orgId cutoff skip seq rs).length - maxlen)) := by
  induction rs generalizing seq seen with
  | nil =>
    rw [scan, visible, List.zipIdx_nil, List.filterMap_nil, List.append_nil]
  | cons r rs ih =>
    have hrest : Loadable R skip (seq + 1) rs := by
      intro line n hmem
      exact hload line n (by rw [List.zipIdx_cons]; exact List.mem_cons_of_mem _ hmem)
    rw [scan_cons hload, visible_cons]
    cases R.shown orgId cutoff skip (r, seq) with
    | none => exact ih hrest seen
    | some e =>
      dsimp only [Option.toList_some]
      rw [pushBounded_drop, ← List.append_assoc]
      have hlen : seen.length + 1 = (seen ++ [e]).length := by
        rw [List.length_append, List.length_singleton]
      rw [hlen]
      exact ih hrest (seen ++ [e])

/-- A record that the pages show: it lies in the window and is an entry that is selected. -/
structure IsShown (R : Reader) (orgId : Option String) (cutoff : Option Rat) (skip : Nat)
    (rs : List (Option (List Char))) (n : Nat) (entry : List (String × Tree)) : Prop where
  inWindow : skip < n
  record : ∃ line loaded, rs[n - 1]? = some (some line) ∧ R.loads line = .ok loaded ∧
    loaded.tree = .obj entry
  selected : R.selects orgId cutoff entry = true

theorem shown_eq_some {record : Option (List Char)} {n m : Nat} {entry : List (String × Tree)} :
    R.shown orgId cutoff skip (record, n) = some (m, entry) ↔ n = m ∧ skip < n ∧
      (∃ line loaded, record = some line ∧ R.loads line = .ok loaded ∧
        loaded.tree = .obj entry) ∧ R.selects orgId cutoff entry = true := by
  constructor
  · intro h
    rw [shown] at h
    split at h
    · cases h
    · next hskip =>
      split at h
      · next loaded hrecord =>
        split at h
        · next es htree =>
          split at h
          · next hselect =>
            cases h
            obtain ⟨line, rfl, hload⟩ := Option.map_eq_some_iff.1 hrecord
            exact ⟨rfl, Nat.lt_of_not_le hskip, ⟨line, loaded, rfl, hload, htree⟩, hselect⟩
          · cases h
        · cases h
      · cases h
  · rintro ⟨rfl, hskip, ⟨line, loaded, rfl, hload, htree⟩, hselect⟩
    rw [shown, if_neg (Nat.not_le.2 hskip), Option.map_some, hload]
    dsimp only
    rw [htree]
    exact if_pos hselect

theorem mem_visible {n : Nat} {entry : List (String × Tree)} :
    (n, entry) ∈ R.visible orgId cutoff skip 1 rs ↔ IsShown R orgId cutoff skip rs n entry := by
  rw [visible, List.mem_filterMap]
  constructor
  · rintro ⟨⟨record, m⟩, hmem, hshown⟩
    obtain ⟨rfl, hskip, ⟨line, loaded, rfl, hload⟩, hselect⟩ := shown_eq_some.1 hshown
    obtain ⟨-, hget⟩ := List.mk_mem_zipIdx_iff_le_and_getElem?_sub.1 hmem
    exact ⟨hskip, ⟨line, loaded, hget, hload⟩, hselect⟩
  · rintro ⟨hskip, ⟨line, loaded, hget, hload⟩, hselect⟩
    refine ⟨(some line, n), ?_, shown_eq_some.2 ⟨rfl, hskip, ⟨line, loaded, rfl, hload⟩, hselect⟩⟩
    exact List.mk_mem_zipIdx_iff_le_and_getElem?_sub.2 ⟨by omega, hget⟩

theorem visible_sorted (R : Reader) (orgId : Option String) (cutoff : Option Rat) (skip seq : Nat)
    (rs : List (Option (List Char))) :
    ((R.visible orgId cutoff skip seq rs).map Prod.fst).Pairwise (· < ·) := by
  have hsub : ((R.visible orgId cutoff skip seq rs).map Prod.fst).Sublist
      ((rs.zipIdx seq).map Prod.snd) := by
    apply map_filterMap_sublist
    rintro ⟨record, n⟩ ⟨m, entry⟩ hshown
    exact (shown_eq_some.1 hshown).1.symm
  rw [List.zipIdx_map_snd] at hsub
  exact List.Pairwise.sublist hsub List.pairwise_lt_range'

theorem visible_length (R : Reader) (orgId : Option String) (cutoff : Option Rat) (cap : Nat)
    (rs : List (Option (List Char))) :
    (R.visible orgId cutoff (rs.length - cap) 1 rs).length ≤ cap := by
  have hsplit : rs.take (rs.length - cap) ++ rs.drop (rs.length - cap) = rs :=
    List.take_append_drop _ rs
  have hold : ((rs.take (rs.length - cap)).zipIdx 1).filterMap
      (R.shown orgId cutoff (rs.length - cap)) = [] := by
    apply List.filterMap_eq_nil_iff.2
    rintro ⟨record, n⟩ hmem
    have hle := List.snd_lt_add_of_mem_zipIdx hmem
    rw [List.length_take] at hle
    rw [shown, if_pos (by omega)]
  have hzip : rs.zipIdx 1 = (rs.take (rs.length - cap)).zipIdx 1 ++
      (rs.drop (rs.length - cap)).zipIdx (1 + (rs.take (rs.length - cap)).length) := by
    rw [← List.zipIdx_append, hsplit]
  rw [visible, hzip, List.filterMap_append, hold, List.nil_append]
  refine le_trans (List.length_filterMap_le _ _) ?_
  rw [List.length_zipIdx, List.length_drop]
  omega

theorem auditPage_eq (orgId : Option String) (cutoff : Option Rat) (text : List Char) (page : Nat)
    (pageSize : Int) (maxRecords : Option Int) (hpage : 0 < page) (hload : Loadable R
      ((iterRecords text).length - max 1 (scanCap maxRecords)) 1 (iterRecords text)) :
    ∃ view, R.auditPage (.text text) orgId page pageSize cutoff maxRecords = .ok view ∧
      view.entries = ((((R.visible orgId cutoff
        ((iterRecords text).length - max 1 (scanCap maxRecords)) 1 (iterRecords text)).reverse.drop
          ((page - 1) * min maxPageSize (max 1 pageSize.toNat))).take
            (min maxPageSize (max 1 pageSize.toNat))).map fun e => R.entryView e.1 e.2) := by
  have hlen := visible_length R orgId cutoff (max 1 (scanCap maxRecords)) (iterRecords text)
  have hnumber : max 1 (page : Int).toNat = page := by omega
  rw [auditPage, hnumber]
  dsimp only
  generalize max 1 (scanCap maxRecords) = cap at *
  generalize min maxPageSize (max 1 pageSize.toNat) = size
  split
  · next hpast =>
    refine ⟨_, rfl, ?_⟩
    rw [List.drop_of_length_le (by rw [List.length_reverse]; omega), List.take_nil, List.map_nil]
  · have hscan := scan_eq orgId cutoff (min (page * size) cap) hload []
    rw [List.drop_nil, List.length_nil, List.nil_append] at hscan
    rw [hscan]
    refine ⟨_, rfl, ?_⟩
    -- what was dropped is older than the page
    have hsize : page * size = (page - 1) * size + size := by
      rw [← Nat.succ_mul, Nat.succ_eq_add_one, Nat.sub_add_cancel hpage]
    dsimp only
    congr 1
    rw [List.reverse_drop, List.drop_take, List.take_take, List.take_eq_take_iff, List.length_drop,
      List.length_reverse]
    omega

def readAll (fetch : Nat → Except ReadError AuditPageView) :
    Nat → Nat → Except ReadError (List AuditEntryView)
  | 0, _ => .ok []
  | fuel + 1, page =>
    match fetch page with
    | .error e => .error e
    | .ok view =>
      if view.entries.isEmpty then .ok []
      else
        match readAll fetch fuel (page + 1) with
        | .error e => .error e
        | .ok later => .ok (view.entries ++ later)

theorem readAll_eq (fetch : Nat → Except ReadError AuditPageView) (views : List AuditEntryView)
    {size : Nat} (hsize : 0 < size) (fuel page : Nat)
    (hfetch : ∀ page, 0 < page → ∃ view, fetch page = .ok view ∧
      view.entries = (views.drop ((page - 1) * size)).take size)
    (hpage : 0 < page) (hfuel : (views.drop ((page - 1) * size)).length < fuel) :
    readAll fetch fuel page = .ok (views.drop ((page - 1) * size)) := by
  induction fuel generalizing page with
  | zero => cases hfuel
  | succ fuel ih =>
    obtain ⟨view, hview, hentries⟩ := hfetch page hpage
    rw [readAll, hview]
    dsimp only
    split
    · next hempty =>
      rw [hentries, List.isEmpty_iff, List.take_eq_nil_iff] at hempty
      rcases hempty with hzero | hnil
      · omega
      · rw [hnil]
    · next hsome =>
      have hnext : (views.drop ((page - 1) * size)).drop size =
          views.drop ((page + 1 - 1) * size) := by
        rw [List.drop_drop, ← Nat.succ_mul, Nat.succ_eq_add_one, Nat.sub_add_cancel hpage,
          Nat.add_sub_cancel]
      have hpos : (views.drop ((page - 1) * size)).length ≠ 0 := by
        intro hlen
        rw [hentries, List.length_eq_zero_iff.1 hlen, List.take_nil] at hsome
        exact hsome rfl
      have hlater : (views.drop ((page + 1 - 1) * size)).length < fuel := by
        rw [← hnext, List.length_drop]
        omega
      rw [ih (page + 1) (Nat.succ_pos page) hlater, hentries, ← hnext]
      dsimp only
      rw [List.take_append_drop]

def bootReader : Reader where
  loads := loadsLog "b"
  sha256 := hashFrom "b"
  fromIso := fun _ => none
  repr := fun _ => ""

end Reader

end Prismal.Composition
