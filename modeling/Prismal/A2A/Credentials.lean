import Prismal.A2A.Client
import Prismal.Lib.Lists
import Std.Data.String.ToNat

namespace Prismal.A2A.Client
open Prismal.Lib
set_option autoImplicit true

/-! Where the credentials of a client go. -/

variable {w : World} {cfg : Config}

def Url.portOf (u : Url) : Option Nat :=
  match u.port with
  | .absent => some (if u.scheme = "https" then 443 else 80)
  | .number n => some n
  | .invalid => none

def Secure (w : World) (p : EndpointPolicy) (u : Url) : Prop :=
  u.scheme = "https" ∨ u.scheme = "http" ∧ p.allowInsecureLocalhost = true ∧
    loopback w.toNet (u.host w.toNet) = true

/-- A URL where credentials may go: secure, within the policy and of the same origin as the URL of
the card. -/
def Confined (w : World) (cfg : Config) (url : String) : Prop :=
  ∃ u own, w.urlparse url = .ok u ∧ w.urlparse cfg.cardUrl = .ok own ∧
    Secure w cfg.policy u ∧ cfg.policy.check w.toNet u = .ok () ∧
    u.scheme = own.scheme ∧ u.host w.toNet = own.host w.toNet ∧ u.portOf = own.portOf

def WritesZero (w : World) (url : String) : Prop :=
  ∃ u, w.urlparse url = .ok u ∧ u.port = .number 0

theorem secure_of_check {p : EndpointPolicy} {u : Url} (h : p.check w.toNet u = .ok ()) :
    Secure w p u := by
  rw [EndpointPolicy.check] at h
  split at h
  · cases h
  next hhttps =>
    rw [not_or, not_not, EndpointPolicy.localOk, Bool.and_eq_true] at hhttps
    exact hhttps.2

theorem colon_not_mem_repr (n : Nat) : ':' ∉ n.repr.toList := by
  intro h
  rw [Nat.toList_repr] at h
  exact absurd (Nat.isDigit_of_mem_toDigits (by decide) (by decide) h) (by decide)

theorem origin_parts {u v : Url} (hu : origin w.toNet u = .ok o) (hv : origin w.toNet v = .ok o) :
    u.scheme = v.scheme ∧ u.host w.toNet = v.host w.toNet ∧
      ∃ port, u.originPort = .ok port ∧ v.originPort = .ok port := by
  rw [origin] at hu hv
  cases hpu : u.originPort with
  | error e =>
    rw [hpu] at hu
    cases hu
  | ok m =>
    cases hpv : v.originPort with
    | error e =>
      rw [hpv] at hv
      cases hv
    | ok n =>
      rw [hpu] at hu
      rw [hpv] at hv
      have htext : u.scheme ++ "://" ++ u.host w.toNet ++ ":" ++ m.repr =
          v.scheme ++ "://" ++ v.host w.toNet ++ ":" ++ n.repr :=
        (Except.ok.inj hu).trans (Except.ok.inj hv).symm
      have hlist := congrArg String.toList htext
      simp only [String.toList_append] at hlist
      have hscheme : u.scheme.toList ++ ':' :: ("//".toList ++ (u.host w.toNet).toList ++
            ':' :: m.repr.toList) =
          v.scheme.toList ++ ':' :: ("//".toList ++ (v.host w.toNet).toList ++
            ':' :: n.repr.toList) := by
        simpa using hlist
      obtain ⟨hs, hrest⟩ := append_cons_inj u.scheme_plain v.scheme_plain hscheme
      obtain ⟨hhost, hport⟩ :=
        append_cons_inj_last (colon_not_mem_repr m) (colon_not_mem_repr n) hrest
      have hmn : m = n := Nat.repr_injective (String.toList_injective hport)
      exact ⟨String.toList_injective hs, String.toList_injective (List.append_cancel_left hhost),
        m, rfl, by rw [hmn]⟩

theorem portOf_of_originPort {u : Url} (hz : u.port ≠ .number 0) (h : u.originPort = .ok port) :
    u.portOf = some port := by
  rw [Url.originPort] at h
  rw [Url.portOf]
  cases hp : u.port with
  | absent =>
    rw [hp] at h
    exact congrArg some (Except.ok.inj h)
  | number n =>
    rw [hp] at h
    have hn : n ≠ 0 := by
      intro hn
      exact hz (by rw [hp, hn])
    have hport : (if n = 0 then if u.scheme = "https" then 443 else 80 else n) = port :=
      Except.ok.inj h
    rw [if_neg hn] at hport
    exact congrArg some hport
  | invalid =>
    rw [hp] at h
    cases h

theorem portOf_eq {u v : Url} (hz : u.port = .number 0 ↔ v.port = .number 0)
    (hu : u.originPort = .ok port) (hv : v.originPort = .ok port) : u.portOf = v.portOf := by
  by_cases h : u.port = .number 0
  · rw [Url.portOf, Url.portOf, h, hz.1 h]
  · rw [portOf_of_originPort h hu, portOf_of_originPort (fun hv => h (hz.2 hv)) hv]

theorem confined_of_origin (hz : WritesZero w url ↔ WritesZero w cfg.cardUrl)
    (hu : w.urlparse url = .ok u) (hown : w.urlparse cfg.cardUrl = .ok own)
    (hcheck : cfg.policy.check w.toNet u = .ok ()) (ho : origin w.toNet u = .ok o)
    (ho' : origin w.toNet own = .ok o) : Confined w cfg url := by
  obtain ⟨hscheme, hhost, port, hport, hport'⟩ := origin_parts ho ho'
  refine ⟨u, own, hu, hown, secure_of_check hcheck, hcheck, hscheme, hhost, ?_⟩
  have hzero : ∀ {url v}, w.urlparse url = .ok v → (WritesZero w url ↔ v.port = .number 0) := by
    intro url v hv
    constructor
    · intro ⟨v', hv', hp⟩
      cases hv.symm.trans hv'
      exact hp
    · intro hp
      exact ⟨v, hv, hp⟩
  exact portOf_eq ((hzero hu).symm.trans (hz.trans (hzero hown))) hport hport'

def Serves (w : World) (cfg : Config) (card : AgentCard) : Prop :=
  ∃ n raw a, w.fetch n = .card raw ∧ adopted w cfg raw = .ok a ∧ a.card = card ∧
    sendsCredentials cfg (a.store {}) = true

def PlainPort (w : World) (cfg : Config) (card : AgentCard) : Prop :=
  WritesZero w card.url ↔ WritesZero w cfg.cardUrl

structure Inv (w : World) (cfg : Config) (s : State) : Prop where
  card : ∀ card, s.card = some card → sendsCredentials cfg s = true → PlainPort w cfg card
  fresh : s.card = none → s.cardV1 = none
  resolved : s.oauthResolved = true → s.card ≠ none ∧ sendsCredentials cfg s = true
  sent : ∀ r ∈ s.requests, r.authorization.isSome = true → Confined w cfg r.url

abbrev Keeping (w : World) (cfg : Config) (P : State → Prop) (m : M α) (Q : α → State → Prop) :
    Prop :=
  Spec (fun s => Inv w cfg s ∧ P s) m (fun a s => Inv w cfg s ∧ Q a s) (fun _ => Inv w cfg)

theorem raiseOr_keeping {x : Except Text α} {P : State → Prop} :
    Keeping w cfg P (raiseOr x) fun a s => x = .ok a ∧ P s := by
  cases x with
  | error e => exact Spec.throw fun s hs => hs.1
  | ok a => exact Spec.pure fun s hs => ⟨hs.1, rfl, hs.2⟩

theorem read_keeping {answers : Nat → α} {P : State → Prop}
    (hP : ∀ s n, P s → P { s with reads := n }) :
    Keeping w cfg P (read answers) fun a s => (∃ n, answers n = a) ∧ P s := by
  intro s hs
  exact ⟨⟨hs.1.card, hs.1.fresh, hs.1.resolved, hs.1.sent⟩, ⟨s.reads, rfl⟩, hP s _ hs.2⟩

theorem request_keeping {P : State → Prop} {r : Request}
    (hr : ∀ s, P s → r.authorization.isSome = true → Confined w cfg r.url)
    (hP : ∀ s rs, P s → P { s with requests := rs }) :
    Keeping w cfg P (request r) fun _ => P := by
  intro s hs
  refine ⟨⟨hs.1.card, hs.1.fresh, hs.1.resolved, ?_⟩, hP s _ hs.2⟩
  intro r' hr' hauth
  cases List.mem_append.1 hr' with
  | inl h => exact hs.1.sent r' h hauth
  | inr h =>
    cases List.mem_singleton.1 h
    exact hr s hs.2 hauth

theorem get_keeping {P : State → Prop} :
    Keeping w cfg P (get : M State) fun t s => t = s ∧ P s :=
  Spec.get fun _ hs => ⟨hs.1, rfl, hs.2⟩

section
variable (hserve : ∀ card, Serves w cfg card → PlainPort w cfg card)
include hserve

theorem adoptCard_keeping {raw : Json} {n : Nat} (hraw : w.fetch n = .card raw) :
    Keeping w cfg (fun s => s.card = none) (adoptCard w cfg raw)
      fun card s => s.card = some card := by
  refine Spec.bind raiseOr_keeping fun a => ?_
  refine Spec.bind (Spec.modify (Q := fun _ s => Inv w cfg s ∧ s.card = some a.card) ?_)
    fun _ => Spec.pure fun s hs => hs
  intro s ⟨hi, ha, hs⟩
  refine ⟨⟨?_, ?_, ?_, hi.sent⟩, rfl⟩
  · intro card hcard hsends
    cases hcard
    refine hserve _ ⟨n, raw, a, hraw, ha, rfl, ?_⟩
    rw [sendsCredentials, Adopted.store, hi.fresh hs] at hsends
    exact hsends
  · intro h
    cases h
  · intro hr
    exact absurd hs (hi.resolved hr).1

theorem fetchCard_keeping (last : Text) (n : Nat) :
    Keeping w cfg (fun s => s.card = none) (fetchCard w cfg last n)
      fun card s => s.card = some card := by
  induction n generalizing last with
  | zero => exact Spec.throw fun s hs => hs.1
  | succ n ih =>
    refine Spec.bind (request_keeping (fun _ _ h => by cases h) fun _ _ h => h) fun _ => ?_
    refine Spec.bind (read_keeping fun _ _ h => h) fun fetched => ?_
    cases fetched with
    | card raw =>
      intro s ⟨hi, hn, hs⟩
      obtain ⟨n, hraw⟩ := hn
      exact adoptCard_keeping hserve hraw s ⟨hi, hs⟩
    | httpError repr => exact (ih repr).pre fun s hs => ⟨hs.1, hs.2.2⟩
    | raised text => exact Spec.throw fun s hs => hs.1

theorem discover_keeping :
    Keeping w cfg (fun _ => True) (discover w cfg) fun card s => s.card = some card := by
  refine Spec.bind get_keeping fun t => ?_
  cases hcard : t.card with
  | some card =>
    refine Spec.pure fun s hs => ⟨hs.1, ?_⟩
    rw [← hs.2.1]
    exact hcard
  | none =>
    refine (fetchCard_keeping hserve _ _).pre fun s hs => ⟨hs.1, ?_⟩
    rw [← hs.2.1]
    exact hcard

end

theorem settleVersion_keeping {P : State → Prop} {card : AgentCard}
    (hP : ∀ s v, P s → P { s with version := v }) :
    Keeping w cfg P (settleVersion cfg card) fun _ => P := by
  refine Spec.bind get_keeping fun t => ?_
  split
  · refine Spec.bind raiseOr_keeping fun v => Spec.modify fun s hs => ⟨?_, hP s _ hs.2.2.2⟩
    exact ⟨hs.1.card, hs.1.fresh, hs.1.resolved, hs.1.sent⟩
  · exact Spec.pure fun s hs => ⟨hs.1, hs.2.2⟩

theorem ensureCard_keeping (hserve : ∀ card, Serves w cfg card → PlainPort w cfg card) :
    Keeping w cfg (fun _ => True) (ensureCard w cfg) fun card s => s.card = some card :=
  Spec.bind (discover_keeping hserve) fun _ =>
    Spec.bind (settleVersion_keeping fun _ _ h => h) fun _ => Spec.pure fun _ hs => hs

theorem parseUrl_keeping {P : State → Prop} {url : String} :
    Keeping w cfg P (parseUrl w url) fun u s => w.urlparse url = .ok u ∧ P s := by
  refine raiseOr_keeping.post fun u s hs => ⟨hs.1, ?_, hs.2.2⟩
  cases h : w.urlparse url with
  | error e =>
    rw [h] at hs
    cases hs.2.1
  | ok v =>
    rw [h] at hs
    exact congrArg Except.ok (Except.ok.inj hs.2.1)

theorem requireOrigin_keeping {P : State → Prop} {u : Url} :
    Keeping w cfg P (requireOrigin w cfg u) fun _ s => (∃ own o, w.urlparse cfg.cardUrl = .ok own ∧
      origin w.toNet u = .ok o ∧ origin w.toNet own = .ok o) ∧ P s := by
  refine Spec.bind raiseOr_keeping fun there => ?_
  refine Spec.bind parseUrl_keeping fun own => ?_
  refine Spec.bind raiseOr_keeping fun here => ?_
  split
  · exact Spec.throw fun s hs => hs.1
  next heq =>
    rw [ne_eq, not_not] at heq
    refine Spec.pure fun s hs => ⟨hs.1, ⟨own, here, hs.2.2.1, ?_, hs.2.1⟩, hs.2.2.2.2⟩
    rw [← heq]
    exact hs.2.2.2.1

theorem rpcUrl_keeping {card : AgentCard} :
    Keeping w cfg (fun s => s.card = some card) (rpcUrl w cfg card)
      fun url s => s.card ≠ none ∧ (sendsCredentials cfg s = true → Confined w cfg url) := by
  have hsome : ∀ {s : State}, s.card = some card → s.card ≠ none := by
    intro s h
    rw [h]
    exact Option.some_ne_none card
  refine Spec.bind get_keeping fun t => ?_
  dsimp only
  split
  next hfree =>
    refine Spec.pure fun s hs => ⟨hs.1, hsome hs.2.2, fun hc => ?_⟩
    rw [← hs.2.1] at hc
    rw [hc] at hfree
    cases hfree
  · refine Spec.bind parseUrl_keeping fun u => ?_
    refine Spec.bind raiseOr_keeping fun _ => ?_
    have hcheck : ∀ {x : Unit}, (cfg.policy.check w.toNet u).mapError
        (fun e => unavailable w cfg.cardUrl e.text) = .ok x → cfg.policy.check w.toNet u = .ok () := by
      intro x hx
      cases hp : cfg.policy.check w.toNet u with
      | error e =>
        rw [hp] at hx
        cases hx
      | ok y => rfl
    split
    · refine Spec.bind requireOrigin_keeping fun _ => Spec.pure fun s hs => ?_
      obtain ⟨hi, ⟨own, o, hown, ho, ho'⟩, hok, hu, ht, hcard⟩ := hs
      exact ⟨hi, hsome hcard, fun hsends =>
        confined_of_origin (hi.card card hcard hsends) hu hown (hcheck hok) ho ho'⟩
    next hcreds =>
      refine Spec.pure fun s hs => ⟨hs.1, hsome hs.2.2.2.2, fun hc => ?_⟩
      rw [← hs.2.2.2.1] at hc
      exact absurd hc hcreds

theorem fetchOauthToken_keeping {P : State → Prop} (hP : ∀ s rs n t, P s →
    P { s with requests := rs, reads := n, oauthToken := t }) :
    Keeping w cfg P (fetchOauthToken w cfg) fun _ => P := by
  refine Spec.bind get_keeping fun t => ?_
  split
  · exact Spec.pure fun s hs => ⟨hs.1, hs.2.2⟩
  · split
    · exact Spec.throw fun s hs => hs.1
    · refine Spec.bind ((request_keeping (P := P) (fun _ _ h => by cases h)
        fun s rs h => hP s rs _ _ h).pre fun s hs => ⟨hs.1, hs.2.2⟩) fun _ => ?_
      refine Spec.bind (read_keeping fun s n h => hP s _ n _ h) fun answer => ?_
      refine Spec.bind raiseOr_keeping fun token => ?_
      refine Spec.bind (Spec.modify (Q := fun _ s => Inv w cfg s ∧ P s) fun s hs => ?_)
        fun _ => Spec.pure fun s hs => hs
      exact ⟨⟨hs.1.card, hs.1.fresh, hs.1.resolved, hs.1.sent⟩, hP s _ _ _ hs.2.2.2⟩

theorem cardOauthFlow_keeping {c : Prop} :
    Keeping w cfg (fun s => s.card ≠ none ∧ (sendsCredentials cfg s = true → c))
      (cardOauthFlow w cfg)
      fun flow s => (flow = true → c) ∧ s.card ≠ none ∧ (sendsCredentials cfg s = true → c) := by
  refine Spec.bind get_keeping fun t => ?_
  split
  next hres =>
    refine Spec.pure fun s hs => ⟨hs.1, fun _ => ?_, hs.2.2⟩
    obtain ⟨hi, rfl, hcard, hc⟩ := hs
    exact hc (hi.resolved hres).2
  · split
    · exact Spec.pure fun s hs => ⟨hs.1, fun h => (by cases h), hs.2.2⟩
    next card hv1 =>
      split
      · exact Spec.pure fun s hs => ⟨hs.1, fun h => (by cases h), hs.2.2⟩
      next hreq =>
        rw [not_or, not_not] at hreq
        have hsends : sendsCredentials cfg t = true := by
          rw [sendsCredentials, if_neg (not_not.2 hreq.1), hv1]
          exact decide_eq_true hreq.2
        refine Spec.bind raiseOr_keeping fun flow => ?_
        refine Spec.bind (Spec.modify (Q := fun _ s => Inv w cfg s ∧ (flow = true → c) ∧
          s.card ≠ none ∧ (sendsCredentials cfg s = true → c)) fun s hs => ?_)
          fun _ => Spec.pure fun s hs => hs
        obtain ⟨hi, -, rfl, hcard, hc⟩ := hs
        exact ⟨⟨hi.card, hi.fresh, fun _ => ⟨hcard, hsends⟩, hi.sent⟩, fun _ => hc hsends, hcard, hc⟩

theorem authHeaders_keeping {c : Prop} :
    Keeping w cfg (fun s => s.card ≠ none ∧ (sendsCredentials cfg s = true → c))
      (authHeaders w cfg) fun header _ => header.isSome = true → c := by
  have hscheme : cfg.auth.scheme ≠ .none → ∀ s, sendsCredentials cfg s = true := by
    intro h s
    exact if_pos h
  rw [authHeaders]
  split
  next hs _ =>
    have hne : cfg.auth.scheme ≠ .none := by
      rw [hs]
      decide
    exact Spec.pure fun s h => ⟨h.1, fun _ => h.2.2 (hscheme hne s)⟩
  next hs =>
    have hne : cfg.auth.scheme ≠ .none := by
      rw [hs]
      decide
    have hfetch : Keeping w cfg (fun s => s.card ≠ none ∧ (sendsCredentials cfg s = true → c))
        (fetchOauthToken w cfg) fun _ _ => c :=
      (fetchOauthToken_keeping (P := fun _ => c) fun _ _ _ _ h => h).pre fun s h =>
        ⟨h.1, h.2.2 (hscheme hne s)⟩
    exact Spec.bind hfetch fun _ => Spec.pure fun s h => ⟨h.1, fun _ => h.2⟩
  · refine Spec.bind cardOauthFlow_keeping fun flow => ?_
    split
    next hflow =>
      refine Spec.bind (read_keeping fun s n h => h) fun answer => ?_
      refine Spec.bind raiseOr_keeping fun token => Spec.pure fun s hs => ⟨hs.1, fun _ => ?_⟩
      exact hs.2.2.2.1 hflow
    · exact Spec.pure fun s hs => ⟨hs.1, fun h => by cases h⟩

theorem openRpc_keeping {card : AgentCard} :
    Keeping w cfg (fun s => s.card = some card) (openRpc w cfg card) fun _ _ => True := by
  refine Spec.bind rpcUrl_keeping fun url => ?_
  refine Spec.bind (authHeaders_keeping (c := Confined w cfg url)) fun header => ?_
  exact (request_keeping (P := fun _ => header.isSome = true → Confined w cfg url)
    (fun _ hc hauth => hc hauth) fun _ _ h => h).post fun _ _ h => ⟨h.1, trivial⟩

theorem answer_keeping {P : State → Prop} :
    Keeping w cfg P (do raiseOr (← read w.answer)) fun _ _ => True := by
  refine Spec.bind ((read_keeping (P := fun _ => True) fun _ _ h => h).pre fun s hs =>
    ⟨hs.1, trivial⟩) fun answer => ?_
  exact raiseOr_keeping.post fun _ _ h => ⟨h.1, trivial⟩

theorem requireV1_keeping {P : State → Prop} : Keeping w cfg P requireV1 fun _ => P := by
  refine Spec.bind get_keeping fun t => ?_
  split
  · exact Spec.throw fun s hs => hs.1
  · exact Spec.pure fun s hs => ⟨hs.1, hs.2.2⟩

theorem refuseLegacy_keeping {P : State → Prop} :
    Keeping w cfg P (refuseLegacy cfg) fun _ => P := by
  rw [refuseLegacy]
  split
  · exact Spec.throw fun s hs => hs.1
  · exact Spec.pure fun s hs => hs

theorem decideKnown_keeping :
    Keeping w cfg (fun _ => True) (decideKnown cfg) fun _ _ => True := by
  refine Spec.bind get_keeping fun t => ?_
  split
  · refine Spec.bind ((settleVersion_keeping (P := fun _ => True) fun _ _ h => h).pre
      fun s hs => ⟨hs.1, trivial⟩) fun _ => requireV1_keeping
  · exact Spec.pure fun s hs => ⟨hs.1, trivial⟩

section
variable (hserve : ∀ card, Serves w cfg card → PlainPort w cfg card)
include hserve

theorem sendTask_keeping : Keeping w cfg (fun _ => True) (sendTask w cfg) fun _ _ => True :=
  Spec.bind (ensureCard_keeping hserve) fun _ => Spec.bind openRpc_keeping fun _ => answer_keeping

theorem cancel_keeping : Keeping w cfg (fun _ => True) (cancel w cfg) fun _ _ => True :=
  Spec.bind (ensureCard_keeping hserve) fun _ => Spec.bind openRpc_keeping fun _ => answer_keeping

theorem listTasks_keeping : Keeping w cfg (fun _ => True) (listTasks w cfg) fun _ _ => True :=
  Spec.bind refuseLegacy_keeping fun _ => Spec.bind decideKnown_keeping fun _ =>
    Spec.bind (ensureCard_keeping hserve) fun _ => Spec.bind requireV1_keeping fun _ =>
      Spec.bind openRpc_keeping fun _ => answer_keeping

theorem call_inv (call : Call) (h : Inv w cfg s) : Inv w cfg (left (call.run w cfg s)) := by
  have hkeeps : Keeping w cfg (fun _ => True) (call.run w cfg) fun _ _ => True := by
    cases call with
    | sendTask => exact sendTask_keeping hserve
    | listTasks => exact listTasks_keeping hserve
    | cancel => exact cancel_keeping hserve
  have hends := hkeeps s ⟨h, trivial⟩
  cases hres : call.run w cfg s with
  | ok a t =>
    rw [hres] at hends
    exact hends.1
  | error e t =>
    rw [hres] at hends
    exact hends

end

def init (cfg : Config) (given : Option String) : State where
  card := given.map fun version => ⟨cfg.cardUrl, version⟩

def run (w : World) (cfg : Config) (s : State) (calls : List Call) : State :=
  calls.foldl (fun s call => left (call.run w cfg s)) s

theorem inv_init (given : Option String) : Inv w cfg (init cfg given) := by
  constructor
  · intro card hcard _
    obtain ⟨version, -, rfl⟩ := Option.map_eq_some_iff.1 hcard
    exact Iff.rfl
  · intro _
    rfl
  · intro h
    cases h
  · intro r hr
    cases hr

theorem run_inv (hserve : ∀ card, Serves w cfg card → PlainPort w cfg card) (calls : List Call)
    (h : Inv w cfg s) : Inv w cfg (run w cfg s calls) := by
  induction calls generalizing s with
  | nil => exact h
  | cons call calls ih => exact ih (call_inv hserve call h)

/-- Where no card that gets credentials trades the port 0 for another one, every request with a
credential goes to a checked URL of the origin that the card was found at. -/
theorem credentials_confined (w : World) (cfg : Config) (given : Option String)
    (calls : List Call) (hserve : ∀ card, Serves w cfg card → PlainPort w cfg card) :
    ∀ r ∈ (run w cfg (init cfg given) calls).requests, r.authorization.isSome = true →
      Confined w cfg r.url :=
  (run_inv hserve calls (inv_init given)).sent

def oneHost (card : String) : World where
  urlparse url :=
    if url = "https://a" then .ok ⟨"https", some "a", .absent, by decide⟩
    else if url = "https://a:0" then .ok ⟨"https", some "a", .number 0, by decide⟩
    else .error ""
  ipAddress _ := none
  lower s := s
  repr s := s
  validate _ := .ok ⟨card, "0.3"⟩
  validateV1 _ := .error []
  selectOauthFlow _ := .ok false
  fetch _ := .card .null
  token _ := .error []
  accessToken _ := .error []
  answer _ := .ok ()

def bearer : Config where
  cardUrl := "https://a"
  auth := { scheme := .bearer, bearerToken := some "t" }

theorem oneHost_post :
    ⟨.post, "https://a", some "Bearer t"⟩ ∈
        (run (oneHost "https://a") bearer (init bearer none) [.sendTask]).requests ∧
      Confined (oneHost "https://a") bearer "https://a" := by
  have hmem : ⟨.post, "https://a", some "Bearer t"⟩ ∈
      (run (oneHost "https://a") bearer (init bearer none) [.sendTask]).requests := by decide
  refine ⟨hmem, credentials_confined (oneHost "https://a") bearer none [.sendTask] ?_ _ hmem rfl⟩
  intro card ⟨n, raw, a, hraw, ha, hcard, _⟩
  cases hraw
  cases ha
  cases hcard
  exact Iff.rfl

/-- A card found at a host's HTTPS port may name its port 0, and is sent the token there. -/
theorem token_to_port_zero :
    ¬∀ r ∈ (run (oneHost "https://a:0") bearer (init bearer none) [.sendTask]).requests,
      r.authorization.isSome = true → Confined (oneHost "https://a:0") bearer r.url := by
  intro h
  have hmem : ⟨.post, "https://a:0", some "Bearer t"⟩ ∈
      (run (oneHost "https://a:0") bearer (init bearer none) [.sendTask]).requests := by decide
  obtain ⟨u, own, hu, hown, -, -, -, -, hport⟩ := h _ hmem rfl
  have hz : u.portOf = some 0 := by
    cases hu
    rfl
  have hs : own.portOf = some 443 := by
    cases hown
    rfl
  rw [hz, hs] at hport
  cases hport

end Prismal.A2A.Client
