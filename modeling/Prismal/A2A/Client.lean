import Prismal.A2A.Types
import Prismal.Lib.Glob
import Prismal.Lib.State
import Prismal.Lib.Text

namespace Prismal.A2A.Client
open Prismal.Lib
set_option autoImplicit true

/-! The outbound client up to the request: the card of a remote agent, the version that is spoken
with it, the URL that it names and the credentials that go there. -/

/-- A piece of a text: written here, or taken from what the peer sent. -/
inductive Piece where
  | own (s : String)
  | peer (s : String)
  deriving DecidableEq

def Piece.str : Piece → String
  | .own s => s
  | .peer s => s

abbrev Text := List Piece

def Text.str (t : Text) : String := String.join (t.map Piece.str)

def Text.fromPeer (t : Text) : Bool :=
  t.any fun p =>
    match p with
    | .own _ => false
    | .peer _ => true

/-! URLs and the policy for them. -/

inductive Port where
  | absent
  | number (n : Nat)
  | invalid
  deriving DecidableEq

/-- What `urlparse` reads off a URL; it puts the scheme in lower case. -/
structure Url where
  scheme : String
  hostname : Option String
  port : Port
  scheme_plain : ':' ∉ scheme.toList

/-- What `ipaddress` says of a literal address; `restricted`: private, loopback, link-local or
reserved. -/
structure Ip where
  loopback : Bool
  restricted : Bool

structure EndpointPolicy where
  allowInsecureLocalhost : Bool := false
  allowPrivateHosts : Bool := false
  allowlist : List String := []
  strict : Bool := false

/-- The two libraries that read URLs, and case folding. Where `urlparse` raises it gives the text
of the exception. -/
structure Net where
  urlparse : String → Except String Url
  ipAddress : String → Option Ip
  lower : String → String

def Url.host (net : Net) (u : Url) : String := net.lower (u.hostname.getD "")

def loopback (net : Net) (host : String) : Bool :=
  host == "localhost" || (net.ipAddress host).any Ip.loopback

def isLocalOrPrivate (net : Net) (host : String) : Bool :=
  decide (host ∈ ["localhost", "127.0.0.1", "::1"]) || (net.ipAddress host).any Ip.restricted

/-- `_allowed` -/
def allowed (host : String) (allowlist : List String) (strict : Bool) : Bool :=
  if allowlist = [] then !strict else allowlist.any fun pat => Glob.fnmatchcase host pat

inductive Refusal where
  | notHttps (scheme host : String)
  | privateHost (host : String)
  | notAllowed (host : String)

def Refusal.text : Refusal → Text
  | .notHttps scheme host => [.own "A2A RPC URL must use HTTPS: ", .peer (scheme ++ "://" ++ host)]
  | .privateHost host => [.own "A2A RPC URL host not allowed (private/loopback): ", .peer host]
  | .notAllowed host => [.own "A2A RPC URL host not in outbound allowlist: ", .peer host]

def EndpointPolicy.localOk (p : EndpointPolicy) (net : Net) (host : String) : Bool :=
  p.allowInsecureLocalhost && loopback net host

/-- `_require_https` -/
def EndpointPolicy.check (p : EndpointPolicy) (net : Net) (u : Url) : Except Refusal Unit :=
  let host := u.host net
  let localOk := p.localOk net host
  if host = "" ∨ ¬(u.scheme = "https" ∨ u.scheme = "http" ∧ localOk = true) then
    .error (.notHttps u.scheme host)
  else if isLocalOrPrivate net host && !(p.allowPrivateHosts || localOk) then
    .error (.privateHost host)
  else if (decide (p.allowlist ≠ []) || p.strict) && !allowed host p.allowlist true then
    .error (.notAllowed host)
  else .ok ()

/-- `parsed.port or (443 if scheme == "https" else 80)`; reading an invalid port raises. -/
def Url.originPort (u : Url) : Except Text Nat :=
  let default := if u.scheme = "https" then 443 else 80
  match u.port with
  | .absent => .ok default
  | .number n => .ok (if n = 0 then default else n)
  | .invalid => .error [.own "invalid port"]

/-- `_origin` -/
def origin (net : Net) (u : Url) : Except Text String := do
  let port ← u.originPort
  return u.scheme ++ "://" ++ u.host net ++ ":" ++ port.repr

/-! Version negotiation. -/

inductive Version where
  | v03
  | v1
  deriving DecidableEq

def Version.value : Version → String
  | .v03 => "0.3"
  | .v1 => "1.0"

/-- `ClientProtocol`; `none`: `auto`. -/
abbrev ClientProtocol := Option Version

/-- `normalize_version` -/
def normalizeVersion : Option Json → Option Version
  | some (.str raw) =>
    match (stripChars raw.toList).splitOn '.' with
    | ['1'] :: _ => some .v1
    | ['0'] :: ['3'] :: _ => some .v03
    | _ => none
  | _ => none

def Json.get? (j : Json) (key : String) : Option Json :=
  match j with
  | .object fields => fields.lookup key
  | _ => none

def Json.str? : Option Json → Option String
  | some (.str s) => some s
  | _ => none

/-- One interface of `_advertised`. -/
def interface? : Json → Option (Version × Option String × Option String)
  | .object fields =>
    match (fields.lookup "protocolBinding").getD (.str "JSONRPC"),
        normalizeVersion (fields.lookup "protocolVersion") with
    | .str "JSONRPC", some version =>
      some (version, Json.str? (fields.lookup "url"), Json.str? (fields.lookup "tenant"))
    | _, _ => none
  | _ => none

def advertised (card : Json) : List (Version × Option String × Option String) :=
  let interfaces := match Json.get? card "supportedInterfaces" with
    | some (.list interfaces) => interfaces.filterMap interface?
    | _ => []
  match normalizeVersion (Json.get? card "protocolVersion") with
  | none => interfaces
  | some top => interfaces ++ [(top, Json.str? (Json.get? card "url"), none)]

def selectOutbound (card : Json) (preferred : Option Version) : Version :=
  let versions := (advertised card).map Prod.fst
  match preferred.filter (· ∈ versions) with
  | some version => version
  | none => if .v1 ∈ versions then .v1 else .v03

def selectInterfaceUrl (card : Json) (version : Version) : Option String × Option String :=
  match (advertised card).find? fun e => e.1 = version ∧ e.2.1.any (· ≠ "") with
  | some e => e.2
  | none => (Json.str? (Json.get? card "url"), none)

/-! The client. -/

inductive AuthScheme where
  | none
  | oauth2ClientCredentials
  | mtls
  | bearer
  deriving DecidableEq

structure A2AAuth where
  scheme : AuthScheme := .none
  tokenUrl : Option String := none
  bearerToken : Option String := none

/-- The internal card, as far as the client reads it. -/
structure AgentCard where
  url : String
  protocolVersion : String

/-- `card.model_dump(by_alias=True)` -/
def AgentCard.dump (card : AgentCard) : Json :=
  .object [("url", .str card.url), ("protocolVersion", .str card.protocolVersion)]

structure AgentCardV1 where
  securityRequirements : List Json
  securitySchemes : Json

/-- What a client is built with; `maxRetries` is at least 1. -/
structure Config where
  cardUrl : String
  protocol : ClientProtocol := none
  tenant : Option String := none
  auth : A2AAuth := {}
  policy : EndpointPolicy := {}
  maxRetries : Nat := 2

inductive Method where
  | get
  | post
  deriving DecidableEq

/-- A request, with the value of its `Authorization` header. -/
structure Request where
  method : Method
  url : String
  authorization : Option String
  deriving DecidableEq

/-- The outcome of a request for a card: JSON, a transport error with its `repr`, or anything else
that is raised. -/
inductive Fetched where
  | card (raw : Json)
  | httpError (repr : Text)
  | raised (text : Text)

/-- The libraries, and what the peers and the flows answer, in the order of the questions. -/
structure World extends Net where
  repr : String → String
  validate : Json → Except Text AgentCard
  validateV1 : Json → Except Text AgentCardV1
  selectOauthFlow : AgentCardV1 → Except Text Bool
  fetch : Nat → Fetched
  token : Nat → Except Text String
  accessToken : Nat → Except Text String
  answer : Nat → Except Text Unit

/-- The fields of the client that change, the requests so far and the number of answers read. -/
structure State where
  card : Option AgentCard := none
  version : Option Version := none
  cardV1 : Option AgentCardV1 := none
  cardTenant : Option String := none
  oauthFlow : Bool := false
  oauthResolved : Bool := false
  oauthToken : Option String := none
  requests : List Request := []
  reads : Nat := 0

abbrev M := EStateM Text State

variable (w : World) (cfg : Config)

/-- `str(A2AAgentUnavailable(agent, reason))` -/
def unavailable (agent : String) (reason : Text) : Text :=
  [.own "A2A agent ", .own (w.repr agent), .own " unavailable: "] ++ reason

def request (r : Request) : M Unit := modify fun s => { s with requests := s.requests ++ [r] }

def read (answers : Nat → α) : M α := do
  let s ← get
  modify fun s => { s with reads := s.reads + 1 }
  return answers s.reads

def raiseOr : Except Text α → M α
  | .error text => throw text
  | .ok a => pure a

def pickVersion (raw : Json) : Except Text Version :=
  match cfg.protocol with
  | none => .ok (selectOutbound raw none)
  | some protocol =>
    if selectOutbound raw (some protocol) = protocol then .ok protocol
    else .error [.own
      ("remote agent does not advertise A2A " ++ protocol.value ++ " over JSON-RPC")]

def hasKey (raw : Json) (key : String) : Bool := (Json.get? raw key).isSome

/-- A raw card on which a version is negotiated, projected onto the internal model. -/
structure Adopted where
  version : Version
  card : AgentCard
  v1 : Option (AgentCardV1 × Option String) := none

def adopted (raw : Json) : Except Text Adopted := do
  let version ← pickVersion cfg raw
  if hasKey raw "supportedInterfaces" && !hasKey raw "url" then
    let cardV1 ← w.validateV1 raw
    let chosen := selectInterfaceUrl raw version
    return ⟨version, ⟨chosen.1.getD "", version.value⟩, some (cardV1, chosen.2)⟩
  else
    let card ← w.validate raw
    return ⟨version, card, none⟩

def Adopted.store (a : Adopted) (s : State) : State :=
  { s with
    cardV1 := (a.v1.map Prod.fst).or s.cardV1
    cardTenant := (a.v1.map Prod.snd).getD s.cardTenant
    version := some a.version
    card := some a.card }

def adoptCard (raw : Json) : M AgentCard := do
  let a ← raiseOr (adopted w cfg raw)
  modify a.store
  return a.card

def wellKnownSuffix : String := "/.well-known/agent-card.json"

/-- The URL that `discover` gets. -/
def discoveryUrl (url : String) : String :=
  if wellKnownSuffix.toList <:+ url.toList ∨ "/.well-known/".toList <:+: url.toList then url
  else String.ofList (url.toList.rdropWhile (· == '/')) ++ wellKnownSuffix

def fetchCard (last : Text) : Nat → M AgentCard
  | 0 => throw (unavailable w cfg.cardUrl (.own "discovery failed: " :: last))
  | n + 1 => do
    request ⟨.get, discoveryUrl cfg.cardUrl, none⟩
    match ← read w.fetch with
    | .card raw => adoptCard w cfg raw
    | .httpError repr => fetchCard repr n
    | .raised text => throw text

def discover : M AgentCard := do
  match (← get).card with
  | some card => return card
  | none => fetchCard w cfg [.own "None"] cfg.maxRetries

def settleVersion (card : AgentCard) : M Unit := do
  if (← get).version.isNone then
    let version ← raiseOr (pickVersion cfg card.dump)
    modify fun s => { s with version := some version }

def ensureCard : M AgentCard := do
  let card ← discover w cfg
  settleVersion cfg card
  return card

def sendsCredentials (s : State) : Bool :=
  if cfg.auth.scheme ≠ .none then true
  else s.cardV1.any fun card => decide (card.securityRequirements ≠ [])

/-- `urlparse`, whose exceptions are not caught. -/
def parseUrl (url : String) : M Url :=
  raiseOr ((w.urlparse url).mapError fun text => [.peer text])

def requireOrigin (u : Url) : M Unit := do
  let there ← raiseOr (origin w.toNet u)
  let own ← parseUrl w cfg.cardUrl
  let here ← raiseOr (origin w.toNet own)
  if there ≠ here then
    throw (unavailable w cfg.cardUrl [.own
      ("A2A RPC URL origin differs from the discovered card origin; " ++
        "refusing to send credentials")])

def rpcUrl (card : AgentCard) : M String := do
  let withCreds := sendsCredentials cfg (← get)
  if !(withCreds || decide (cfg.policy.allowlist ≠ []) || cfg.policy.strict) then return card.url
  let u ← parseUrl w card.url
  raiseOr ((cfg.policy.check w.toNet u).mapError fun e => unavailable w cfg.cardUrl e.text)
  if withCreds then requireOrigin w cfg u
  return card.url

def fetchOauthToken : M String := do
  match (← get).oauthToken with
  | some token => return token
  | none =>
    match cfg.auth.tokenUrl.filter (· ≠ "") with
    | none => throw (unavailable w cfg.cardUrl [.own "oauth2 auth requires token_url"])
    | some url =>
      request ⟨.post, url, none⟩
      let token ← raiseOr (← read w.token)
      modify fun s => { s with oauthToken := some token }
      return token

def cardOauthFlow : M Bool := do
  let s ← get
  if s.oauthResolved then return s.oauthFlow
  match s.cardV1 with
  | none => return false
  | some card =>
    if cfg.auth.scheme ≠ .none ∨ card.securityRequirements = [] then return false
    let flow ← raiseOr (w.selectOauthFlow card)
    modify fun s => { s with oauthFlow := flow, oauthResolved := true }
    return flow

def authHeaders : M (Option String) := do
  match cfg.auth.scheme, cfg.auth.bearerToken with
  | .bearer, some token => return some ("Bearer " ++ token)
  | .oauth2ClientCredentials, _ =>
    let token ← fetchOauthToken w cfg
    return some ("Bearer " ++ token)
  | _, _ =>
    if ← cardOauthFlow w cfg then
      let token ← raiseOr (← read w.accessToken)
      return some ("Bearer " ++ token)
    return none

def openRpc (card : AgentCard) : M Unit := do
  let url ← rpcUrl w cfg card
  let header ← authHeaders w cfg
  request ⟨.post, url, header⟩

def sendTask : M Unit := do
  let card ← ensureCard w cfg
  openRpc w cfg card
  raiseOr (← read w.answer)

def requireV1 : M Unit := do
  if (← get).version ≠ some .v1 then throw [.own "ListTasks requires an A2A 1.0 peer"]

def refuseLegacy : M Unit :=
  if cfg.protocol = some .v03 then throw [.own "ListTasks requires an A2A 1.0 peer"] else pure ()

def decideKnown : M Unit := do
  match (← get).card with
  | some card =>
    settleVersion cfg card
    requireV1
  | none => pure ()

def listTasks : M Unit := do
  refuseLegacy cfg
  decideKnown cfg
  let card ← ensureCard w cfg
  requireV1
  openRpc w cfg card
  raiseOr (← read w.answer)

def cancel : M Unit := do
  let card ← ensureCard w cfg
  openRpc w cfg card
  raiseOr (← read w.answer)

inductive Call where
  | sendTask
  | listTasks
  | cancel
  deriving DecidableEq

def Call.run : Call → M Unit
  | .sendTask => Client.sendTask w cfg
  | .listTasks => Client.listTasks w cfg
  | .cancel => Client.cancel w cfg

end Prismal.A2A.Client
