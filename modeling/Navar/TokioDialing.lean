import Navar.PoolHistory

/-! # Where the Tokio transport connects, and which session serves a request

`TokioTransport::connect` reads the scheme of the URI as well as its authority. The pool finds
sessions by the authority alone. -/
namespace TokioDialing

open LossyText (Str)
open HttpMessages (Uri)
open TransitionSystems
open SessionPool
open PoolHistory

variable {α κ ν τ υ : Type}

/-- What `connect` calls of other crates: the accessors of an authority, name resolution as a
function of the text `host:port`, and the names that rustls accepts. -/
structure Network (α ν : Type) where
  host : Str → Str
  portU16 : Str → Option ℕ
  lookupHost : Str → Except Str (List α)
  serverName : Str → Option ν

/-- The connector is there whenever the crate is built with TLS and made by `new`. -/
structure TokioTransport (κ : Type) where
  tls : Option κ

structure TokioConnection (α κ ν : Type) where
  addr : α
  tlsConfig : Option (κ × ν)

def context {β : Type} (message : String) : Option β → Except Str β
  | some b => .ok b
  | none => .error message.toList

def https : Str := ['h', 't', 't', 'p', 's']

def isHttps (uri : Uri) : Prop := uri.scheme = some https

instance (uri : Uri) : Decidable (isHttps uri) := inferInstanceAs (Decidable (_ = _))

def port (net : Network α ν) (uri : Uri) : ℕ :=
  (uri.authority.bind net.portU16).getD (if isHttps uri then 443 else 80)

def addrStr (host : Str) (port : ℕ) : Str := host ++ ':' :: Nat.toDigits 10 port

def tlsConfig (net : Network α ν) (transport : TokioTransport κ) (uri : Uri) (host : Str) :
    Except Str (Option (κ × ν)) :=
  if isHttps uri then do
    let tls ← context "TLS support not configured" transport.tls
    let domain ← context "invalid DNS name" (net.serverName host)
    .ok (some (tls, domain))
  else .ok none

def connect (net : Network α ν) (transport : TokioTransport κ) (uri : Uri) :
    Except Str (TokioConnection α κ ν) := do
  let host ← context "URI missing host" (uri.authority.map net.host)
  let addrs ← net.lookupHost (addrStr host (port net uri))
  let addr ← context "DNS resolution failed" addrs.head?
  let tlsConfig ← tlsConfig net transport uri host
  .ok { addr := addr, tlsConfig := tlsConfig }

inductive TokioIo (τ υ : Type) where
  | plain (tcp : τ)
  | tls (stream : υ)

def TokioIo.isTls : TokioIo τ υ → Bool
  | .plain _ => false
  | .tls _ => true

/-- `open_bidirectional`, given what connecting to an address and the TLS handshake return. -/
def openBidirectional (tcpConnect : α → Except Str τ) (tlsConnect : κ → ν → τ → Except Str υ)
    (conn : TokioConnection α κ ν) : Except Str (TokioIo τ υ) := do
  let tcp ← tcpConnect conn.addr
  match conn.tlsConfig with
  | some (connector, domain) => do
    let stream ← tlsConnect connector domain tcp
    .ok (.tls stream)
  | none => .ok (.plain tcp)

structure Target (ν : Type) where
  host : Str
  port : ℕ
  serverName : Option ν
  deriving DecidableEq

/-- The target that `connect` computes from the URI, if it succeeds. -/
def target (net : Network α ν) (transport : TokioTransport κ) (uri : Uri) : Option (Target ν) :=
  match uri.authority, connect net transport uri with
  | some authority, .ok conn =>
    some ⟨net.host authority, port net uri, conn.tlsConfig.map Prod.snd⟩
  | _, _ => none

theorem bind_ok_iff {β γ : Type} {x : Except Str β} {f : β → Except Str γ} {c : γ} :
    x >>= f = .ok c ↔ ∃ b, x = .ok b ∧ f b = .ok c := by
  cases x with
  | error e => simp [bind, Except.bind]
  | ok b => simp [bind, Except.bind]

theorem context_ok_iff {β : Type} {message : String} {o : Option β} {b : β} :
    context message o = .ok b ↔ o = some b := by
  cases o with
  | none => simp [context]
  | some b' => simp [context]

section dialing

variable {net : Network α ν} {transport : TokioTransport κ}

theorem connect_ok {uri : Uri} {conn : TokioConnection α κ ν}
    (h : connect net transport uri = .ok conn) :
    ∃ authority, uri.authority = some authority ∧
      tlsConfig net transport uri (net.host authority) = .ok conn.tlsConfig := by
  simp only [connect, bind_ok_iff, context_ok_iff] at h
  obtain ⟨host, hhost, addrs, -, addr, -, config, hconfig, hconn⟩ := h
  obtain ⟨authority, hauthority, rfl⟩ := Option.map_eq_some_iff.mp hhost
  cases hconn
  exact ⟨authority, hauthority, hconfig⟩

theorem connect_tls_iff {uri : Uri} {conn : TokioConnection α κ ν}
    (h : connect net transport uri = .ok conn) :
    conn.tlsConfig.isSome = true ↔ isHttps uri := by
  obtain ⟨authority, _, hconfig⟩ := connect_ok h
  unfold tlsConfig at hconfig
  by_cases hs : isHttps uri
  · simp only [hs, ↓reduceIte, bind_ok_iff] at hconfig
    obtain ⟨tls, -, domain, -, hconfig⟩ := hconfig
    simp [← Except.ok.inj hconfig, hs]
  · simp only [hs, ↓reduceIte, Except.ok.injEq] at hconfig
    simp [← hconfig, hs]

/-- A connection with TLS opens TLS streams or none. -/
theorem open_tls {conn : TokioConnection α κ ν} (htls : conn.tlsConfig.isSome = true)
    {tcpConnect : α → Except Str τ} {tlsConnect : κ → ν → τ → Except Str υ} {io : TokioIo τ υ}
    (h : openBidirectional tcpConnect tlsConnect conn = .ok io) : io.isTls = true := by
  obtain ⟨⟨connector, domain⟩, hconfig⟩ := Option.isSome_iff_exists.mp htls
  simp only [openBidirectional, hconfig, bind_ok_iff] at h
  obtain ⟨tcp, -, stream, -, h⟩ := h
  exact Except.ok.inj h ▸ rfl

/-- Only the authority and whether the scheme is https enter into the connection. -/
theorem connect_congr (net : Network α ν) (transport : TokioTransport κ) {uri uri' : Uri}
    (ha : uri.authority = uri'.authority) (hs : isHttps uri ↔ isHttps uri') :
    connect net transport uri = connect net transport uri' ∧
      target net transport uri = target net transport uri' := by
  have hport : port net uri = port net uri' := by simp only [port, ha, hs]
  have hconnect : connect net transport uri = connect net transport uri' := by
    simp only [connect, tlsConfig, ha, hport, hs]
  refine ⟨hconnect, ?_⟩
  simp only [target, ha, hconnect, hport]

end dialing

/-- Calls of the base service over the transport: they request URIs of `R`. -/
def tokioEnvironment (net : Network α ν) (transport : TokioTransport κ) (shard : Str → ℕ)
    (R : Uri → Prop) : Environment where
  shard := shard
  requests _ uri := R uri
  connects uri := ∃ conn, connect net transport uri = .ok conn

/-- Each request is sent on a session over a connection with the target that connecting for its
own URI has; for an https request that connection opens TLS streams only. -/
def Transparent (net : Network α ν) (transport : TokioTransport κ) (s : State) : Prop :=
  ∀ m ∈ s.sent, ∃ h uri conn, s.handshakes[m.session]? = some h ∧
    s.connections[h.conn]? = some uri ∧ connect net transport uri = .ok conn ∧
    connect net transport m.uri = .ok conn ∧
    target net transport uri = target net transport m.uri ∧
    (isHttps m.uri → ∀ (τ υ : Type) (tcpConnect : α → Except Str τ)
      (tlsConnect : κ → ν → τ → Except Str υ) (io : TokioIo τ υ),
      openBidirectional tcpConnect tlsConnect conn = .ok io → io.isTls = true)

section transparency

variable {net : Network α ν} {transport : TokioTransport κ} {shard : Str → ℕ} {R : Uri → Prop}

/-- Requests of one authority never mix https with another scheme, once a connection for that
authority succeeds. -/
def Uniform (net : Network α ν) (transport : TokioTransport κ) (R : Uri → Prop) : Prop :=
  ∀ uri uri' conn, R uri → R uri' → uri.authority = uri'.authority →
    connect net transport uri = .ok conn → (isHttps uri ↔ isHttps uri')

theorem transparent_of_uniform (hu : Uniform net transport R) {s : State}
    (hs : Reachable (system (tokioEnvironment net transport shard R)) s) :
    Transparent net transport s := by
  intro m hm
  have hreq := reachable_requests hs
  have hpool := reachable_pool hs
  obtain ⟨key, hkey, hmem⟩ := hpool.pooled m hm
  obtain ⟨h, uri, hh, hc, ha⟩ := hpool.origin key m.session hmem
  obtain ⟨⟨conn, hconn⟩, t, hR⟩ := hreq.dialled uri (List.mem_of_getElem? hc)
  have hauth : uri.authority = m.uri.authority := ha.trans hkey.symm
  have hsame := hu uri m.uri conn hR (hreq.sent m hm) hauth hconn
  obtain ⟨hconnect, htarget⟩ := connect_congr net transport hauth hsame
  refine ⟨h, uri, conn, hh, hc, hconn, hconnect ▸ hconn, htarget, ?_⟩
  intro hs τ υ tcpConnect tlsConnect io hio
  exact open_tls ((connect_tls_iff hconn).mpr (hsame.mpr hs)) hio

def oneAfterTheOther (uri uri' : Uri) (key : Str) : List Event :=
  [.call 0 uri, .vacant 0 uri key, .connected 0 uri key, .handshaken 0 uri key 0, .call 1 uri',
    .occupied 1 uri' key 0]

theorem one_after_the_other {env : Environment} {uri uri' : Uri} {key : Str}
    (ha : uri.authority = some key) (ha' : uri'.authority = some key)
    (hreq : env.requests 0 uri) (hreq' : env.requests 1 uri') (hconn : env.connects uri) :
    (system env).Allowed initial (oneAfterTheOther uri uri' key) := by
  have hentry : ∀ {s : State}, s.pool = [(key, 0)] → s.entry key = .occupied 0 := by
    intro s hp
    simp [State.entry, hp]
  refine ⟨⟨rfl, hreq⟩, ⟨rfl, ha, rfl, rfl⟩, ⟨rfl, hconn⟩, rfl, ⟨rfl, hreq'⟩,
    ⟨rfl, ha', ?_, hentry rfl⟩, trivial⟩
  simp [system, next, initial, State.send, State.setPhase, State.establish, State.release]

theorem uniform_of_transparent
    (h : ∀ s, Reachable (system (tokioEnvironment net transport shard R)) s →
      Transparent net transport s) : Uniform net transport R := by
  intro uri uri' conn hR hR' hauth hconn
  obtain ⟨key, hkey, _⟩ := connect_ok hconn
  have hrun : (system (tokioEnvironment net transport shard R)).Allowed initial
      (oneAfterTheOther uri uri' key) :=
    one_after_the_other hkey (hauth ▸ hkey) hR hR' ⟨conn, hconn⟩
  obtain ⟨hs, uri₀, conn₀, hh, hc, hconn₀, hconn', _⟩ := h _ (execution_run hrun)
    ⟨1, uri', 0⟩ (List.mem_append_right _ (List.mem_singleton_self _))
  obtain rfl : ⟨0, 0⟩ = hs := Option.some.inj hh
  obtain rfl : uri = uri₀ := Option.some.inj hc
  rw [← connect_tls_iff hconn₀, ← connect_tls_iff hconn']

end transparency

/-- Pooling by authority is transparent, in every run of calls that request URIs of `R`, exactly
when no two of these URIs agree in their authority and differ in using https. -/
theorem pooling_transparent_iff (net : Network α ν) (transport : TokioTransport κ)
    (shard : Str → ℕ) (R : Uri → Prop) :
    (∀ s, Reachable (system (tokioEnvironment net transport shard R)) s →
      Transparent net transport s) ↔ Uniform net transport R :=
  ⟨uniform_of_transparent, fun hu _ hs => transparent_of_uniform hu hs⟩

/-- Every name resolves, every host is a server name, and no authority has a port. -/
def plainNetwork : Network Unit Unit where
  host authority := authority
  portU16 _ := none
  lookupHost _ := .ok [()]
  serverName _ := some ()

def secureUriA : Uri := ⟨some https, some ['a'], ['/']⟩

/-- `http://a/` and then `https://a/`: the second request travels without TLS. -/
theorem https_request_sent_without_tls :
    ∃ s, Reachable (system (tokioEnvironment plainNetwork ⟨some ()⟩ (fun _ => 0)
        fun uri => uri = uriA ∨ uri = secureUriA)) s ∧
      ⟨1, secureUriA, 0⟩ ∈ s.sent ∧ s.handshakes = [⟨0, 0⟩] ∧ s.connections = [uriA] ∧
      connect plainNetwork ⟨some ()⟩ uriA = .ok ⟨(), none⟩ ∧
      connect plainNetwork ⟨some ()⟩ secureUriA = .ok ⟨(), some ((), ())⟩ ∧
      ¬Transparent plainNetwork (⟨some ()⟩ : TokioTransport Unit) s := by
  have hrun : (system (tokioEnvironment plainNetwork ⟨some ()⟩ (fun _ => 0)
      fun uri => uri = uriA ∨ uri = secureUriA)).Allowed initial
      (oneAfterTheOther uriA secureUriA ['a']) :=
    one_after_the_other rfl rfl (Or.inl rfl) (Or.inr rfl) ⟨_, rfl⟩
  refine ⟨_, execution_run hrun, ?_, rfl, rfl, rfl, rfl, ?_⟩
  · exact List.mem_append_right _ (List.mem_singleton_self _)
  · intro h
    obtain ⟨hs, uri, conn, hh, hc, hconn, hconn', _⟩ := h ⟨1, secureUriA, 0⟩
      (List.mem_append_right _ (List.mem_singleton_self _))
    obtain rfl : ⟨0, 0⟩ = hs := Option.some.inj hh
    obtain rfl : uriA = uri := Option.some.inj hc
    have hplain : ¬isHttps uriA := by decide
    exact hplain ((connect_tls_iff hconn).mp ((connect_tls_iff hconn').mpr rfl))

end TokioDialing
