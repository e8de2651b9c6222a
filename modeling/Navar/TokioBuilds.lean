import Navar.TokioDialing

/-! # The two builds of the Tokio transport

Without the feature `tls` the transport has no connector, a connection has no TLS configuration,
and opening a stream has no branch for one. -/
namespace TokioBuilds

open LossyText (Str)
open HttpMessages (Uri)
open TransitionSystems
open TokioDialing

variable {α κ ν τ υ : Type}

inductive Build where
  | withTls
  | withoutTls
  deriving DecidableEq, Repr

/-- `TokioConnection` of the build without TLS. -/
structure PlainConnection (α : Type) where
  addr : α

/-- `connect` of the build without TLS. -/
def connectPlain (net : Network α ν) (uri : Uri) : Except Str (PlainConnection α) := do
  let host ← context "URI missing host" (uri.authority.map net.host)
  let addrs ← net.lookupHost (addrStr host (port net uri))
  let addr ← context "DNS resolution failed" addrs.head?
  .ok { addr := addr }

/-- `open_bidirectional` of the build without TLS. -/
def openBidirectionalPlain (tcpConnect : α → Except Str τ) (conn : PlainConnection α) :
    Except Str (TokioIo τ υ) := do
  let tcp ← tcpConnect conn.addr
  .ok (.plain tcp)

namespace Build

def Connection (α κ ν : Type) : Build → Type
  | .withTls => TokioConnection α κ ν
  | .withoutTls => PlainConnection α

def connect (net : Network α ν) (transport : TokioTransport κ) (uri : Uri) :
    (build : Build) → Except Str (build.Connection α κ ν)
  | .withTls => TokioDialing.connect net transport uri
  | .withoutTls => connectPlain net uri

def openBidirectional (tcpConnect : α → Except Str τ) (tlsConnect : κ → ν → τ → Except Str υ) :
    (build : Build) → build.Connection α κ ν → Except Str (TokioIo τ υ)
  | .withTls => TokioDialing.openBidirectional tcpConnect tlsConnect
  | .withoutTls => openBidirectionalPlain tcpConnect

end Build

/-- A call of `open_bidirectional`, with what connecting and the TLS handshake returned in it. -/
structure Opening (α κ ν τ υ : Type) where
  tcpConnect : α → Except Str τ
  tlsConnect : κ → ν → τ → Except Str υ
  result : Except Str (TokioIo τ υ)

/-- The clones of a connection, and the streams opened on them. -/
structure State (α κ ν τ υ : Type) (build : Build) where
  handles : List (build.Connection α κ ν)
  openings : List (Opening α κ ν τ υ)

inductive Event (α κ ν τ υ : Type) where
  | clone (h : ℕ)
  | openBidirectional (h : ℕ) (tcpConnect : α → Except Str τ)
      (tlsConnect : κ → ν → τ → Except Str υ)

def system (τ υ : Type) (build : Build) (conn : build.Connection α κ ν) :
    System (State α κ ν τ υ build) (Event α κ ν τ υ) where
  initial := ⟨[conn], []⟩
  Enabled s
    | .clone h => h < s.handles.length
    | .openBidirectional h _ _ => h < s.handles.length
  next s
    | .clone h => { s with handles := s.handles ++ s.handles[h]?.toList }
    | .openBidirectional h tcpConnect tlsConnect =>
      { s with openings := s.openings ++ (s.handles[h]?.map fun c =>
          ⟨tcpConnect, tlsConnect, build.openBidirectional tcpConnect tlsConnect c⟩).toList }

/-- The call failed, or gave a TLS stream on which the server has proved to be the host. -/
def Secured (net : Network α ν) (uri : Uri) (o : Opening α κ ν τ υ) : Prop :=
  ∀ io, o.result = .ok io → ∃ authority connector domain tcp stream,
    uri.authority = some authority ∧ net.serverName (net.host authority) = some domain ∧
      o.tlsConnect connector domain tcp = .ok stream ∧ io = .tls stream

def NeverDowngrades (τ υ : Type) (net : Network α ν) (transport : TokioTransport κ) (uri : Uri)
    (build : Build) : Prop :=
  ∀ conn, build.connect net transport uri = .ok conn →
    ∀ s, Reachable (system τ υ build conn) s → ∀ o ∈ s.openings, Secured net uri o

/-- The URI has no host, or its host has no address. -/
def Unresolved (net : Network α ν) (uri : Uri) : Prop :=
  ∀ authority, uri.authority = some authority →
    ∀ addrs, net.lookupHost (addrStr (net.host authority) (port net uri)) = .ok addrs → addrs = []

section runs

variable {build : Build} {conn : build.Connection α κ ν} {s : State α κ ν τ υ build}

theorem reachable_handles (hs : Reachable (system τ υ build conn) s) :
    (∀ c ∈ s.handles, c = conn) ∧ ∀ o ∈ s.openings,
      o.result = build.openBidirectional o.tcpConnect o.tlsConnect conn := by
  refine reachable_of_step (P := fun s => (∀ c ∈ s.handles, c = conn) ∧ ∀ o ∈ s.openings,
    o.result = build.openBidirectional o.tcpConnect o.tlsConnect conn) ?_ ?_ hs
  · exact ⟨fun c hc => List.mem_singleton.mp hc, fun o ho => nomatch ho⟩
  · rintro s (h | ⟨h, tcpConnect, tlsConnect⟩) ⟨hhandles, hopenings⟩ he
    · refine ⟨?_, hopenings⟩
      intro c hc
      rcases List.mem_append.mp hc with hc | hc
      · exact hhandles c hc
      · exact hhandles c (List.mem_of_getElem? (Option.mem_toList.mp hc))
    · refine ⟨hhandles, ?_⟩
      intro o ho
      rcases List.mem_append.mp ho with ho | ho
      · exact hopenings o ho
      · obtain ⟨c, hc, rfl⟩ := Option.map_eq_some_iff.mp (Option.mem_toList.mp ho)
        rw [hhandles c (List.mem_of_getElem? hc)]

end runs

section builds

variable {net : Network α ν} {transport : TokioTransport κ} {uri : Uri}

/-- A connection for an https URI has a connector and the name of the URI's host. -/
theorem connect_https (hs : isHttps uri) {conn : TokioConnection α κ ν}
    (h : connect net transport uri = .ok conn) : ∃ authority connector domain,
      uri.authority = some authority ∧ net.serverName (net.host authority) = some domain ∧
        conn.tlsConfig = some (connector, domain) := by
  obtain ⟨authority, hauthority, hconfig⟩ := connect_ok h
  obtain ⟨⟨connector, domain⟩, htls⟩ :=
    Option.isSome_iff_exists.mp ((connect_tls_iff h).mpr hs)
  refine ⟨authority, connector, domain, hauthority, ?_, htls⟩
  simp only [tlsConfig, if_pos hs, htls, bind_ok_iff, context_ok_iff] at hconfig
  obtain ⟨tls, -, name, hname, hconfig⟩ := hconfig
  cases hconfig
  exact hname

theorem openBidirectional_secured (hs : isHttps uri) {conn : TokioConnection α κ ν}
    (h : connect net transport uri = .ok conn) (tcpConnect : α → Except Str τ)
    (tlsConnect : κ → ν → τ → Except Str υ) :
    Secured net uri ⟨tcpConnect, tlsConnect, openBidirectional tcpConnect tlsConnect conn⟩ := by
  obtain ⟨authority, connector, domain, hauthority, hname, htls⟩ := connect_https hs h
  intro io hio
  simp only [openBidirectional, htls, bind_ok_iff] at hio
  obtain ⟨tcp, -, stream, hstream, hio⟩ := hio
  exact ⟨authority, connector, domain, tcp, stream, hauthority, hname, hstream,
    (Except.ok.inj hio).symm⟩

theorem connectPlain_ok_iff :
    (∃ conn, connectPlain net uri = .ok conn) ↔ ¬ Unresolved net uri := by
  constructor
  · rintro ⟨conn, h⟩ hu
    simp only [connectPlain, bind_ok_iff, context_ok_iff] at h
    obtain ⟨host, hhost, addrs, hl, addr, haddr, -⟩ := h
    obtain ⟨authority, hauthority, rfl⟩ := Option.map_eq_some_iff.mp hhost
    obtain rfl := hu authority hauthority addrs hl
    cases haddr
  · intro hu
    unfold Unresolved at hu
    push Not at hu
    obtain ⟨authority, hauthority, addrs, hl, hne⟩ := hu
    obtain ⟨addr, rest, rfl⟩ := List.exists_cons_of_ne_nil hne
    refine ⟨⟨addr⟩, ?_⟩
    simp only [connectPlain, bind_ok_iff, context_ok_iff]
    exact ⟨_, Option.map_eq_some_iff.mpr ⟨authority, hauthority, rfl⟩, _, hl, addr, rfl, rfl⟩

end builds

theorem plain_opening_allowed [Inhabited τ] (conn : PlainConnection α) :
    (system (κ := κ) (ν := ν) τ υ .withoutTls conn).Allowed
      (system (κ := κ) (ν := ν) τ υ .withoutTls conn).initial
      [.openBidirectional 0 (fun _ => .ok default) (fun _ _ _ => .error [])] :=
  ⟨Nat.zero_lt_one, trivial⟩

/-- Streams opened for an https URI are TLS streams to its host, on every clone of a connection
and in every run, exactly when the crate is built with TLS or cannot connect at all. -/
theorem never_downgrades_iff [Inhabited τ] (net : Network α ν) (transport : TokioTransport κ)
    {uri : Uri} (hs : isHttps uri) (build : Build) :
    NeverDowngrades τ υ net transport uri build ↔ build = .withTls ∨ Unresolved net uri := by
  cases build with
  | withTls =>
    refine ⟨fun _ => Or.inl rfl, ?_⟩
    intro _ conn hconn s hreach o ho io hio
    rw [(reachable_handles hreach).2 o ho] at hio
    exact openBidirectional_secured hs hconn o.tcpConnect o.tlsConnect io hio
  | withoutTls =>
    constructor
    · intro h
      right
      by_contra hu
      obtain ⟨conn, hconn⟩ := connectPlain_ok_iff.mpr hu
      have hrun := execution_run (plain_opening_allowed (κ := κ) (ν := ν) (τ := τ) (υ := υ) conn)
      obtain ⟨_, _, _, _, stream, _, _, _, hio⟩ := h conn hconn _ hrun _
        (List.mem_singleton_self _) _ rfl
      cases hio
    · rintro (h | hu)
      · cases h
      · intro conn hconn
        exact absurd hu (connectPlain_ok_iff.mp ⟨conn, hconn⟩)

theorem never_downgrades_iff_https : NeverDowngrades Unit Unit plainNetwork
    (⟨some ()⟩ : TokioTransport Unit) secureUriA .withTls :=
  have hs : isHttps secureUriA := rfl
  (never_downgrades_iff plainNetwork ⟨some ()⟩ hs .withTls).mpr (Or.inl rfl)

/-- `https://a/` in the build without TLS. -/
theorem https_request_in_plain_stream :
    ∃ conn s o tcp, Build.withoutTls.connect (κ := Unit) plainNetwork ⟨some ()⟩ secureUriA =
        .ok conn ∧ port plainNetwork secureUriA = 443 ∧
      Reachable (system Unit Unit .withoutTls conn) s ∧ o ∈ s.openings ∧
      o.result = .ok (.plain tcp) ∧ ¬ Secured plainNetwork secureUriA o := by
  refine ⟨⟨()⟩, _, _, (), rfl, rfl, execution_run (plain_opening_allowed (κ := Unit) (ν := Unit) _),
    List.mem_singleton_self _, rfl, ?_⟩
  intro h
  obtain ⟨_, _, _, _, stream, _, _, _, hio⟩ := h _ rfl
  cases hio

end TokioBuilds
