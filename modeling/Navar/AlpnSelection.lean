import Navar.HyperRequests
import Navar.TokioBuilds

/-! # Protocol selection by ALPN

A transport may report a negotiated protocol for a stream and for a connection; each of the two
reports is `None` unless the transport overrides it. The handshake reads the one of the stream. -/
namespace AlpnSelection

open ByteBuffers (Bytes)
open LossyText (Str)
open HttpMessages (Uri)
open TokioDialing (TokioConnection TokioIo context)
open TokioBuilds (PlainConnection)
open HyperRequests (HyperSender)

variable {C B α κ ν τ υ q μ : Type}

/-- The methods of `Connection`, and the one of its `BidiStream` that the handshake calls. -/
structure Connection (C B : Type) where
  openBidirectional : C → Except Str B
  alpnProtocol : C → Option Bytes := fun _ => none
  streamAlpn : B → Option Bytes := fun _ => none

/-- `TokioIo::alpn_protocol`, given what the TLS session of a stream has negotiated. -/
def tokioAlpn (session : υ → Option Bytes) : TokioIo τ υ → Option Bytes
  | .tls stream => session stream
  | .plain _ => none

/-- The streams report what TLS has negotiated, and `TokioConnection` reports nothing. -/
def tokioConnection (tcpConnect : α → Except Str τ) (tlsConnect : κ → ν → τ → Except Str υ)
    (session : υ → Option Bytes) : Connection (TokioConnection α κ ν) (TokioIo τ υ) where
  openBidirectional := TokioDialing.openBidirectional tcpConnect tlsConnect
  streamAlpn := tokioAlpn session

/-- `TokioConnection` of the build without TLS. -/
def plainConnection (tcpConnect : α → Except Str τ) (session : υ → Option Bytes) :
    Connection (PlainConnection α) (TokioIo τ υ) where
  openBidirectional := TokioBuilds.openBidirectionalPlain tcpConnect
  streamAlpn := tokioAlpn session

structure IrohConnection (q : Type) where
  inner : q

/-- `IrohConnection` reports what its QUIC connection has negotiated, and `IrohBidiStream` returns
`None`. -/
def irohConnection (openBi : q → Except Str B) (alpn : q → Bytes) :
    Connection (IrohConnection q) B where
  openBidirectional conn := openBi conn.inner
  alpnProtocol conn := some (alpn conn.inner)
  streamAlpn _ := none

structure IrohTransport where
  alpns : List Bytes

def defaultAlpn : Bytes := [110, 48, 47, 110, 97, 118, 97, 114]

/-- `IrohTransport::connect`, given how a public key is read and what the endpoint returns. -/
def IrohTransport.connect (host : Str → Str) (fromStr : Str → Option μ)
    (endpointConnect : μ → Bytes → Option q) (transport : IrohTransport) (uri : Uri) :
    Except Str (IrohConnection q) := do
  let pubkey ← context "URI missing host" (uri.authority.map host)
  let remoteId ← context "Invalid Iroh Public Key" (fromStr pubkey)
  let alpn := transport.alpns.head?.getD defaultAlpn
  let connection ← context "Failed to connect to iroh endpoint" (endpointConnect remoteId alpn)
  .ok { inner := connection }

inductive Protocol where
  | auto
  | http1
  | http2
  deriving DecidableEq, Repr

def h2 : Bytes := [104, 50]

def useH2 : Protocol → Option Bytes → Bool
  | .http2, _ => true
  | .http1, _ => false
  | .auto, alpn => decide (alpn = some h2)

/-- What `hyper`'s handshakes return on a stream. -/
structure Hyper (B : Type) where
  http1 : B → Except Str Unit
  http2 : B → Except Str Unit

/-- `HyperApp::handshake`, with the handshakes that it has performed. -/
def handshake (m : Connection C B) (hyper : Hyper B) (protocol : Protocol) (conn : C) :
    Except Str HyperSender × List HyperSender :=
  match m.openBidirectional conn with
  | .error e => (.error e, [])
  | .ok io =>
    if useH2 protocol (m.streamAlpn io) then (hyper.http2 io >>= fun _ => .ok .h2, [.h2])
    else (hyper.http1 io >>= fun _ => .ok .h1, [.h1])

/-- The protocol negotiated: the report of the stream or else the one of the connection. -/
def negotiated (m : Connection C B) (conn : C) (io : B) : Option Bytes :=
  (m.streamAlpn io).or (m.alpnProtocol conn)

/-- Whenever the handshake has a stream, it performs the one of HTTP/2 if and only if that is what
was negotiated, and else the one of HTTP/1. -/
def Selects (m : Connection C B) (hyper : Hyper B) (conn : C) : Prop :=
  ∀ io, m.openBidirectional conn = .ok io →
    (HyperSender.h2 ∈ (handshake m hyper .auto conn).2 ↔ negotiated m conn io = some h2)

section selection

variable {m : Connection C B} {hyper : Hyper B} {conn : C}

theorem handshake_http2_iff {io : B} (h : m.openBidirectional conn = .ok io) :
    HyperSender.h2 ∈ (handshake m hyper .auto conn).2 ↔ m.streamAlpn io = some h2 := by
  simp only [handshake, h]
  split_ifs with hh2
  · simpa [useH2] using hh2
  · simpa [useH2] using hh2

theorem negotiated_iff (io : B) : negotiated m conn io = some h2 ↔
    m.streamAlpn io = some h2 ∨ (m.streamAlpn io = none ∧ m.alpnProtocol conn = some h2) := by
  unfold negotiated
  cases m.streamAlpn io with
  | none => simp
  | some alpn => simp

/-- The selection is right unless the stream reports nothing where the connection reports h2. -/
theorem selects_iff : Selects m hyper conn ↔ ∀ io, m.openBidirectional conn = .ok io →
    ¬ (m.streamAlpn io = none ∧ m.alpnProtocol conn = some h2) := by
  apply forall_congr'
  intro io
  apply imp_congr_right
  intro h
  rw [handshake_http2_iff h, negotiated_iff]
  constructor
  · rintro hiff ⟨hnone, hconn⟩
    have hstream := hiff.mpr (.inr ⟨hnone, hconn⟩)
    rw [hnone] at hstream
    cases hstream
  · intro hnot
    refine ⟨Or.inl, ?_⟩
    rintro (hstream | hboth)
    · exact hstream
    · exact absurd hboth hnot

/-- A transport that reports nothing for a connection has the selection right. -/
theorem selects_of_stream (h : ∀ conn, m.alpnProtocol conn = none) : Selects m hyper conn := by
  rw [selects_iff]
  rintro io - ⟨-, hconn⟩
  rw [h] at hconn
  cases hconn

end selection

/-- Over TCP, with and without TLS, and in the build without TLS, the selection follows the
negotiated protocol; over Iroh it does exactly when no stream can be opened or the protocol is not
h2. -/
theorem selection_follows_alpn_iff (tcpConnect : α → Except Str τ)
    (tlsConnect : κ → ν → τ → Except Str υ) (session : υ → Option Bytes)
    (openBi : q → Except Str B) (alpn : q → Bytes) (hyper : Hyper (TokioIo τ υ))
    (hyper' : Hyper B) (tokio : TokioConnection α κ ν) (plain : PlainConnection α)
    (iroh : IrohConnection q) :
    Selects (tokioConnection tcpConnect tlsConnect session) hyper tokio ∧
      Selects (plainConnection tcpConnect session) hyper plain ∧
      (Selects (irohConnection openBi alpn) hyper' iroh ↔
        (∀ io, openBi iroh.inner ≠ .ok io) ∨ alpn iroh.inner ≠ h2) := by
  refine ⟨selects_of_stream fun _ => rfl, selects_of_stream fun _ => rfl, ?_⟩
  rw [selects_iff]
  constructor
  · intro h
    by_cases hopen : ∃ io, openBi iroh.inner = .ok io
    · right
      obtain ⟨io, hio⟩ := hopen
      exact fun halpn => h io hio ⟨rfl, congrArg some halpn⟩
    · exact .inl (not_exists.mp hopen)
  · rintro (hnone | hother) io hio ⟨-, hconn⟩
    · exact hnone io hio
    · exact hother (Option.some.inj hconn)

/-- What an endpoint connects negotiates the protocol that is offered. -/
abbrev offering : Connection (IrohConnection Bytes) Unit :=
  irohConnection (fun _ => .ok ()) id

def willingPeer : Hyper Unit where
  http1 _ := .ok ()
  http2 _ := .ok ()

/-- With the ALPN list `[h2]` the connection has negotiated h2, and the handshake is HTTP/1. -/
theorem iroh_h2_not_selected :
    ∃ conn, IrohTransport.connect id some (fun _ alpn => some alpn) ⟨[h2]⟩
        ⟨none, some ['k'], []⟩ = .ok conn ∧
      negotiated offering conn () = some h2 ∧
      handshake offering willingPeer .auto conn = (.ok .h1, [.h1]) ∧
      ¬ Selects offering willingPeer conn := by
  refine ⟨⟨h2⟩, rfl, rfl, rfl, ?_⟩
  intro h
  have hh2 := (h () rfl).mpr rfl
  cases hh2 with
  | tail _ hmem => cases hmem

end AlpnSelection
