import Navar.AlpnSelection
import Navar.TokioDialing

/-! # Which endpoint serves a request over Iroh

The pool knows of a URI only its authority. A transport that reads no more of it than that is
never asked to serve a request on a connection to somewhere else, and `IrohTransport` is one. -/
namespace IrohDialing

open ByteBuffers (Bytes)
open LossyText (Str)
open HttpMessages (Uri)
open TransitionSystems
open SessionPool
open PoolHistory
open TokioDialing (context context_ok_iff bind_ok_iff oneAfterTheOther one_after_the_other)
open AlpnSelection

variable {μ q T : Type}

def environment (shard : Str → ℕ) (R C : Uri → Prop) : Environment where
  shard := shard
  requests _ uri := R uri
  connects := C

/-- Each request is sent on a session whose connection was made for a URI with the same target. -/
def Kept (target : Uri → T) (s : State) : Prop :=
  ∀ m ∈ s.sent, ∃ h uri, s.handshakes[m.session]? = some h ∧
    s.connections[h.conn]? = some uri ∧ target uri = target m.uri

section pooling

variable {shard : Str → ℕ} {R C : Uri → Prop} {target : Uri → T}

/-- Where the authority of the URIs that are requested determines the target. -/
def Determined (R C : Uri → Prop) (target : Uri → T) : Prop :=
  ∀ uri uri' key, R uri → R uri' → uri.authority = some key → uri'.authority = some key →
    C uri → target uri = target uri'

theorem kept_of_determined (hd : Determined R C target) {s : State}
    (hs : Reachable (system (environment shard R C)) s) : Kept target s := by
  intro m hm
  have hreq := reachable_requests hs
  have hpool := reachable_pool hs
  obtain ⟨key, hkey, hmem⟩ := hpool.pooled m hm
  obtain ⟨h, uri, hh, hc, ha⟩ := hpool.origin key m.session hmem
  obtain ⟨hconn, t, hR⟩ := hreq.dialled uri (List.mem_of_getElem? hc)
  exact ⟨h, uri, hh, hc, hd uri m.uri key hR (hreq.sent m hm) ha hkey hconn⟩

theorem determined_of_kept
    (h : ∀ s, Reachable (system (environment shard R C)) s → Kept target s) :
    Determined R C target := by
  intro uri uri' key hR hR' hkey hkey' hconn
  have hrun : (system (environment shard R C)).Allowed initial (oneAfterTheOther uri uri' key) :=
    one_after_the_other hkey hkey' hR hR' hconn
  obtain ⟨hs, uri₀, hh, hc, htarget⟩ := h _ (execution_run hrun)
    ⟨1, uri', 0⟩ (List.mem_append_right _ (List.mem_singleton_self _))
  obtain rfl : ⟨0, 0⟩ = hs := Option.some.inj hh
  obtain rfl : uri = uri₀ := Option.some.inj hc
  exact htarget

theorem kept_iff :
    (∀ s, Reachable (system (environment shard R C)) s → Kept target s) ↔
      Determined R C target :=
  ⟨determined_of_kept, fun hd _ hs => kept_of_determined hd hs⟩

end pooling

section dialing

variable (host : Str → Str) (fromStr : Str → Option μ) (endpointConnect : μ → Bytes → Option q)
  (transport : IrohTransport)

/-- The endpoint and the protocol that `connect` asks for. -/
def target (uri : Uri) : Option (μ × Bytes) := do
  let authority ← uri.authority
  let remoteId ← fromStr (host authority)
  some (remoteId, transport.alpns.head?.getD defaultAlpn)

theorem connect_ok_iff {uri : Uri} {conn : IrohConnection q} :
    transport.connect host fromStr endpointConnect uri = .ok conn ↔
      ∃ remoteId alpn, target host fromStr transport uri = some (remoteId, alpn) ∧
        endpointConnect remoteId alpn = some conn.inner := by
  obtain ⟨inner⟩ := conn
  simp only [IrohTransport.connect, bind_ok_iff, context_ok_iff, target, Option.bind_eq_bind,
    Option.bind_eq_some_iff, Option.map_eq_some_iff, Option.some.injEq, Prod.mk.injEq]
  constructor
  · rintro ⟨_, ⟨authority, ha, rfl⟩, remoteId, hid, quic, hquic, heq⟩
    cases heq
    exact ⟨remoteId, _, ⟨authority, ha, remoteId, hid, rfl, rfl⟩, hquic⟩
  · rintro ⟨remoteId, alpn, ⟨authority, ha, _, hid, rfl, rfl⟩, hquic⟩
    exact ⟨_, ⟨authority, ha, rfl⟩, _, hid, inner, hquic, rfl⟩

/-- The pool over the transport, with the URIs that connecting may succeed for. -/
def irohEnvironment (shard : Str → ℕ) (R : Uri → Prop) : Environment :=
  environment shard R fun uri =>
    ∃ conn, transport.connect host fromStr endpointConnect uri = .ok conn

end dialing

/-- In every run, whatever URIs are requested, each request is sent on a session over a connection
to the endpoint whose key is the host of its own URI, made with the first protocol of the list. -/
theorem pooled_by_endpoint (host : Str → Str) (fromStr : Str → Option μ)
    (endpointConnect : μ → Bytes → Option q) (transport : IrohTransport) (shard : Str → ℕ)
    (R : Uri → Prop) {s : State}
    (hs : Reachable (system (irohEnvironment host fromStr endpointConnect transport shard R)) s) :
    ∀ m ∈ s.sent, ∃ h uri authority remoteId, s.handshakes[m.session]? = some h ∧
      s.connections[h.conn]? = some uri ∧ m.uri.authority = some authority ∧
      fromStr (host authority) = some remoteId ∧
      target host fromStr transport uri =
        some (remoteId, transport.alpns.head?.getD defaultAlpn) ∧
      ∃ conn, transport.connect host fromStr endpointConnect uri = .ok conn := by
  intro m hm
  have hdetermined : Determined R
      (fun uri => ∃ conn, transport.connect host fromStr endpointConnect uri = .ok conn)
      (target host fromStr transport) := by
    intro uri uri' key _ _ hkey hkey' _
    rw [target, target, hkey, hkey']
  obtain ⟨h, uri, hh, hc, htarget⟩ := kept_iff.mpr hdetermined s hs m hm
  obtain ⟨⟨conn, hconn⟩, _⟩ := (reachable_requests hs).dialled uri (List.mem_of_getElem? hc)
  obtain ⟨remoteId, alpn, hasked, _⟩ :=
    (connect_ok_iff host fromStr endpointConnect transport).mp hconn
  have hown := htarget.symm.trans hasked
  simp only [target, Option.bind_eq_bind, Option.bind_eq_some_iff, Option.some.injEq,
    Prod.mk.injEq] at hown
  obtain ⟨authority, ha, id, hid, rfl, rfl⟩ := hown
  exact ⟨h, uri, authority, id, hh, hc, ha, hid, hasked, conn, hconn⟩

/-- Two schemes and one key: the second request travels over the connection of the first. -/
theorem pooled_by_endpoint_shared :
    let env := irohEnvironment id some (fun id alpn => some (id, alpn)) ⟨[]⟩ (fun _ => 0)
      fun uri => uri = uriA ∨ uri = TokioDialing.secureUriA
    let s := (system env).run initial (oneAfterTheOther uriA TokioDialing.secureUriA ['a'])
    s.connections = [uriA] ∧ ∀ m ∈ s.sent, ∃ h uri authority remoteId,
      s.handshakes[m.session]? = some h ∧ s.connections[h.conn]? = some uri ∧
      m.uri.authority = some authority ∧ some (id authority) = some remoteId ∧
      target id some ⟨[]⟩ uri = some (remoteId, defaultAlpn) ∧
      ∃ conn, IrohTransport.connect id some (fun id alpn => some (id, alpn)) ⟨[]⟩ uri =
        .ok conn := by
  intro env s
  have hrun : (system env).Allowed initial
      (oneAfterTheOther uriA TokioDialing.secureUriA ['a']) :=
    one_after_the_other rfl rfl (Or.inl rfl) (Or.inr rfl) ⟨_, rfl⟩
  exact ⟨rfl, pooled_by_endpoint id some _ ⟨[]⟩ _ _ (execution_run hrun)⟩

end IrohDialing
