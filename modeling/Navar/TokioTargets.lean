import Navar.TokioBuilds

/-! # What the Tokio transport dials

The address, the port and the name for TLS come from one authority, through parsers of other
crates. An authority is given here by its parts, and the parsers by what they document for its
text. -/
namespace TokioTargets

open LossyText (Str)
open HttpMessages (Uri)
open TokioDialing
open TokioBuilds (connectPlain)

variable {α κ ν : Type}

/-- The text of an IPv6 literal is the one between the brackets. -/
inductive Host where
  | name (text : Str)
  | ipv4 (text : Str)
  | ipv6 (text : Str)
  deriving DecidableEq, Repr

def Host.text : Host → Str
  | .name text => text
  | .ipv4 text => text
  | .ipv6 text => '[' :: text ++ [']']

def Host.isIpv6 : Host → Bool
  | .ipv6 _ => true
  | _ => false

structure Authority where
  userinfo : Option Str
  host : Host
  portText : Option Str

def Authority.text (a : Authority) : Str :=
  ((a.userinfo.map (· ++ ['@'])).getD []) ++ a.host.text ++ (a.portText.map (':' :: ·)).getD []

def unsigned : Str → Str
  | '+' :: digits => digits
  | text => text

/-- `u16::from_str`. -/
def parseU16 (text : Str) : Option ℕ :=
  if unsigned text ≠ [] ∧ (unsigned text).all Char.isDigit = true ∧
      Nat.ofDigitChars 10 (unsigned text) 0 < 65536 then
    some (Nat.ofDigitChars 10 (unsigned text) 0)
  else none

/-- What the accessors of the authority and the TLS names document, for this authority. A name of
`ν` stands for a host. -/
structure Documented (net : Network α ν) (denotes : ν → Host) (a : Authority) : Prop where
  host : net.host a.text = a.host.text
  portU16 : net.portU16 a.text = a.portText.bind parseU16
  serverName : a.host.isIpv6 = false →
    ∃ domain, net.serverName a.host.text = some domain ∧ denotes domain = a.host
  bracketed : a.host.isIpv6 = true → net.serverName a.host.text = none

/-- `TokioTransport::new` of the build with TLS, given the configuration that it makes. -/
def TokioTransport.new (config : κ) : TokioTransport κ := { tls := some config }

def defaultPort (uri : Uri) : ℕ := if isHttps uri then 443 else 80

/-- The port of the URI: its port text where there is one, and else the default of the scheme. -/
def portSaid (uri : Uri) (a : Authority) : Option ℕ :=
  match a.portText with
  | some (c :: text) => parseU16 (c :: text)
  | _ => some (defaultPort uri)

/-- Dialling the host at this port reaches an address, which is the first one. -/
def DialsAt (net : Network α ν) (a : Authority) (port : ℕ) (addr : α) : Prop :=
  ∃ addrs, net.lookupHost (addrStr a.host.text port) = .ok addrs ∧ addrs.head? = some addr

/-- A connection is one to the host and the port of the URI; and an https URI with a port that is
absent or valid has one, with the name of the dialled host, when the host resolves. -/
structure DialsAsSaid (net : Network α ν) (transport : TokioTransport κ) (denotes : ν → Host)
    (uri : Uri) (a : Authority) : Prop where
  port : ∀ conn, connect net transport uri = .ok conn →
    ∃ p, portSaid uri a = some p ∧ DialsAt net a p conn.addr
  secure : isHttps uri → ∀ p addr, portSaid uri a = some p → DialsAt net a p addr →
    ∃ conn connector domain, connect net transport uri = .ok conn ∧ conn.addr = addr ∧
      conn.tlsConfig = some (connector, domain) ∧ denotes domain = a.host

/-- The host has an address, at the port of the URI or, for a port text that is no port, at the
default of the scheme. -/
def Resolves (net : Network α ν) (uri : Uri) (a : Authority) : Prop :=
  ∃ addr, DialsAt net a ((portSaid uri a).getD (defaultPort uri)) addr

section dialing

variable {net : Network α ν} {denotes : ν → Host} {uri : Uri} {a : Authority}

theorem port_eq (h : Documented net denotes a) (ha : uri.authority = some a.text) :
    port net uri = (portSaid uri a).getD (defaultPort uri) := by
  simp only [port, ha, Option.bind_some, h.portU16, portSaid]
  cases a.portText with
  | none => rfl
  | some text =>
    cases text with
    | nil => rfl
    | cons c text => rfl

theorem connect_ok_iff (h : Documented net denotes a) (ha : uri.authority = some a.text)
    (config : κ) (conn : TokioConnection α κ ν) :
    connect net (TokioTransport.new config) uri = .ok conn ↔
      DialsAt net a ((portSaid uri a).getD (defaultPort uri)) conn.addr ∧
        tlsConfig net (TokioTransport.new config) uri a.host.text = .ok conn.tlsConfig := by
  simp only [connect, bind_ok_iff, context_ok_iff, ha, Option.map_some, Option.some.injEq,
    exists_eq_left', h.host, port_eq h ha, DialsAt]
  constructor
  · rintro ⟨addrs, hlookup, addr, haddr, config', hconfig, hconn⟩
    obtain rfl := Except.ok.inj hconn
    exact ⟨⟨addrs, hlookup, haddr⟩, hconfig⟩
  · rintro ⟨⟨addrs, hlookup, haddr⟩, hconfig⟩
    exact ⟨addrs, hlookup, conn.addr, haddr, conn.tlsConfig, hconfig, rfl⟩

theorem connectPlain_ok (h : Documented net denotes a) (ha : uri.authority = some a.text)
    (conn : TokioBuilds.PlainConnection α) :
    connectPlain net uri = .ok conn ↔
      DialsAt net a ((portSaid uri a).getD (defaultPort uri)) conn.addr := by
  simp only [connectPlain, bind_ok_iff, context_ok_iff, ha, Option.map_some, Option.some.injEq,
    exists_eq_left', h.host, port_eq h ha, DialsAt]
  constructor
  · rintro ⟨addrs, hlookup, addr, haddr, hconn⟩
    obtain rfl := Except.ok.inj hconn
    exact ⟨addrs, hlookup, haddr⟩
  · rintro ⟨addrs, hlookup, haddr⟩
    exact ⟨addrs, hlookup, conn.addr, haddr, rfl⟩

/-- TLS is configured for every URI but an https URI with an IPv6 literal. -/
theorem tlsConfig_ok_iff (h : Documented net denotes a) (config : κ) :
    (∃ tls, tlsConfig net (TokioTransport.new config) uri a.host.text = .ok tls) ↔
      ¬ (isHttps uri ∧ a.host.isIpv6 = true) := by
  unfold tlsConfig
  by_cases hs : isHttps uri
  · rw [if_pos hs]
    simp only [TokioTransport.new, bind_ok_iff, context_ok_iff, hs, true_and]
    constructor
    · rintro ⟨tls, config', -, domain, hdomain, -⟩ hv6
      rw [h.bracketed hv6] at hdomain
      cases hdomain
    · intro hv6
      obtain ⟨domain, hdomain, _⟩ := h.serverName (Bool.eq_false_iff.mpr hv6)
      exact ⟨_, config, rfl, domain, hdomain, rfl⟩
  · rw [if_neg hs]
    exact ⟨fun _ hboth => hs hboth.1, fun _ => ⟨none, rfl⟩⟩

theorem tlsConfig_https (h : Documented net denotes a) (config : κ) (hs : isHttps uri)
    (hv6 : a.host.isIpv6 = false) : ∃ domain, denotes domain = a.host ∧
      tlsConfig net (TokioTransport.new config) uri a.host.text = .ok (some (config, domain)) := by
  obtain ⟨domain, hdomain, hdenotes⟩ := h.serverName hv6
  refine ⟨domain, hdenotes, ?_⟩
  simp only [tlsConfig, if_pos hs, TokioTransport.new, bind_ok_iff, context_ok_iff]
  exact ⟨config, rfl, domain, hdomain, rfl⟩

theorem dials_as_said_of {config : κ} (h : Documented net denotes a)
    (ha : uri.authority = some a.text)
    (hiff : (portSaid uri a).isSome = true ↔ ¬ (isHttps uri ∧ a.host.isIpv6 = true)) :
    DialsAsSaid net (TokioTransport.new config) denotes uri a := by
  constructor
  · intro conn hconn
    obtain ⟨hdials, htls⟩ := (connect_ok_iff h ha config conn).mp hconn
    have hsaid := hiff.mpr ((tlsConfig_ok_iff h config).mp ⟨_, htls⟩)
    obtain ⟨p, hp⟩ := Option.isSome_iff_exists.mp hsaid
    rw [hp] at hdials
    exact ⟨p, hp, hdials⟩
  · intro hs p addr hp hdials
    have hv6 : a.host.isIpv6 = false := by
      have hnot := hiff.mp (hp ▸ rfl)
      rw [Bool.eq_false_iff]
      exact fun hv6 => hnot ⟨hs, hv6⟩
    obtain ⟨domain, hdenotes, htls⟩ := tlsConfig_https h config hs hv6
    refine ⟨{ addr := addr, tlsConfig := some (config, domain) }, config, domain, ?_, rfl, rfl,
      hdenotes⟩
    rw [connect_ok_iff h ha, hp]
    exact ⟨hdials, htls⟩

theorem iff_of_dials_as_said {config : κ} (h : Documented net denotes a)
    (ha : uri.authority = some a.text) (hres : Resolves net uri a)
    (hsaid : DialsAsSaid net (TokioTransport.new config) denotes uri a) :
    (portSaid uri a).isSome = true ↔ ¬ (isHttps uri ∧ a.host.isIpv6 = true) := by
  obtain ⟨addr, hdials⟩ := hres
  constructor
  · rintro hsome ⟨hs, hv6⟩
    obtain ⟨p, hp⟩ := Option.isSome_iff_exists.mp hsome
    rw [hp] at hdials
    obtain ⟨conn, connector, domain, hconn, -, -, -⟩ := hsaid.secure hs p addr hp hdials
    obtain ⟨-, htls⟩ := (connect_ok_iff h ha config conn).mp hconn
    exact (tlsConfig_ok_iff h config).mp ⟨_, htls⟩ ⟨hs, hv6⟩
  · intro hnot
    obtain ⟨tls, htls⟩ := (tlsConfig_ok_iff h config).mpr hnot
    have hconn : connect net (TokioTransport.new config) uri =
        .ok { addr := addr, tlsConfig := tls } :=
      (connect_ok_iff h ha config _).mpr ⟨hdials, htls⟩
    obtain ⟨p, hp, -⟩ := hsaid.port _ hconn
    exact hp ▸ rfl

end dialing

/-- The transport dials what the URI says exactly when the host does not resolve; or the port text
is absent or a port, and the URI is not an https one with an IPv6 literal; or the port text is no
port and the URI is one, and connecting fails for its name. Without TLS it is the port alone. -/
theorem dials_as_said_iff {net : Network α ν} {denotes : ν → Host} {uri : Uri} {a : Authority}
    (h : Documented net denotes a) (ha : uri.authority = some a.text) (config : κ) :
    (DialsAsSaid net (TokioTransport.new config) denotes uri a ↔
      ¬ Resolves net uri a ∨
        ((portSaid uri a).isSome = true ↔ ¬ (isHttps uri ∧ a.host.isIpv6 = true))) ∧
    ((∀ conn, connectPlain net uri = .ok conn →
        ∃ p, portSaid uri a = some p ∧ DialsAt net a p conn.addr) ↔
      ¬ Resolves net uri a ∨ (portSaid uri a).isSome = true) := by
  constructor
  · constructor
    · intro hsaid
      by_cases hres : Resolves net uri a
      · exact .inr (iff_of_dials_as_said h ha hres hsaid)
      · exact .inl hres
    · rintro (hres | hiff)
      · constructor
        · intro conn hconn
          obtain ⟨hdials, -⟩ := (connect_ok_iff h ha config conn).mp hconn
          exact absurd ⟨conn.addr, hdials⟩ hres
        · intro hs p addr hp hdials
          exact absurd ⟨addr, by rw [hp]; exact hdials⟩ hres
      · exact dials_as_said_of h ha hiff
  · constructor
    · intro hsaid
      by_cases hres : Resolves net uri a
      · right
        obtain ⟨addr, hdials⟩ := hres
        obtain ⟨p, hp, -⟩ := hsaid { addr := addr } ((connectPlain_ok h ha _).mpr hdials)
        exact hp ▸ rfl
      · exact .inl hres
    · intro hcond conn hconn
      have hdials := (connectPlain_ok h ha conn).mp hconn
      rcases hcond with hres | hsome
      · exact absurd ⟨conn.addr, hdials⟩ hres
      · obtain ⟨p, hp⟩ := Option.isSome_iff_exists.mp hsome
        rw [hp] at hdials
        exact ⟨p, hp, hdials⟩

/-- The part of an authority behind its userinfo. -/
def hostAndPort (authority : Str) : Str :=
  if '@' ∈ authority then (authority.dropWhile (· ≠ '@')).tail else authority

/-- Every host resolves, to the text that was dialled; names for TLS are their texts, which have
no bracket. -/
def openNetwork : Network Str Str where
  host authority :=
    match hostAndPort authority with
    | '[' :: text => '[' :: text.takeWhile (· ≠ ']') ++ [']']
    | text => text.takeWhile (· ≠ ':')
  portU16 authority :=
    match hostAndPort authority with
    | '[' :: text => parseU16 ((text.dropWhile (· ≠ ']')).drop 2)
    | text => parseU16 (text.dropWhile (· ≠ ':')).tail
  lookupHost text := .ok [text]
  serverName text := if text.head? = some '[' then none else some text

def withPort : Authority := ⟨some ['u'], .name ['a'], some ['8', '4', '4', '3']⟩

/-- `https://u@a:8443/` -/
def withPortUri : Uri := ⟨some https, some withPort.text, ['/']⟩

theorem dials_as_said_with_port :
    DialsAsSaid openNetwork (TokioTransport.new ()) Host.name withPortUri withPort :=
  have hdocumented : Documented openNetwork Host.name withPort :=
    { host := by decide
      portU16 := by decide
      serverName := fun _ => ⟨['a'], rfl, rfl⟩
      bracketed := fun hv6 => nomatch hv6 }
  have hauthority : withPortUri.authority = some withPort.text := rfl
  (dials_as_said_iff hdocumented hauthority ()).1.mpr (.inr (by decide))

def beyondU16 : Authority := ⟨none, .name ['a'], some ['9', '9', '9', '9', '9']⟩

/-- `http://a:99999/` -/
def beyondU16Uri : Uri := ⟨some ['h', 't', 't', 'p'], some beyondU16.text, ['/']⟩

def loopback : Authority := ⟨none, .ipv6 [':', ':', '1'], none⟩

/-- `https://[::1]/` -/
def loopbackUri : Uri := ⟨some https, some loopback.text, ['/']⟩

/-- The first is dialled at port 80, and the second is refused for its name. -/
theorem not_dialled_as_said :
    Documented openNetwork Host.name beyondU16 ∧
      connect openNetwork (TokioTransport.new ()) beyondU16Uri =
        .ok { addr := ['a', ':', '8', '0'], tlsConfig := none } ∧
      ¬ DialsAsSaid openNetwork (TokioTransport.new ()) Host.name beyondU16Uri beyondU16 ∧
    Documented openNetwork Host.name loopback ∧
      DialsAt openNetwork loopback 443 ['[', ':', ':', '1', ']', ':', '4', '4', '3'] ∧
      connect openNetwork (TokioTransport.new ()) loopbackUri =
        .error "invalid DNS name".toList ∧
      ¬ DialsAsSaid openNetwork (TokioTransport.new ()) Host.name loopbackUri loopback := by
  have hdial : connect openNetwork (TokioTransport.new ()) beyondU16Uri =
      .ok { addr := ['a', ':', '8', '0'], tlsConfig := none } := rfl
  have hlookup : DialsAt openNetwork loopback 443
      ['[', ':', ':', '1', ']', ':', '4', '4', '3'] := ⟨_, rfl, rfl⟩
  have hrefused : connect openNetwork (TokioTransport.new ()) loopbackUri =
      .error "invalid DNS name".toList := rfl
  refine ⟨?_, hdial, ?_, ?_, hlookup, hrefused, ?_⟩
  · constructor
    · decide
    · decide
    · exact fun _ => ⟨['a'], rfl, rfl⟩
    · exact fun hv6 => nomatch hv6
  · intro hsaid
    obtain ⟨p, hp, -⟩ := hsaid.port _ hdial
    have hnone : portSaid beyondU16Uri beyondU16 = none := by decide
    rw [hnone] at hp
    cases hp
  · constructor
    · decide
    · decide
    · exact fun hv6 => nomatch hv6
    · exact fun _ => rfl
  · intro hsaid
    obtain ⟨conn, connector, domain, hconn, -⟩ := hsaid.secure rfl 443 _ (by decide) hlookup
    rw [hrefused] at hconn
    cases hconn

end TokioTargets
