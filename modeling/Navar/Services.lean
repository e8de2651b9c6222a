import Navar.HyperRequests

/-! # Services and the middleware around them

A middleware wraps a service; pairs of middleware wrap together, and a pipeline makes a service of
a middleware and the service it wraps. However they are nested, a request passes the middleware
from the outside in, and the answer comes back the other way. What waiting does is left open: a
request is answered in an arbitrary monad. -/
namespace Services

open HttpMessages
open ByteBuffers (Bytes)
open LossyText (Str)
open H3Sessions (normalizeRequest)

variable {M : Type → Type} {μ σ ρ α : Type}

/-- Of the basic middleware `μ`, or a pair `(M1, M2)` of middleware. -/
inductive Middleware (μ : Type) where
  | one (m : μ)
  | pair (first second : Middleware μ)

mutual

/-- Of the basic services `σ`, or what `Pipeline::new` makes. -/
inductive Service (μ σ : Type) where
  | one (s : σ)
  | pipeline (service : IntoService μ σ)

/-- A service, or a pair `(M, S)` of a middleware and a service. -/
inductive IntoService (μ σ : Type) where
  | service (s : Service μ σ)
  | wrapped (m : Middleware μ) (s : Service μ σ)

end

/-- What the basic middleware and services do with a request. -/
structure Meaning (M : Type → Type) (μ σ ρ α : Type) where
  wrap : μ → (ρ → M α) → ρ → M α
  handle : σ → ρ → M α

def Middleware.wrap (d : Meaning M μ σ ρ α) : Middleware μ → (ρ → M α) → ρ → M α
  | .one m, next => d.wrap m next
  | .pair first second, next => first.wrap d (second.wrap d next)

mutual

def Service.handle (d : Meaning M μ σ ρ α) : Service μ σ → ρ → M α
  | .one s, request => d.handle s request
  | .pipeline service, request => service.intoService d request

/-- `handle` of the service that `into_service` makes. -/
def IntoService.intoService (d : Meaning M μ σ ρ α) : IntoService μ σ → ρ → M α
  | .service s, request => s.handle d request
  | .wrapped m s, request => m.wrap d (s.handle d) request

end

/-- A client keeps one pipeline. -/
structure Client (μ σ : Type) where
  pipeline : Service μ σ

def Client.withService (service : IntoService μ σ) : Client μ σ := ⟨.pipeline service⟩

def Client.new (base : σ) : Client μ σ := ⟨.pipeline (.service (.one base))⟩

def Client.send {χ β ε ε' : Type} (d : Meaning M μ σ (Request χ (Body (NormalizedData β) ε)) α)
    (client : Client μ σ) (into : ε' → ε) (request : Request χ (Body β ε')) : M α :=
  client.pipeline.handle d (normalizeRequest into request)

def Middleware.layers : Middleware μ → List μ
  | .one m => [m]
  | .pair first second => first.layers ++ second.layers

mutual

/-- All the basic middleware around the innermost service, the outermost first. -/
def Service.layers : Service μ σ → List μ
  | .one _ => []
  | .pipeline service => service.layers

def IntoService.layers : IntoService μ σ → List μ
  | .service s => s.layers
  | .wrapped m s => m.layers ++ s.layers

end

mutual

def Service.core : Service μ σ → σ
  | .one s => s
  | .pipeline service => service.core

def IntoService.core : IntoService μ σ → σ
  | .service s => s.core
  | .wrapped _ s => s.core

end

section nesting

variable (d : Meaning M μ σ ρ α)

theorem wrap_layers (m : Middleware μ) (next : ρ → M α) :
    m.wrap d next = m.layers.foldr d.wrap next := by
  induction m generalizing next with
  | one m => rfl
  | pair first second ihfirst ihsecond =>
    rw [Middleware.wrap, ihfirst, ihsecond, Middleware.layers, List.foldr_append]

mutual

theorem handle_layers (s : Service μ σ) :
    s.handle d = s.layers.foldr d.wrap (d.handle s.core) := by
  cases s with
  | one s =>
    funext request
    rw [Service.handle]
    rfl
  | pipeline service =>
    funext request
    rw [Service.handle, intoService_layers service]
    rfl

theorem intoService_layers (s : IntoService μ σ) :
    s.intoService d = s.layers.foldr d.wrap (d.handle s.core) := by
  cases s with
  | service s =>
    funext request
    rw [IntoService.intoService, handle_layers s]
    rfl
  | wrapped m s =>
    funext request
    rw [IntoService.intoService, wrap_layers, handle_layers s, IntoService.layers,
      List.foldr_append]
    rfl

end

/-- The client of the other modules: a pipeline of nothing but the base service. -/
theorem send_new {χ β ε ε' : Type} (anyhow : Str → ε) (into : ε' → ε)
    (session : Str → Uri → Except ε HyperRequests.HyperSender) (ready : Except ε Unit)
    (wrap : μ → _) (request : Request χ (Body β ε')) :
    (Client.new ()).send ⟨wrap, fun _ => HyperRequests.handle anyhow session ready⟩ into request =
      HyperRequests.send anyhow into session ready request := by
  rw [Client.send, Client.new, handle_layers]
  rfl

end nesting

/-- A middleware that looks at the request, passes it on or answers it, and looks at the answers
of what it has passed on. -/
structure Interceptor (M : Type → Type) (ρ α : Type) where
  before : ρ → M (Except α ρ)
  after : α → M α

section intercepting

variable [Monad M]

def Interceptor.around (i : Interceptor M ρ α) (next : ρ → M α) (request : ρ) : M α := do
  match ← i.before request with
  | .error answer => pure answer
  | .ok request => do
    let answer ← next request
    i.after answer

/-- The request on its way in: how many interceptors have passed it on, and what has come of it. -/
def inward : List (Interceptor M ρ α) → ρ → M (ℕ × Except α ρ)
  | [], request => pure (0, .ok request)
  | i :: is, request => do
    match ← i.before request with
    | .error answer => pure (0, .error answer)
    | .ok request => do
      let (passed, outcome) ← inward is request
      pure (passed + 1, outcome)

/-- The answer on its way out. -/
def outward (is : List (Interceptor M ρ α)) (answer : α) : M α :=
  is.reverse.foldlM (fun answer i => i.after answer) answer

def answered (base : ρ → M α) : Except α ρ → M α
  | .error answer => pure answer
  | .ok request => base request

def inAndOut (is : List (Interceptor M ρ α)) (base : ρ → M α) (request : ρ) : M α := do
  let (passed, outcome) ← inward is request
  let answer ← answered base outcome
  outward (is.take passed) answer

theorem around_layers [LawfulMonad M] (is : List (Interceptor M ρ α)) (base : ρ → M α)
    (request : ρ) : is.foldr Interceptor.around base request = inAndOut is base request := by
  induction is generalizing request with
  | nil => simp [inAndOut, inward, answered, outward]
  | cons i is ih =>
    simp only [List.foldr_cons, Interceptor.around, inAndOut, inward, bind_assoc]
    apply bind_congr
    rintro (answer | passedOn)
    · simp [answered, outward]
    · simp only [ih, inAndOut, bind_assoc, pure_bind]
      apply bind_congr
      rintro ⟨passed, outcome⟩
      apply bind_congr
      intro answer
      simp [outward, List.take_succ_cons, List.foldlM_append]

end intercepting

/-- However the middleware of a client is nested, it wraps the innermost service as the list of
its parts does; and if the parts are interceptors, a request passes them from the outside in until
one answers it, and the answer passes exactly those that let the request pass, from the inside
out. -/
theorem client_layers {χ β ε ε' : Type} [Monad M] [LawfulMonad M]
    (d : Meaning M μ σ (Request χ (Body (NormalizedData β) ε)) α) (service : IntoService μ σ)
    (into : ε' → ε) (request : Request χ (Body β ε')) :
    (Client.withService service).send d into request =
      service.layers.foldr d.wrap (d.handle service.core) (normalizeRequest into request) ∧
    ∀ part : μ → Interceptor M _ α, (∀ m, d.wrap m = (part m).around) →
      (Client.withService service).send d into request =
        inAndOut (service.layers.map part) (d.handle service.core)
          (normalizeRequest into request) := by
  have hnested : (Client.withService service).send d into request =
      service.layers.foldr d.wrap (d.handle service.core) (normalizeRequest into request) := by
    rw [Client.send, Client.withService, handle_layers]
    rfl
  refine ⟨hnested, ?_⟩
  intro part hpart
  have hwrap : d.wrap = fun m => (part m).around := funext hpart
  rw [hnested, ← around_layers, List.foldr_map, hwrap]

/-- Writes down when it is passed; the third one answers by itself. -/
def logged (n : ℕ) : Interceptor (StateM (List ℕ)) ρ ℕ where
  before request := do
    modify (· ++ [n])
    if n = 3 then pure (.error 0) else pure (.ok request)
  after answer := do
    modify (· ++ [10 * n])
    pure (answer + 1)

def nestedService : IntoService ℕ Unit :=
  .wrapped (.pair (.one 1) (.one 2)) (.pipeline (.wrapped (.pair (.one 3) (.one 4)) (.one ())))

theorem client_layers_logged :
    let d : Meaning (StateM (List ℕ)) ℕ Unit (Request Unit (Body (NormalizedData Bytes) Unit)) ℕ :=
      ⟨fun n => (logged n).around, fun _ _ => pure 7⟩
    StateT.run ((Client.withService nestedService).send d id (H3Sessions.postOf Bytes [])) [] =
      (2, [1, 2, 3, 20, 10]) := by
  intro d
  rw [(client_layers d nestedService id (H3Sessions.postOf Bytes [])).2 logged fun _ => rfl]
  rfl

end Services
