import Carafe.Library.Layers
import Carafe.Server.Pipeline

/-!
# The onion of the middlewares

A `Next` holds an index into the chain, and calling it takes the walk up from there, as
often as a middleware likes and with any request. What comes of a request is the same as
if each middleware had been put around the rest of the chain once, with the route that
was chosen for the original request at the core.
-/

namespace Carafe.Server
open Http Layers

/-- Each middleware gets a `Next` for the index behind its own. -/
def stepAt (exchange : Exchange) (chain : List Middleware) (index : Nat) : Next :=
  walk chain (step exchange []) index

theorem step_eq_around (exchange : Exchange) (chain : List Middleware) :
    step exchange chain = around chain (step exchange []) := by
  induction chain with
  | nil => rfl
  | cons middleware chain ih => exact funext fun request => congrArg (middleware request) ih

theorem stepAt_eq (exchange : Exchange) (chain : List Middleware) (index : Nat) :
    stepAt exchange chain index = step exchange (chain.drop index) := by
  rw [stepAt, walk_eq, ← step_eq_around]

namespace Pipeline

/-- With the exceptions of the chain, and the clause that catches them. -/
def respondAt (pipeline : Pipeline) (request : Request) : Request × Except Unit Response :=
  let found := pipeline.router.find request.method request.target
  let request := { request with params := found.params }
  let exchange : Exchange := ⟨pipeline.router, found, request⟩
  (request, tryCatch (stepAt exchange pipeline.middlewares 0 request)
    fun _ => .ok (statusResponse 500))

theorem respondAt_eq (pipeline : Pipeline) (request : Request) :
    pipeline.respondAt request =
      ((pipeline.respond request).1, .ok (pipeline.respond request).2) := by
  simp only [respondAt, respond, stepAt_eq, List.drop_zero]
  cases step _ pipeline.middlewares _ <;> rfl

/-- What is thrown becomes a 500. -/
def catch500 : Except Unit Response → Response
  | .ok response => response
  | .error _ => statusResponse 500

/-- The handler and the captures of the route that a request is for. -/
def chosen (router : Router Handler) (request : Request) : Option (Handler × Params) :=
  Router.answering request.method (routablePath request.target) router.routes

/-- Whatever arrives goes to the handler chosen for the original request, or gets the
404 or the 405 of its target. -/
def dispatch (router : Router Handler) (original : Request) : Next := fun request =>
  .ok <| match chosen router original with
    | some (handler, _) => catch500 (handler request)
    | none => unmatchedResponse router original.target
      (router.routes.any (·.serves (routablePath original.target)))

def bindParams (router : Router Handler) (request : Request) : Request :=
  { request with params := ((chosen router request).map Prod.snd).getD {} }

theorem find_params (router : Router Handler) (request : Request) :
    (router.find request.method request.target).params =
      ((chosen router request).map Prod.snd).getD {} := by
  rw [Router.find_eq, chosen]
  cases Router.answering request.method (routablePath request.target) router.routes <;> rfl

/-- Past the last middleware stands what was chosen before the first. -/
theorem step_dispatch (router : Router Handler) (original bound : Request)
    (sameTarget : bound.target = original.target) :
    step ⟨router, router.find original.method original.target, bound⟩ [] =
      dispatch router original := by
  funext request
  simp only [step, dispatch, chosen, Router.find_eq, sameTarget]
  cases Router.answering original.method (routablePath original.target) router.routes with
  | none => rfl
  | some found =>
    simp only [Match.of, runHandler]
    cases found.1 request <;> rfl

theorem respond_around (pipeline : Pipeline) (request : Request) :
    pipeline.respondAt request = (bindParams pipeline.router request,
      .ok (catch500 (around pipeline.middlewares (dispatch pipeline.router request)
        (bindParams pipeline.router request)))) := by
  have hrespond : pipeline.respond request = (bindParams pipeline.router request,
      catch500 (step ⟨pipeline.router, pipeline.router.find request.method request.target,
        bindParams pipeline.router request⟩ pipeline.middlewares
        (bindParams pipeline.router request))) := by
    simp only [respond, bindParams, ← find_params]
    cases step _ pipeline.middlewares _ <;> rfl
  have hcore := step_dispatch pipeline.router request (bindParams pipeline.router request) rfl
  rw [respondAt_eq, hrespond, step_eq_around, hcore]

/-- Every request is answered by the onion of the middlewares around the route chosen for
it, and a middleware that hands on what it gets leaves no trace. -/
theorem respond_onion (pipeline : Pipeline) (request : Request) :
    pipeline.respondAt request = (bindParams pipeline.router request,
      .ok (catch500 (around pipeline.middlewares (dispatch pipeline.router request)
        (bindParams pipeline.router request)))) ∧
    ∀ front back, pipeline.middlewares = front ++ back →
      respondAt { pipeline with middlewares := front ++ pass :: back } request =
        pipeline.respondAt request := by
  refine ⟨respond_around pipeline request, ?_⟩
  intro front back hchain
  rw [respond_around, respond_around, around_pass, ← hchain]

end Pipeline

end Carafe.Server
