import Carafe.Net.Listener
import Carafe.Server.Limits
import Carafe.Server.Onion
import Carafe.Server.Shadowing

/-!
# The application

Routes and middlewares are registered in any order, and then the application runs. What
was answered stays answered the same way, whatever is registered behind it; HEAD is GET
throughout, since no route can be registered for it.
-/

namespace Carafe.Server
open Http Net

inductive RunError where
  | invalidLimits
  | invalidDeadlines
  | bindFailed
  | acceptFailed
  deriving DecidableEq, Repr

def describe : RunError → Bytes
  | .invalidLimits => bytes "the pool limits would serve nobody"
  | .invalidDeadlines => bytes "a deadline of zero is no deadline at all"
  | .bindFailed => bytes "the port could not be bound"
  | .acceptFailed => bytes "accepting connections stopped"

/-- No two errors read the same. -/
theorem describe_injective {error other : RunError} (h : describe error = describe other) :
    error = other := by
  cases error <;> cases other <;> first | rfl | exact absurd h (by decide)

structure App where
  pipeline : Pipeline := {}

namespace App

def get (app : App) (path : Bytes) (handler : Handler) : App :=
  { pipeline := app.pipeline.add .get path handler }

def post (app : App) (path : Bytes) (handler : Handler) : App :=
  { pipeline := app.pipeline.add .post path handler }

def put (app : App) (path : Bytes) (handler : Handler) : App :=
  { pipeline := app.pipeline.add .put path handler }

def patch (app : App) (path : Bytes) (handler : Handler) : App :=
  { pipeline := app.pipeline.add .patch path handler }

def del (app : App) (path : Bytes) (handler : Handler) : App :=
  { pipeline := app.pipeline.add .delete path handler }

def use (app : App) (middleware : Middleware) : App :=
  { pipeline := app.pipeline.use middleware }

/-- False for the methods that cannot be registered. -/
def route (app : App) (method : Method) (path : Bytes) (handler : Handler) : App × Bool :=
  match method with
  | .head | .connect => (app, false)
  | .get | .post | .put | .patch | .delete | .options | .trace =>
    ({ pipeline := app.pipeline.add method path handler }, true)

inductive Setup where
  | get (path : Bytes) (handler : Handler)
  | post (path : Bytes) (handler : Handler)
  | put (path : Bytes) (handler : Handler)
  | patch (path : Bytes) (handler : Handler)
  | del (path : Bytes) (handler : Handler)
  | use (middleware : Middleware)
  | route (method : Method) (path : Bytes) (handler : Handler)

def apply (app : App) : Setup → App
  | .get path handler => app.get path handler
  | .post path handler => app.post path handler
  | .put path handler => app.put path handler
  | .patch path handler => app.patch path handler
  | .del path handler => app.del path handler
  | .use middleware => app.use middleware
  | .route method path handler => (app.route method path handler).1

def setUp (setups : List Setup) : App := setups.foldl apply {}

def Setup.middleware : Setup → Option Middleware
  | .use middleware => some middleware
  | .get _ _ | .post _ _ | .put _ _ | .patch _ _ | .del _ _ | .route _ _ _ => none

/-- What `route` lets through. -/
def Registrable (method : Method) : Prop := method ≠ .head ∧ method ≠ .connect

abbrev routes (app : App) : List (Route Handler) := app.pipeline.router.routes

/-- A registration appends a route that is registrable or a middleware, or does nothing. -/
theorem apply_cases (app : App) (setup : Setup) : ∃ more : List (Route Handler),
    (app.apply setup).routes = app.routes ++ more ∧
      (∀ route ∈ more, Registrable route.method) ∧
      (app.apply setup).pipeline.middlewares =
        app.pipeline.middlewares ++ setup.middleware.toList := by
  have added : ∀ (method : Method) (path : Bytes) (handler : Handler), Registrable method →
      ∃ more, (app.pipeline.add method path handler).router.routes = app.routes ++ more ∧
        (∀ route ∈ more, Registrable route.method) ∧
        (app.pipeline.add method path handler).middlewares = app.pipeline.middlewares ++ [] := by
    intro method path handler registrable
    refine ⟨[⟨method, compile (normalizePath path), handler⟩], rfl, ?_, by simp [Pipeline.add]⟩
    intro route hroute
    rw [List.mem_singleton.mp hroute]
    exact registrable
  cases setup with
  | get path handler => exact added .get path handler ⟨by simp, by simp⟩
  | post path handler => exact added .post path handler ⟨by simp, by simp⟩
  | put path handler => exact added .put path handler ⟨by simp, by simp⟩
  | patch path handler => exact added .patch path handler ⟨by simp, by simp⟩
  | del path handler => exact added .delete path handler ⟨by simp, by simp⟩
  | use middleware => exact ⟨[], by simp [apply, use, Pipeline.use], by simp, rfl⟩
  | route method path handler =>
    have refused : app.apply (.route method path handler) = app →
        ∃ more, (app.apply (.route method path handler)).routes = app.routes ++ more ∧
          (∀ route ∈ more, Registrable route.method) ∧
          (app.apply (.route method path handler)).pipeline.middlewares =
            app.pipeline.middlewares ++ [] := by
      intro same
      rw [same]
      exact ⟨[], by simp, by simp, by simp⟩
    cases method with
    | head | connect => exact refused rfl
    | get | post | put | patch | delete | options | trace =>
      exact added _ path handler ⟨by simp, by simp⟩

theorem foldl_apply (app : App) (setups : List Setup) : ∃ more : List (Route Handler),
    (setups.foldl apply app).routes = app.routes ++ more ∧
      (∀ route ∈ more, Registrable route.method) ∧
      (setups.foldl apply app).pipeline.middlewares =
        app.pipeline.middlewares ++ setups.filterMap Setup.middleware := by
  induction setups generalizing app with
  | nil => exact ⟨[], by simp, by simp, by simp⟩
  | cons setup setups ih =>
    obtain ⟨first, hfirst, registrable, hmiddlewares⟩ := app.apply_cases setup
    obtain ⟨more, hmore, registrable', hmiddlewares'⟩ := ih (app.apply setup)
    refine ⟨first ++ more, ?_, ?_, ?_⟩
    · rw [List.foldl_cons, hmore, hfirst, List.append_assoc]
    · intro route hroute
      rcases List.mem_append.mp hroute with hmem | hmem
      · exact registrable route hmem
      · exact registrable' route hmem
    · rw [List.foldl_cons, hmiddlewares', hmiddlewares, List.append_assoc, List.filterMap_cons]
      cases setup.middleware <;> rfl

theorem setUp_registrable (setups : List Setup) :
    ∀ route ∈ (setUp setups).routes, Registrable route.method := by
  obtain ⟨more, hroutes, registrable, -⟩ := foldl_apply {} setups
  intro route hroute
  rw [setUp, hroutes] at hroute
  exact registrable route (by simpa [routes] using hroute)

/-- No route of a method, no answer for it. -/
theorem first_none {η : Type} {method : Method} {routes : List (Route η)}
    (unregistered : ∀ route ∈ routes, route.method ≠ method) (path : Bytes) :
    Router.first method path routes = none := by
  by_contra found
  obtain ⟨route, hmem, -, hmethod⟩ :=
    Router.first_isSome.mp (Option.isSome_iff_ne_none.mpr found)
  exact unregistered route hmem hmethod

theorem answering_plain {η : Type} {method : Method} (other : method ≠ .head) (path : Bytes)
    (routes : List (Route η)) :
    Router.answering method path routes = Router.first method path routes := by
  rw [Router.answering, if_neg other, Option.or_none]

/-- Without a route of its own HEAD finds what GET finds. -/
theorem find_head {η : Type} {router : Router η}
    (unregistered : ∀ route ∈ router.routes, route.method ≠ .head) (target : Bytes) :
    router.find .head target = router.find .get target := by
  have hget : Method.get ≠ .head := by simp
  rw [Router.find_eq, Router.find_eq, answering_plain hget, Router.answering,
    first_none unregistered, Option.none_or, if_pos rfl]

/-- Routes behind those that answer change nothing. -/
theorem find_append {η : Type} {router : Router η} (more : List (Route η))
    (unregistered : ∀ route ∈ router.routes ++ more, route.method ≠ .head) {method : Method}
    {target : Bytes} (answered : (router.find method target).handler.isSome = true) :
    Router.find ⟨router.routes ++ more⟩ method target = router.find method target := by
  have plain : ∀ {method : Method}, method ≠ .head →
      (router.find method target).handler.isSome = true →
        Router.find ⟨router.routes ++ more⟩ method target = router.find method target := by
    intro method other answered
    rw [Router.find_handler, answering_plain other] at answered
    obtain ⟨found, hfound⟩ := Option.isSome_iff_exists.mp answered
    rw [Router.find_eq, Router.find_eq, answering_plain other, answering_plain other,
      Router.first_append, hfound]
    rfl
  by_cases hhead : method = .head
  · have before : ∀ route ∈ router.routes, route.method ≠ .head :=
      fun route hmem => unregistered route (List.mem_append_left _ hmem)
    rw [hhead, find_head before] at answered ⊢
    rw [find_head unregistered]
    exact plain (by simp) answered
  · exact plain hhead answered

/-- Registrations only add: a request that was answered by a route stays with it, and the
middlewares stand in their order whatever stood between them. In every application HEAD finds
what GET finds, CONNECT finds nothing, and the methods listed for a path say so. -/
theorem registrations_stand (before after : List Setup) (target : Bytes) :
    (∀ method,
      ((setUp before).pipeline.router.find method target).handler.isSome = true →
        (setUp (before ++ after)).pipeline.router.find method target =
          (setUp before).pipeline.router.find method target) ∧
    (setUp (before ++ after)).pipeline.middlewares =
      (setUp before).pipeline.middlewares ++ after.filterMap Setup.middleware ∧
    (setUp before).pipeline.router.find .head target =
      (setUp before).pipeline.router.find .get target ∧
    ((setUp before).pipeline.router.find .connect target).handler = none ∧
    (.head ∈ (setUp before).pipeline.router.allowedMethods target ↔
      .get ∈ (setUp before).pipeline.router.allowedMethods target) ∧
    .connect ∉ (setUp before).pipeline.router.allowedMethods target := by
  have hhead := find_head (fun route hmem => (setUp_registrable before route hmem).1) target
  have hconnect : ((setUp before).pipeline.router.find .connect target).handler = none := by
    rw [← Option.isNone_iff_eq_none, ← Option.not_isSome, Router.find_handler, Router.answering,
      first_none fun route hmem => (setUp_registrable before route hmem).2]
    rfl
  obtain ⟨more, hroutes, -, hmiddlewares⟩ := foldl_apply (setUp before) after
  rw [setUp, ← List.foldl_append] at hroutes hmiddlewares
  refine ⟨?_, hmiddlewares, hhead, hconnect, ?_, ?_⟩
  · intro method answered
    have registrable := setUp_registrable (before ++ after)
    have hall : ∀ route ∈ (setUp before).routes ++ more, route.method ≠ .head := by
      intro route hmem
      exact (registrable route (hroutes ▸ hmem)).1
    rw [← find_append more hall answered]
    exact congrArg (fun routes => Router.find ⟨routes⟩ method target) hroutes
  · rw [Router.mem_allowedMethods, Router.mem_allowedMethods, hhead]
  · rw [Router.mem_allowedMethods, hconnect]
    simp

end App

end Carafe.Server
