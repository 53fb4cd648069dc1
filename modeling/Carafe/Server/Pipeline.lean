import Carafe.Http.FieldList
import Carafe.Server.Router

/-!
# The pipeline

A request is routed, passes the middlewares and ends at a handler, or at the 404 or
405 where no route claims it. Handlers and middlewares are the caller's code: any
function, and `error` stands for whatever it throws.
-/

namespace Carafe.Server
open Http

abbrev Handler := Request → Except Unit Response

/-- The rest of the chain. -/
abbrev Next := Request → Except Unit Response

abbrev Middleware := Request → Next → Except Unit Response

structure Pipeline where
  router : Router Handler := {}
  middlewares : List Middleware := []

def allowName : Bytes := bytes "allow"

def allowValue (methods : List Method) : Bytes :=
  methods.foldl (fun value method =>
    (if value ≠ [] then value ++ bytes ", " else value) ++ methodName method) []

def unmatchedResponse (router : Router Handler) (target : Bytes) (pathMatched : Bool) : Response :=
  if pathMatched = false then statusResponse 404
  else
    let response := statusResponse 405
    { response with
      headers := response.headers.add ⟨allowName, allowValue (router.allowedMethods target)⟩ }

def runHandler (handler : Handler) (request : Request) : Response :=
  match handler request with
  | .ok response => response
  | .error _ => statusResponse 500

/-- What every step of one request's walk can see. -/
structure Exchange where
  router : Router Handler
  found : Match Handler
  original : Request

/-- The walk through the middlewares that are left. -/
def step (exchange : Exchange) : List Middleware → Request → Except Unit Response
  | [], request => .ok <| match exchange.found.handler with
    | some handler => runHandler handler request
    | none =>
      unmatchedResponse exchange.router exchange.original.target exchange.found.pathMatched
  | middleware :: chain, request => middleware request (step exchange chain)

namespace Pipeline

def add (pipeline : Pipeline) (method : Method) (path : Bytes) (handler : Handler) : Pipeline :=
  { pipeline with router := pipeline.router.add method path handler }

def use (pipeline : Pipeline) (middleware : Middleware) : Pipeline :=
  { pipeline with middlewares := pipeline.middlewares ++ [middleware] }

/-- The request comes back with its captures bound. -/
def respond (pipeline : Pipeline) (request : Request) : Request × Response :=
  let found := pipeline.router.find request.method request.target
  let request := { request with params := found.params }
  let exchange : Exchange := ⟨pipeline.router, found, request⟩
  (request, match step exchange pipeline.middlewares request with
    | .ok response => response
    | .error _ => statusResponse 500)

end Pipeline

theorem methodName_element (method : Method) :
    elementsOf (' '.toUInt8 :: methodName method) = [methodName method] ∧
      elementsOf (methodName method) = [methodName method] ∧ methodName method ≠ [] := by
  cases method <;> simp only [← listElements_eq] <;> decide +kernel

/-- Reading the value as a list gives back the names it was made of. -/
theorem elementsOf_allowValue (methods : List Method) :
    elementsOf (allowValue methods) = methods.map methodName := by
  have hrest : ∀ (methods : List Method) (value : Bytes), value ≠ [] →
      elementsOf (methods.foldl (fun value method =>
        (if value ≠ [] then value ++ bytes ", " else value) ++ methodName method) value) =
        elementsOf value ++ methods.map methodName := by
    intro methods
    induction methods with
    | nil => simp
    | cons method methods ih =>
      intro value hvalue
      have hseparator : value ++ bytes ", " ++ methodName method =
          value ++ comma :: (' '.toUInt8 :: methodName method) := by
        simp [bytes, comma]
      have hnext := ih (value ++ bytes ", " ++ methodName method) (by simp [hvalue])
      rw [List.foldl_cons, if_pos hvalue, hnext, hseparator, elementsOf_append,
        (methodName_element method).1]
      simp
  cases methods with
  | nil => exact elementsOf_nil
  | cons method methods =>
    obtain ⟨-, hname, hne⟩ := methodName_element method
    have hfirst : allowValue (method :: methods) = methods.foldl (fun value method =>
        (if value ≠ [] then value ++ bytes ", " else value) ++ methodName method)
        (methodName method) := by
      simp [allowValue]
    rw [hfirst, hrest methods _ hne, hname]
    rfl

namespace Pipeline

/-- Without middleware a request no route claims gets the 404 or the 405. -/
theorem respond_unmatched {router : Router Handler} {request : Request}
    (h : (router.find request.method request.target).handler = none) :
    (respond ⟨router, []⟩ request).2 = unmatchedResponse router request.target
      (router.routes.any (·.serves (routablePath request.target))) := by
  have hpath := router.find_pathMatched request.method request.target
  simp only [respond, step, h, hpath]

theorem unmatchedResponse_absent (router : Router Handler) (target : Bytes) :
    (unmatchedResponse router target false).status = 404 ∧
      (unmatchedResponse router target false).headers.contains allowName = false := by
  have h : unmatchedResponse router target false = statusResponse 404 := rfl
  rw [h]
  decide

/-- The 405 has one Allow field, and that lists the methods of the path. -/
theorem unmatchedResponse_present (router : Router Handler) (target : Bytes) :
    (unmatchedResponse router target true).status = 405 ∧
      ((unmatchedResponse router target true).headers.fields.filter
        (fun field => field.name = allowName)).map (fun field => listElements field.value) =
        [(router.allowedMethods target).map methodName] := by
  have hfields : (unmatchedResponse router target true).headers.fields =
      (statusResponse 405).headers.fields ++
        [⟨allowName, allowValue (router.allowedMethods target)⟩] := rfl
  have hother : (statusResponse 405).headers.fields.filter
      (fun field => field.name = allowName) = [] := by decide
  refine ⟨rfl, ?_⟩
  rw [hfields, List.filter_append, hother]
  simp [listElements_eq, elementsOf_allowValue]

/-- Lookups, the methods listed for a path and the answers without a handler agree. -/
theorem lookups_agree (router : Router Handler) (target : Bytes) :
    (∀ method, router.find method target =
      Match.of (router.routes.any (·.serves (routablePath target)))
        ((Router.first method (routablePath target) router.routes).or
          (if method = .head then Router.first .get (routablePath target) router.routes
            else none))) ∧
    (∀ method, method ∈ router.allowedMethods target ↔
      (router.find method target).handler.isSome = true) ∧
    (router.allowedMethods target).Nodup ∧
    (∀ method, router.allowedMethods target ≠ [] ↔
      (router.find method target).pathMatched = true) ∧
    ∀ request : Request, request.target = target →
      (router.find request.method target).handler = none →
      ((∀ route ∈ router.routes, route.serves (routablePath target) = false) →
        (respond ⟨router, []⟩ request).2.status = 404 ∧
        (respond ⟨router, []⟩ request).2.headers.contains allowName = false) ∧
      ((∃ route ∈ router.routes, route.serves (routablePath target) = true) →
        (respond ⟨router, []⟩ request).2.status = 405 ∧
        ((respond ⟨router, []⟩ request).2.headers.fields.filter
          (fun field => field.name = allowName)).map (fun field => listElements field.value) =
            [(router.allowedMethods target).map methodName]) := by
  refine ⟨fun method => router.find_eq method target, fun _ => Router.mem_allowedMethods,
    router.allowedMethods_nodup target, ?_, ?_⟩
  · intro method
    rw [Router.allowedMethods_ne_nil, Router.find_pathMatched, List.any_eq_true]
  · rintro request rfl unmatched
    rw [respond_unmatched unmatched]
    constructor
    · intro absent
      have hany : router.routes.any (·.serves (routablePath request.target)) = false := by
        simpa using absent
      rw [hany]
      exact unmatchedResponse_absent router request.target
    · intro present
      rw [List.any_eq_true.mpr present]
      exact unmatchedResponse_present router request.target

end Pipeline

end Carafe.Server
