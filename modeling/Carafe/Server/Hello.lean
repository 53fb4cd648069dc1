import Carafe.Server.App
import Carafe.Server.HeadResponses

/-!
# The example server

Its routes, and the two middlewares in front of them. A write without the token gets a 401
wherever it is sent, and the methods that its OPTIONS handler spells out are those that a
405 for the same path lists.
-/

namespace Carafe.Server
open Http Layers

def authorization : Bytes := bytes "authorization"
def token : Bytes := bytes "Bearer letmein"

/-- A capture as a handler reads it. -/
def readCapture (request : Request) (name missing : Bytes) : Bytes :=
  (request.params.get name).getD missing

def storeMethods : Bytes := bytes "PUT, PATCH, DELETE, OPTIONS"

/-- All but the routes of the store, with what `version()` says. -/
def helloPages (version : Bytes) : App :=
  let app : App := {}
  let app := app.get (bytes "/") fun _ =>
    .ok (textResponse 200 (bytes "carafe " ++ version ++ bytes "\ntry /hello\n"))
  let app := app.get (bytes "/hello") fun request =>
    .ok (textResponse 200 (bytes "you asked for " ++ request.target ++ bytes "\n"))
  let app := app.get (bytes "/hello/<name>") fun request =>
    .ok (textResponse 200
      (bytes "hello, " ++ readCapture request (bytes "name") (bytes "world") ++ bytes "!\n"))
  -- The first pattern that matches wins, so the typed one stands first.
  let app := app.get (bytes "/users/<int:id>") fun request =>
    .ok (textResponse 200
      (bytes "user #" ++ readCapture request (bytes "id") (bytes "?") ++ bytes "\n"))
  let app := app.get (bytes "/users/<name>") fun request =>
    .ok (textResponse 200
      (bytes "user named " ++ readCapture request (bytes "name") (bytes "?") ++ bytes "\n"))
  let app := app.get (bytes "/files/<path:rest>") fun request =>
    .ok (textResponse 200 (bytes "you asked for the file at " ++
      readCapture request (bytes "rest") (bytes "?") ++ bytes "\n"))
  let app := app.post (bytes "/echo") fun request => .ok (textResponse 200 request.body)
  app.post (bytes "/size") fun request =>
    .ok (textResponse 200 (decimal request.body.length ++ bytes " bytes\n"))

def storeKey (request : Request) : Bytes := readCapture request (bytes "key") (bytes "?")

def storeOptions : Handler := fun _ =>
  let response := textResponse 200 []
  .ok { response with headers := response.headers.add ⟨bytes "allow", storeMethods⟩ }

/-- The routes, and whether the last one could be registered. -/
def helloRoutes (version : Bytes) : App × Bool :=
  let app := helloPages version
  let app := app.put (bytes "/store/<key>") fun request =>
    .ok (textResponse 200 (storeKey request ++ bytes " = " ++ request.body ++ bytes "\n"))
  let app := app.patch (bytes "/store/<key>") fun request =>
    .ok (textResponse 200 (storeKey request ++ bytes " += " ++ request.body ++ bytes "\n"))
  let app := app.del (bytes "/store/<key>") fun request =>
    .ok (textResponse 200 (storeKey request ++ bytes " deleted\n"))
  app.route .options (bytes "/store/<key>") storeOptions

/-- Writes its line about what came back, and hands that on. -/
def logging : Middleware := fun request next => next request

def writesStore (request : Request) : Bool :=
  request.method = .put ∨ request.method = .patch ∨ request.method = .delete

def unauthorized : Response :=
  let refused := statusResponse 401
  { refused with
    headers := refused.headers.add ⟨bytes "www-authenticate", bytes "Bearer realm=\"carafe\""⟩ }

def requireToken : Middleware := fun request next =>
  if writesStore request ∧ request.headers.get authorization ≠ some token then .ok unauthorized
  else next request

def hello (version : Bytes) : App := ((helloRoutes version).1.use logging).use requireToken

theorem helloRoutes_registered (version : Bytes) : (helloRoutes version).2 = true := rfl

/-- A write that does not carry the token. -/
def forbidden (request : Request) : Bool :=
  writesStore request ∧ request.headers.get authorization ≠ some token

theorem requireToken_guard :
    requireToken = Layers.guard forbidden fun _ => .ok unauthorized := by
  funext request next
  simp only [requireToken, Layers.guard, forbidden, decide_eq_true_eq]

theorem hello_middlewares (version : Bytes) : (hello version).pipeline.middlewares =
    [pass] ++ (Layers.guard forbidden fun _ => .ok unauthorized) :: [] := by
  rw [← requireToken_guard]
  rfl

/-- Whatever the routes are, a forbidden request does not get to them. -/
theorem hello_refuses (version : Bytes) (router : Router Handler) {request : Request}
    (blocked : forbidden request = true) :
    (Pipeline.respond ⟨router, (hello version).pipeline.middlewares⟩ request).2 = unauthorized := by
  have hstep : ∀ exchange params, step exchange (hello version).pipeline.middlewares
      { request with params := params } = .ok unauthorized := by
    intro exchange params
    rw [step_eq_around, hello_middlewares, around_guard]
    exact if_pos blocked
  unfold Pipeline.respond
  dsimp only
  rw [hstep]

section Runs
variable {writes : Nat → Bool} {deadlines : Deadlines}

/-- On every connection, a write without the token is answered by the 401 that says how to
authenticate, whatever its path, its body and the routes; so no handler sees it. -/
theorem hello_guarded (version : Bytes) (router : Router Handler) (rounds : List Round) {turn : Turn}
    (mem : turn ∈ serve ⟨router, (hello version).pipeline.middlewares⟩ writes 0
      { deadlines := deadlines } rounds) {request : Request}
    (asked : turn.handled = some request) (blocked : forbidden request = true) :
    turn.reply = answer unauthorized (clientWantsClose request) true := by
  have hopen : Open writes [] := by simp [Open]
  obtain ⟨journal, conn, serving⟩ :=
    (@Serving.start ⟨router, (hello version).pipeline.middlewares⟩ deadlines writes).serve
      hopen rounds
  rw [List.nil_append] at serving
  rcases (serving.answers turn mem).cases with ⟨hnone, -⟩ | ⟨request', hrequest, -, hreply⟩
  · rw [asked] at hnone
    cases hnone
  · rw [asked] at hrequest
    obtain rfl := Option.some.inj hrequest
    have hmethod : request.method ≠ .head := by
      intro hhead
      simp [forbidden, writesStore, hhead] at blocked
    have hwants : ∀ pipeline : Pipeline, clientWantsClose (pipeline.respond request).1 =
        clientWantsClose request := fun _ => rfl
    have hwithBody : ∀ pipeline : Pipeline,
        decide ((pipeline.respond request).1.method ≠ .head) = true :=
      fun _ => decide_eq_true hmethod
    rw [hreply, handledReply, hello_refuses version router blocked, hwants, hwithBody]

/-- A write to the store that gives another token. -/
theorem hello_guarded_put : ∃ rounds turn,
    turn ∈ serve (hello (bytes "0.1.0")).pipeline (fun _ => true) 0 { deadlines := {} } rounds ∧
      turn.reply.response.status = 401 := by
  let round : Round := ⟨0, 0, .bytes
    (bytes "PUT /store/k HTTP/1.1\r\nHost: a\r\nAuthorization: Bearer no\r\n\r\n")
    (by decide) (by decide), 1⟩
  have hany : ((serve (hello (bytes "0.1.0")).pipeline (fun _ => true) 0 { deadlines := {} }
      [round]).any fun turn => turn.handled.any forbidden) = true := by decide +kernel
  obtain ⟨turn, hmem, hturn⟩ := List.any_eq_true.mp hany
  obtain ⟨request, hasked, hblocked⟩ := (Option.any_eq_true _ _).mp hturn
  have hreply := hello_guarded (bytes "0.1.0") (hello (bytes "0.1.0")).pipeline.router [round] hmem
    hasked hblocked
  refine ⟨[round], turn, hmem, ?_⟩
  rw [hreply]
  unfold answer
  split <;> rfl

end Runs

def storePattern : Pattern := [⟨[], .none⟩, ⟨bytes "store", .none⟩, ⟨bytes "key", .text⟩]

theorem hello_routes (version : Bytes) : ∃ put patch del : Handler, (hello version).routes =
    (helloPages version).routes ++ [⟨.put, storePattern, put⟩, ⟨.patch, storePattern, patch⟩,
      ⟨.delete, storePattern, del⟩, ⟨.options, storePattern, storeOptions⟩] := by
  have hpattern : compile (normalizePath (bytes "/store/<key>")) = storePattern := by decide
  rw [← hpattern]
  exact ⟨_, _, _, rfl⟩

/-- The second segment is a literal other than that of the store. -/
def elsewhere (pattern : Pattern) : Bool :=
  match pattern with
  | _ :: second :: _ => second.capture = .none ∧ second.text ≠ bytes "store"
  | _ => false

theorem pages_elsewhere (version : Bytes) :
    ∀ route ∈ (helloPages version).routes, elsewhere route.pattern = true :=
  List.all_eq_true.mp rfl

theorem elsewhere_not_fits {pattern : Pattern} (h : elsewhere pattern = true) {pieces : List Bytes}
    (store : pieces[1]? = some (bytes "store")) {entries : List PathParam} :
    ¬ Fits pattern pieces entries := by
  intro fits
  unfold elsewhere at h
  split at h
  · rename_i first second rest
    simp only [decide_eq_true_eq] at h
    cases fits with
    | piece front tail =>
      rw [List.getElem?_cons_succ] at store
      cases tail with
      | piece front' tail' =>
        have haccepted := front'.accepted
        simp only [accepts, h.1, decide_eq_true_eq] at haccepted
        rw [List.getElem?_cons_zero, ← haccepted] at store
        exact h.2 (Option.some.inj store)
      | rest hrest =>
        have hliteral := hrest.rest
        rw [h.1] at hliteral
        cases hliteral
  · cases h

section Store
variable {path : Bytes}

theorem pages_silent (version : Bytes) (store : (path.splitOn slash)[1]? = some (bytes "store")) :
    ∀ route ∈ (helloPages version).routes, route.serves path = false := by
  intro route hroute
  by_contra hserves
  obtain ⟨params, hmatch⟩ := Option.isSome_iff_exists.mp (eq_true_of_ne_false hserves)
  exact elsewhere_not_fits (pages_elsewhere version route hroute) store (matches_iff.mp hmatch)

theorem store_second {entries : List PathParam}
    (fits : Fits storePattern (path.splitOn slash) entries) :
    (path.splitOn slash)[1]? = some (bytes "store") := by
  generalize path.splitOn slash = pieces at fits
  cases fits with
  | piece front tail =>
    cases tail with
    | piece front' tail' =>
      have haccepted := front'.accepted
      simp only [accepts, decide_eq_true_eq] at haccepted
      rw [List.getElem?_cons_succ, List.getElem?_cons_zero, haccepted]

theorem foldl_allow_silent {routes : List (Route Handler)} {allowed : List Method}
    (silent : ∀ route ∈ routes, route.serves path = false) :
    routes.foldl (Router.allow path) allowed = allowed := by
  induction routes with
  | nil => rfl
  | cons route routes ih =>
    have hfirst := silent route List.mem_cons_self
    have hnone : route.pattern.matches path false = none := by
      rw [← Option.not_isSome_iff_eq_none, matches_out]
      simpa [Route.serves] using hfirst
    rw [List.foldl_cons, Router.allow, hnone]
    exact ih fun route hmem => silent route (List.mem_cons_of_mem _ hmem)

theorem allow_served {route : Route Handler} {allowed : List Method}
    (serves : route.serves path = true) (new : route.method ∉ allowed) (other : route.method ≠ .get) :
    Router.allow path allowed route = allowed ++ [route.method] := by
  unfold Route.serves at serves
  rw [← matches_out] at serves
  obtain ⟨params, hmatch⟩ := Option.isSome_iff_exists.mp serves
  simp [Router.allow, hmatch, new, other]

end Store

/-- OPTIONS is registered once. -/
theorem options_route (version : Bytes) {route : Route Handler}
    (mem : route ∈ (hello version).routes) (options : route.method = .options) :
    route = ⟨.options, storePattern, storeOptions⟩ := by
  obtain ⟨put, patch, del, hroutes⟩ := hello_routes version
  have hpages : ∀ route ∈ (helloPages version).routes, route.method ≠ .options := by
    have hall : ((helloPages version).routes.all fun route => route.method ≠ .options) = true := rfl
    exact fun route hmem => of_decide_eq_true (List.all_eq_true.mp hall route hmem)
  rw [hroutes] at mem
  rcases List.mem_append.mp mem with hpage | hstore
  · exact absurd options (hpages route hpage)
  · simp only [List.mem_cons, List.not_mem_nil, or_false] at hstore
    rcases hstore with rfl | rfl | rfl | rfl
    · cases options
    · cases options
    · cases options
    · rfl

/-- The routes of the store are the only ones for what one of them serves. -/
theorem store_allowed (version : Bytes) {target : Bytes} {params : Params}
    (stores : storePattern.matches (routablePath target) true = some params) :
    (hello version).pipeline.router.allowedMethods target = [.put, .patch, .delete, .options] := by
  obtain ⟨put, patch, del, hroutes⟩ := hello_routes version
  have hserves : ∀ method handler,
      (⟨method, storePattern, handler⟩ : Route Handler).serves (routablePath target) = true := by
    intro method handler
    exact Option.isSome_iff_exists.mpr ⟨params, stores⟩
  have hsilent := pages_silent version (store_second (matches_iff.mp stores))
  change (hello version).routes.foldl (Router.allow (routablePath target)) [] = _
  rw [hroutes, List.foldl_append, foldl_allow_silent hsilent]
  simp [allow_served (hserves _ _)]

/-- Wherever OPTIONS is answered, its handler spells out the methods that the router lists. -/
theorem hello_options (version : Bytes) {target : Bytes}
    (answered : ((hello version).pipeline.router.find .options target).handler.isSome = true) :
    ((hello version).pipeline.router.find .options target).handler = some storeOptions ∧
    (hello version).pipeline.router.allowedMethods target = [.put, .patch, .delete, .options] ∧
    ∀ request, ∃ response, storeOptions request = .ok response ∧
      response.headers.get allowName =
        some (allowValue ((hello version).pipeline.router.allowedMethods target)) := by
  obtain ⟨handler, hhandler⟩ := Option.isSome_iff_exists.mp answered
  have hfind := hhandler
  rw [Router.find_eq, App.answering_plain (by simp)] at hfind
  obtain ⟨⟨handler', params⟩, hfirst⟩ : ∃ found, Router.first .options (routablePath target)
      (hello version).routes = some found := by
    cases hnone : Router.first .options (routablePath target) (hello version).routes with
    | none =>
      rw [hnone] at hfind
      cases hfind
    | some found => exact ⟨found, rfl⟩
  rw [hfirst] at hfind
  obtain rfl : handler' = handler := Option.some.inj hfind
  obtain ⟨route, hmem, hmethod, hsame, hmatch⟩ := Router.first_some hfirst
  rw [options_route version hmem hmethod] at hsame hmatch
  have hallowed := store_allowed version hmatch
  refine ⟨by rw [hhandler, ← hsame], hallowed, ?_⟩
  intro request
  rw [hallowed]
  exact ⟨_, rfl, by decide⟩

/-- One key of the store, written with an escape. -/
theorem hello_options_key : ((hello (bytes "0.1.0")).pipeline.router.find .options
      (bytes "/store/%6Bey?x")).handler = some storeOptions ∧
    (hello (bytes "0.1.0")).pipeline.router.allowedMethods (bytes "/store/%6Bey?x") =
      [.put, .patch, .delete, .options] := by
  obtain ⟨hhandler, hallowed, -⟩ := @hello_options (bytes "0.1.0") (bytes "/store/%6Bey?x")
    (by decide +kernel)
  exact ⟨hhandler, hallowed⟩

end Carafe.Server
