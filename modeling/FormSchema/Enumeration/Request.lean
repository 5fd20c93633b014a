import FormSchema.Enumeration.Choice

/-!
Requests for named enumerations.  A name is asked for once; the host settles the request, at once or
later, and only a name that failed or timed out can be asked for again.
-/

namespace FormSchema.Enumeration

inductive Outcome where
  | ready (choices : List Choice)
  | failed (message : String)
  | timedOut

inductive State where
  | pending
  | settled (outcome : Outcome)

/-- A request for the choices of a name, with the milliseconds that it may take. -/
structure Request where
  name : String
  timeout : Nat
  deriving DecidableEq, Repr

/-- What has become of the names that were asked for. -/
structure Cache where
  states : List (String × State) := []
  /-- The requests that the host has not settled. -/
  unsettled : List Request := []
  /-- Every request so far, in order. -/
  raised : List Request := []

namespace Cache

def state? (cache : Cache) (name : String) : Option State := cache.states.lookup name

def ready? (cache : Cache) (name : String) : Option (List Choice) :=
  match cache.state? name with
  | some (.settled (.ready choices)) => some choices
  | _ => none

/-- Raises a request, unless the name has one already or is settled. -/
def begin (cache : Cache) (request : Request) : Option Cache :=
  match cache.state? request.name with
  | some _ => none
  | none =>
    some { states := (request.name, .pending) :: cache.states
           unsettled := cache.unsettled ++ [request]
           raised := cache.raised ++ [request] }

/-- Puts an outcome in the place of whatever the state of a name is. -/
def record (cache : Cache) (name : String) (outcome : Outcome) : Cache :=
  { cache with states := (name, .settled outcome) :: cache.states.filter (·.1 != name) }

def retryFailed (cache : Cache) : Cache :=
  { cache with
    states := cache.states.filter fun entry =>
      match entry.2 with
      | .pending | .settled (.ready _) => true
      | .settled (.failed _) | .settled .timedOut => false }

end Cache

/-- A request in the hands of the host. -/
structure Handle extends Request where
  /-- Whether it can still reach the cache, which it gives away when it settles. -/
  live : Bool := true

namespace Handle

def settle (handle : Handle) (outcome : Outcome) (cache : Cache) : Handle × Cache :=
  if handle.live then ({ handle with live := false }, cache.record handle.name outcome)
  else (handle, cache)

/-- Lets go of a request.  One that has no outcome yet counts as one that took too long. -/
def drop (handle : Handle) (cache : Cache) : Cache :=
  if handle.live then (handle.settle .timedOut cache).2 else cache

def finish (handle : Handle) (outcome : Outcome) (cache : Cache) : Cache :=
  let (handle, cache) := handle.settle outcome cache
  handle.drop cache

end Handle

namespace Cache

/-- Takes the request for a name out of the hands of the host, if the host has one, for the last that
is done with it. -/
def consume (cache : Cache) (name : String) (last : Handle → Cache → Cache) : Cache :=
  match cache.unsettled.find? (·.name == name) with
  | none => cache
  | some request =>
    last { request with } { cache with unsettled := cache.unsettled.eraseP (·.name == name) }

/-- Settles the request for a name, if the host has one. -/
def settle (cache : Cache) (name : String) (outcome : Outcome) : Cache :=
  cache.consume name fun handle => handle.finish outcome

end Cache

/-- Where choices come from: what the application provides under a name, and a host that answers
requests.  The host settles a request at once or keeps it. -/
structure Sources where
  provided : String → Option (List Choice) := fun _ => none
  host : Option (Request → Option Outcome) := none
  timeout : Nat := 10000

namespace Sources

def choices? (sources : Sources) (cache : Cache) (name : String) : Option (List Choice) :=
  (sources.provided name).or (cache.ready? name)

def raise (host : Request → Option Outcome) (cache : Cache) (request : Request) : Cache :=
  match cache.begin request, host request with
  | none, _ => cache
  | some cache, none => cache
  | some cache, some outcome => cache.settle request.name outcome

def ask (sources : Sources) (cache : Cache) (name : String) : Cache :=
  match sources.choices? cache name, sources.host with
  | none, some host => raise host cache ⟨name, sources.timeout⟩
  | _, _ => cache

end Sources

end FormSchema.Enumeration
