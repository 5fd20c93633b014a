import FormSchema.Schema.Compilation
import FormSchema.Proofs.Enumeration.Requests
import FormSchema.Proofs.Schema.Halting
import FormSchema.Proofs.Schema.Relabel
import FormSchema.Proofs.Schema.Typing

/-!
Compilations that share one cache of enumerations.  The hook that a compilation hands its requests to
settles a request at once or keeps it.  What happens to the cache in a run of compilations, settlements
and retries is written down action by action: a name is asked for again only after its request has
failed and the failures have been forgotten, and a compilation that is repeated asks for nothing and
has the same outcome.
-/

namespace FormSchema

namespace Enumeration

/-- How a hook that settles a request at once has settled it. -/
def Outcome.settlement : Outcome → Settlement
  | .ready choices => .succeed choices
  | .failed message => .fail message
  | .timedOut => .timeOut

@[simp] theorem Outcome.outcome_settlement (outcome : Outcome) : outcome.settlement.outcome = outcome := by
  cases outcome <;> rfl

namespace Action

/-- The request that an action raises. -/
def request? : Action → Option Request
  | begin request => some request
  | _ => none

/-- Whether an action raises or settles a request for a name. -/
def Concerns (name : String) : Action → Prop
  | begin request => request.name = name
  | settle settled _ => settled = name
  | retryFailed => False

/-- Whether an action can happen: a name that has a state is not asked for, and only a request that was
raised can be settled. -/
def Possible (cache : Cache) : Action → Prop
  | begin request => cache.state? request.name = none
  | settle name _ => name ∈ cache.outstanding
  | retryFailed => True

end Action

namespace Cache

variable {cache after : Cache} {name : String}

/-- Whether actions can happen one after the other. -/
def Allows (cache : Cache) : List Action → Prop
  | [] => True
  | action :: actions => action.Possible cache ∧ (cache.act action).Allows actions

@[simp] theorem allows_nil : cache.Allows [] := trivial

theorem allows_append {actions more : List Action} :
    cache.Allows (actions ++ more) ↔
      cache.Allows actions ∧ (actions.foldl act cache).Allows more := by
  induction actions generalizing cache with
  | nil => simp
  | cons action actions ih => simp [Allows, ih, and_assoc]

theorem raised_act {action : Action} (h : action.Possible cache) :
    (cache.act action).raised = cache.raised ++ action.request?.toList := by
  cases action with
  | begin request =>
    rw [act, begin_eq_some h]
    rfl
  | settle name settlement =>
    rw [act_settle, settle_eq h]
    exact (List.append_nil _).symm
  | retryFailed => exact (List.append_nil _).symm

/-- The requests that a cache has a record of are those that were raised. -/
theorem Allows.raised_eq {actions : List Action} (h : cache.Allows actions) :
    (actions.foldl act cache).raised = cache.raised ++ actions.filterMap Action.request? := by
  induction actions generalizing cache with
  | nil => simp
  | cons action actions ih =>
    rw [List.foldl_cons, ih h.2, raised_act h.1, List.append_assoc, List.filterMap_cons]
    cases action.request? <;> rfl

/-- An action that has nothing to do with a pending name leaves it pending. -/
theorem state?_act_of_pending (consistent : cache.Consistent) {action : Action}
    (apart : ¬ action.Concerns name) (pending : cache.state? name = some .pending) :
    (cache.act action).state? name = some .pending := by
  cases action with
  | begin request =>
    by_cases hnew : cache.state? request.name = none
    · rw [act, begin_eq_some hnew, Option.getD_some, state?, List.lookup_cons,
        beq_false_of_ne (Ne.symm apart)]
      exact pending
    · rw [act, begin_eq_none hnew]
      exact pending
  | settle settled settlement =>
    rw [act_settle, state?_settle_ne (Ne.symm apart)]
    exact pending
  | retryFailed =>
    rw [act, state?_retryFailed consistent.keys, pending]
    rfl

end Cache

/-- Whether the request for a name that was raised before some actions is settled in vain, and the
failure is forgotten after that.  Until then nothing happens to the name. -/
def FailsAndIsForgotten (name : String) (actions : List Action) : Prop :=
  ∃ waiting settlement meanwhile rest,
    actions = waiting ++ .settle name settlement :: (meanwhile ++ .retryFailed :: rest) ∧
      (∀ action ∈ waiting, ¬ action.Concerns name) ∧ ∀ choices, settlement ≠ .succeed choices

namespace Cache

variable {cache : Cache} {name : String} {outcome : Outcome} {actions : List Action}

/-- A name can become unknown again only if it has failed, and only by a retry. -/
theorem exists_retry (consistent : cache.Consistent) (allows : cache.Allows actions)
    (settled : cache.state? name = some (.settled outcome))
    (forgotten : (actions.foldl act cache).state? name = none) :
    (∀ choices, outcome ≠ .ready choices) ∧
      ∃ meanwhile rest, actions = meanwhile ++ .retryFailed :: rest := by
  have hfailed (choices : List Choice) : outcome ≠ .ready choices := by
    rintro rfl
    rw [consistent.ready_foldl_act settled] at forgotten
    cases forgotten
  refine ⟨hfailed, ?_⟩
  induction actions generalizing cache with
  | nil =>
    rw [List.foldl_nil, settled] at forgotten
    cases forgotten
  | cons action actions ih =>
    have step (hstate : (cache.act action).state? name = some (.settled outcome)) :
        ∃ meanwhile rest, action :: actions = meanwhile ++ .retryFailed :: rest := by
      obtain ⟨meanwhile, rest, rfl⟩ := ih (consistent.act action) allows.2 hstate forgotten
      exact ⟨action :: meanwhile, rest, rfl⟩
    cases action with
    | begin request =>
      have hnew : cache.state? request.name = none := allows.1
      have hne : name ≠ request.name := fun heq => by
        rw [heq, hnew] at settled
        cases settled
      apply step
      rw [act, begin_eq_some hnew, Option.getD_some, state?, List.lookup_cons, beq_false_of_ne hne]
      exact settled
    | settle other settlement =>
      have hne : name ≠ other := fun heq => by
        rw [heq, (consistent.pending_iff other).1 allows.1] at settled
        cases settled
      apply step
      rw [act_settle, state?_settle_ne hne]
      exact settled
    | retryFailed => exact ⟨[], actions, rfl⟩

/-- A pending name can become unknown again only by way of a failure and a retry. -/
theorem failsAndIsForgotten (consistent : cache.Consistent) (allows : cache.Allows actions)
    (pending : cache.state? name = some .pending)
    (forgotten : (actions.foldl act cache).state? name = none) : FailsAndIsForgotten name actions := by
  induction actions generalizing cache with
  | nil =>
    rw [List.foldl_nil, pending] at forgotten
    cases forgotten
  | cons action actions ih =>
    by_cases hconcerns : action.Concerns name
    · cases action with
      | begin request =>
        have hnew : cache.state? request.name = none := allows.1
        rw [hconcerns, pending] at hnew
        cases hnew
      | settle other settlement =>
        obtain rfl : other = name := hconcerns
        have hsettled : (cache.act (.settle other settlement)).state? other =
            some (.settled settlement.outcome) := by
          rw [act_settle, state?_settle allows.1]
        obtain ⟨hfailed, meanwhile, rest, rfl⟩ :=
          exists_retry (consistent.act _) allows.2 hsettled forgotten
        refine ⟨[], settlement, meanwhile, rest, rfl, by simp, ?_⟩
        rintro choices rfl
        exact hfailed choices rfl
      | retryFailed => exact hconcerns.elim
    · obtain ⟨waiting, settlement, meanwhile, rest, rfl, hwaiting, hfailed⟩ :=
        ih (consistent.act action) allows.2
          (state?_act_of_pending consistent hconcerns pending) forgotten
      exact ⟨action :: waiting, settlement, meanwhile, rest, rfl,
        List.forall_mem_cons.2 ⟨hconcerns, hwaiting⟩, hfailed⟩

/-- Two requests for one name have a failure and a retry between them. -/
theorem Allows.failsAndIsForgotten {before between rest : List Action} {first second : Request}
    (allows : Allows {} (before ++ .begin first :: (between ++ .begin second :: rest)))
    (same : first.name = second.name) : FailsAndIsForgotten first.name between := by
  obtain ⟨-, hfirst, hrest⟩ := allows_append.1 allows
  obtain ⟨hbetween, hsecond, -⟩ := allows_append.1 hrest
  have hnew : (ofActions before).state? first.name = none := hfirst
  have hpending : ((ofActions before).act (.begin first)).state? first.name = some .pending := by
    rw [act, begin_eq_some hnew, Option.getD_some, state?, List.lookup_cons_self]
  refine Cache.failsAndIsForgotten ((consistent_ofActions before).act _) hbetween hpending ?_
  rw [same]
  exact hsecond

/-- Whether a cache knows at least what another one knows of the names that have a state. -/
def Extends (cache before : Cache) : Prop :=
  ∀ name, before.state? name ≠ none → cache.state? name = before.state? name

theorem Extends.refl (cache : Cache) : cache.Extends cache := fun _ _ => rfl

theorem Extends.trans {first second third : Cache} (h : third.Extends second)
    (h' : second.Extends first) : third.Extends first := fun name hname => by
  have hsecond := h' name hname
  rw [h name (hsecond ▸ hname), hsecond]

end Cache

namespace Sources

variable {sources : Sources} {cache : Cache} {name : String} {names : List String}

/-- What happens to a cache when a name is asked for. -/
def actions (sources : Sources) (cache : Cache) (name : String) : List Action :=
  match sources.choices? cache name, sources.host, cache.state? name with
  | none, some host, none =>
    .begin ⟨name, sources.timeout⟩ ::
      (host ⟨name, sources.timeout⟩).toList.map fun outcome => .settle name outcome.settlement
  | _, _, _ => []

/-- What happens to a cache when names are asked for one after the other. -/
def history (sources : Sources) : Cache → List String → List Action
  | _, [] => []
  | cache, name :: names => sources.actions cache name ++ history sources (sources.ask cache name) names

theorem raise_eq_self {host : Request → Option Outcome} {request : Request}
    (h : cache.state? request.name ≠ none) : raise host cache request = cache := by
  rw [raise, Cache.begin_eq_none h]

theorem raise_eq {host : Request → Option Outcome} {request : Request}
    (h : cache.state? request.name = none) :
    raise host cache request =
      ((host request).toList.map fun outcome => .settle request.name outcome.settlement).foldl
        Cache.act (cache.act (.begin request)) := by
  rw [raise, Cache.begin_eq_some h, Cache.act, Cache.begin_eq_some h, Option.getD_some]
  cases host request with
  | none => rfl
  | some outcome => simp [Cache.act_settle]

theorem ask_eq (sources : Sources) (cache : Cache) (name : String) :
    sources.ask cache name = (sources.actions cache name).foldl Cache.act cache := by
  rw [ask, actions]
  cases sources.choices? cache name with
  | some choices => rfl
  | none =>
    cases sources.host with
    | none => rfl
    | some host =>
      cases hstate : cache.state? name with
      | none => exact raise_eq hstate
      | some state => exact raise_eq_self (by rw [hstate]; exact Option.some_ne_none state)

theorem outstanding_begin (hnew : cache.state? name = none) :
    name ∈ (cache.act (.begin ⟨name, sources.timeout⟩)).outstanding := by
  rw [Cache.act, Cache.begin_eq_some hnew]
  simp [Cache.outstanding]

theorem allows_actions (sources : Sources) (cache : Cache) (name : String) :
    cache.Allows (sources.actions cache name) := by
  rw [actions]
  split
  · rename_i host _ _ hnew
    refine ⟨hnew, ?_⟩
    cases host ⟨name, sources.timeout⟩ with
    | none => trivial
    | some outcome => exact ⟨outstanding_begin hnew, trivial⟩
  · trivial

theorem foldl_ask_eq (sources : Sources) (cache : Cache) (names : List String) :
    names.foldl sources.ask cache = (sources.history cache names).foldl Cache.act cache := by
  induction names generalizing cache with
  | nil => rfl
  | cons name names ih => rw [history, List.foldl_append, ← ask_eq, List.foldl_cons, ih]

theorem allows_history (sources : Sources) (cache : Cache) (names : List String) :
    cache.Allows (sources.history cache names) := by
  induction names generalizing cache with
  | nil => trivial
  | cons name names ih =>
    rw [history, Cache.allows_append, ← ask_eq]
    exact ⟨sources.allows_actions cache name, ih _⟩

/-- A name that has a state keeps it, whatever is asked for. -/
theorem extends_ask (sources : Sources) (cache : Cache) (name : String) :
    (sources.ask cache name).Extends cache := by
  rw [ask]
  split
  · rename_i host _ _
    by_cases hnew : cache.state? name = none
    · intro other hother
      have hne : other ≠ name := fun heq => hother (heq ▸ hnew)
      have hbegin : (cache.act (.begin ⟨name, sources.timeout⟩)).state? other = cache.state? other := by
        rw [Cache.act, Cache.begin_eq_some hnew, Option.getD_some, Cache.state?, List.lookup_cons,
          beq_false_of_ne hne]
        rfl
      rw [raise_eq hnew]
      cases host ⟨name, sources.timeout⟩ with
      | none => exact hbegin
      | some outcome =>
        change (Cache.act _ (.settle name outcome.settlement)).state? other = _
        rw [Cache.act_settle, Cache.state?_settle_ne hne]
        exact hbegin
    · rw [raise_eq_self hnew]
      exact .refl cache
  · exact .refl cache

theorem extends_foldl_ask (sources : Sources) (cache : Cache) (names : List String) :
    (names.foldl sources.ask cache).Extends cache := by
  induction names generalizing cache with
  | nil => exact .refl cache
  | cons name names ih => exact (ih _).trans (sources.extends_ask cache name)

/-- Whether nothing is left to ask for under a name: it is provided for, or it was asked for before. -/
def Settled (sources : Sources) (cache : Cache) (name : String) : Prop :=
  sources.provided name ≠ none ∨ cache.state? name ≠ none

namespace Settled

theorem extend {after : Cache} (h : sources.Settled cache name) (hafter : after.Extends cache) :
    sources.Settled after name :=
  h.imp_right fun hstate => hafter name hstate ▸ hstate

theorem choices?_eq {after : Cache} (h : sources.Settled cache name) (hafter : after.Extends cache) :
    sources.choices? after name = sources.choices? cache name := by
  rw [choices?, choices?]
  rcases h with hprovided | hstate
  · obtain ⟨choices, hchoices⟩ := Option.ne_none_iff_exists'.1 hprovided
    rw [hchoices, Option.some_or, Option.some_or]
  · rw [Cache.ready?, Cache.ready?, hafter name hstate]

theorem ask_eq_self (h : sources.Settled cache name) : sources.ask cache name = cache := by
  rcases h with hprovided | hstate
  · obtain ⟨choices, hchoices⟩ := Option.ne_none_iff_exists'.1 hprovided
    rw [ask, choices?, hchoices, Option.some_or]
  · rw [ask]
    split
    · exact raise_eq_self hstate
    · rfl

theorem foldl_ask_eq_self (h : ∀ name ∈ names, sources.Settled cache name) :
    names.foldl sources.ask cache = cache := by
  induction names with
  | nil => rfl
  | cons name names ih =>
    rw [List.forall_mem_cons] at h
    rw [List.foldl_cons, h.1.ask_eq_self, ih h.2]

end Settled

/-- With a host, nothing is left to ask for under a name that was asked for. -/
theorem settled_ask {host : Request → Option Outcome} (hhost : sources.host = some host) :
    sources.Settled (sources.ask cache name) name := by
  by_cases hsettled : sources.Settled cache name
  · rwa [hsettled.ask_eq_self]
  · obtain ⟨hprovided, hnew⟩ := not_or.1 hsettled
    rw [not_not] at hprovided hnew
    have hnone : sources.choices? cache name = none := by
      rw [choices?, hprovided, Option.none_or, Cache.ready?, hnew]
    have hbegin : (cache.act (.begin ⟨name, sources.timeout⟩)).state? name = some .pending := by
      rw [Cache.act, Cache.begin_eq_some hnew, Option.getD_some, Cache.state?, List.lookup_cons_self]
    have hask : sources.ask cache name =
        ((host ⟨name, sources.timeout⟩).toList.map fun outcome =>
          Action.settle name outcome.settlement).foldl Cache.act
            (cache.act (.begin ⟨name, sources.timeout⟩)) := by
      rw [ask, hnone, hhost]
      exact raise_eq hnew
    right
    rw [hask]
    cases host ⟨name, sources.timeout⟩ with
    | none => exact (congrArg (· ≠ none) hbegin).mpr (Option.some_ne_none _)
    | some outcome =>
      have hsettled : ((cache.act (.begin ⟨name, sources.timeout⟩)).act
          (.settle name outcome.settlement)).state? name =
            some (.settled outcome.settlement.outcome) := by
        rw [Cache.act_settle]
        exact Cache.state?_settle (outstanding_begin hnew)
      exact (congrArg (· ≠ none) hsettled).mpr (Option.some_ne_none _)

theorem settled_foldl_ask {host : Request → Option Outcome} (hhost : sources.host = some host) :
    ∀ name ∈ names, sources.Settled (names.foldl sources.ask cache) name := by
  induction names generalizing cache with
  | nil => simp
  | cons name names ih =>
    exact List.forall_mem_cons.2
      ⟨(settled_ask hhost).extend (sources.extends_foldl_ask _ names), ih⟩

/-- What a name offers when its turn comes is what it offers in the end. -/
theorem choices?_foldl_ask {host : Request → Option Outcome} (hhost : sources.host = some host)
    (before after : List String) :
    sources.choices? ((before ++ name :: after).foldl sources.ask cache) name =
      sources.choices? ((before ++ [name]).foldl sources.ask cache) name := by
  rw [List.foldl_append, List.foldl_append]
  exact (settled_ask hhost).choices?_eq (sources.extends_foldl_ask _ after)

end Sources

end Enumeration

open Enumeration

/-- The same settings with a hook that the requests of a compilation are handed to.  A compilation asks
for a name at most once, so that a function says all that a hook does in its course. -/
def Settings.hooked (settings : Settings) (hook : Request → Option Outcome) : Settings :=
  { settings with sources := { settings.sources with host := some hook } }

namespace Compilation

/-- The names that a compilation asks for, in order. -/
def asked (settings : Settings) (raw : Json) : List String :=
  match Definitions.inline settings.dialect raw with
  | .error _ => []
  | .ok (inlined, _) => names (typings (Outline.ofJson inlined))

/-- Also a compilation that is refused leaves the cache with all names asked for. -/
theorem cache_compile (settings : Settings) (cache : Cache) (raw : Json) (data : Option Json) :
    (compile settings cache raw data).2 = (asked settings raw).foldl settings.sources.ask cache := by
  rw [compile, asked]
  cases Definitions.inline settings.dialect raw <;> rfl

/-- Once nothing is left to ask for, the outcome depends on what the names offer alone. -/
theorem compile_eq_of_settled {settings settings' : Settings} {cache cache' : Cache} {raw : Json}
    {data : Option Json}
    (dialect : settings'.dialect = settings.dialect) (userData : settings'.userData = settings.userData)
    (settled : ∀ name ∈ asked settings raw, settings'.sources.Settled cache' name)
    (offers : ∀ name ∈ asked settings raw, settings'.sources.choices? cache' name =
      settings.sources.choices? (compile settings cache raw data).2 name) :
    compile settings' cache' raw data = ((compile settings cache raw data).1, cache') := by
  rw [cache_compile] at offers
  rw [asked] at settled offers
  rw [compile, compile, dialect, userData]
  cases hinline : Definitions.inline settings.dialect raw with
  | error e => rfl
  | ok out =>
    obtain ⟨inlined, inlining⟩ := out
    rw [hinline] at settled offers
    dsimp only at settled offers ⊢
    have htyped : ((typings (Outline.ofJson inlined)).map fun typed =>
        typed.2.attributes (settings'.sources.choices? cache') typed.1) =
        (typings (Outline.ofJson inlined)).map fun typed => typed.2.attributes
          (settings.sources.choices? ((names (typings (Outline.ofJson inlined))).foldl
            settings.sources.ask cache)) typed.1 :=
      Tree.map_congr fun typed htyped => Typing.attributes_congr typed.1 fun name hname =>
        offers name (List.mem_filterMap.2 ⟨typed, htyped, hname⟩)
    rw [Sources.Settled.foldl_ask_eq_self settled, htyped]

/-- What is done with one compiler: it compiles, the host settles a request that it has kept, or the
failures are forgotten. -/
inductive Operation where
  | compile (settings : Settings) (hook : Request → Option Outcome) (raw : Json) (data : Option Json)
  | settle (name : String) (settlement : Settlement)
  | retryFailed

namespace Operation

def IsCompile : Operation → Prop
  | compile .. => True
  | _ => False

/-- The cache after an operation. -/
def perform (cache : Cache) : Operation → Cache
  | compile settings hook raw data => (Compilation.compile (settings.hooked hook) cache raw data).2
  | settle name settlement => settlement.carryOut name cache
  | retryFailed => cache.retryFailed

/-- What happens to a cache in the course of an operation. -/
def actions (cache : Cache) : Operation → List Action
  | compile settings hook raw _ =>
    (settings.hooked hook).sources.history cache (asked (settings.hooked hook) raw)
  | settle name settlement => if name ∈ cache.outstanding then [.settle name settlement] else []
  | retryFailed => [.retryFailed]

theorem perform_eq (cache : Cache) (operation : Operation) :
    operation.perform cache = (operation.actions cache).foldl Cache.act cache := by
  cases operation with
  | compile settings hook raw data => exact (cache_compile ..).trans (Sources.foldl_ask_eq ..)
  | settle name settlement =>
    rw [perform, actions]
    split
    · rfl
    · rename_i hname
      exact (Cache.carryOut_eq settlement).trans (Cache.settle_eq_self hname)
  | retryFailed => rfl

theorem allows_actions (cache : Cache) (operation : Operation) :
    cache.Allows (operation.actions cache) := by
  cases operation with
  | compile settings hook raw data => exact Sources.allows_history ..
  | settle name settlement =>
    rw [actions]
    split
    · rename_i hname
      exact ⟨hname, trivial⟩
    · trivial
  | retryFailed => exact ⟨trivial, trivial⟩

theorem extends_perform {operation : Operation} (h : operation.IsCompile) (cache : Cache) :
    (operation.perform cache).Extends cache := by
  cases operation with
  | compile settings hook raw data =>
    rw [perform, cache_compile]
    exact Sources.extends_foldl_ask _ _ _
  | _ => exact h.elim

theorem extends_foldl_perform {operations : List Operation} (h : ∀ o ∈ operations, o.IsCompile)
    (cache : Cache) : (operations.foldl perform cache).Extends cache := by
  induction operations generalizing cache with
  | nil => exact .refl cache
  | cons operation operations ih =>
    rw [List.forall_mem_cons] at h
    exact (ih h.2 _).trans (extends_perform h.1 cache)

end Operation

/-- The cache after a run. -/
def ofOperations (operations : List Operation) : Cache := operations.foldl Operation.perform {}

/-- What happens to a cache in the course of a run. -/
def history : Cache → List Operation → List Action
  | _, [] => []
  | cache, operation :: operations =>
    operation.actions cache ++ history (operation.perform cache) operations

theorem foldl_perform_eq (cache : Cache) (operations : List Operation) :
    operations.foldl Operation.perform cache =
      (history cache operations).foldl Cache.act cache := by
  induction operations generalizing cache with
  | nil => rfl
  | cons operation operations ih =>
    rw [history, List.foldl_append, ← Operation.perform_eq, List.foldl_cons, ih]

theorem allows_history (cache : Cache) (operations : List Operation) :
    cache.Allows (history cache operations) := by
  induction operations generalizing cache with
  | nil => trivial
  | cons operation operations ih =>
    rw [history, Cache.allows_append, ← Operation.perform_eq]
    exact ⟨operation.allows_actions cache, ih _⟩

/-- In a run of one compiler, the requests on record are those of its history, and two requests for one
name have a failure of the first one and a retry between them.  A compilation that is repeated, with at
most other compilations in between, raises no request and has the same outcome; and what a name offers
in a compilation is the same for all schemas that use it. -/
theorem requests_ofOperations (operations : List Operation) :
    (ofOperations operations).raised = (history {} operations).filterMap Action.request? ∧
      (∀ before between rest first second,
        history {} operations = before ++ .begin first :: (between ++ .begin second :: rest) →
        first.name = second.name → FailsAndIsForgotten first.name between) ∧
      ∀ (settings : Settings) (hook : Request → Option Outcome) (raw : Json) (data : Option Json),
        let first := compile (settings.hooked hook) (ofOperations operations) raw data
        (∀ between : List Operation, (∀ operation ∈ between, operation.IsCompile) → ∀ hook',
          let cache := between.foldl Operation.perform first.2
          compile (settings.hooked hook') cache raw data = (first.1, cache)) ∧
        ∀ before name after, asked (settings.hooked hook) raw = before ++ name :: after →
          settings.sources.choices? first.2 name = settings.sources.choices?
            ((before ++ [name]).foldl (settings.hooked hook).sources.ask (ofOperations operations))
              name := by
  have hallows := allows_history {} operations
  refine ⟨?_, fun before between rest first second heq same => ?_, fun settings hook raw data => ?_⟩
  · rw [ofOperations, foldl_perform_eq, hallows.raised_eq]
    rfl
  · rw [heq] at hallows
    exact hallows.failsAndIsForgotten same
  · intro first
    refine ⟨fun between hbetween hook' => ?_, fun before name after heq => ?_⟩
    · have hafter := Operation.extends_foldl_perform hbetween first.2
      have hsettled : ∀ name ∈ asked (settings.hooked hook) raw,
          (settings.hooked hook).sources.Settled first.2 name := by
        rw [cache_compile]
        exact Sources.settled_foldl_ask rfl
      exact compile_eq_of_settled rfl rfl (fun name hname => (hsettled name hname).extend hafter)
        fun name hname => (hsettled name hname).choices?_eq hafter
    · rw [cache_compile, heq]
      have hhost : (settings.hooked hook).sources.host = some hook := rfl
      exact Sources.choices?_foldl_ask hhost before after

/-! A host that keeps the request of a schema, fails, and is asked again. -/

namespace Retried

def raw : Json := .obj [("type", .str "string"), ("enumSource", .str "colors")]

def request : Request := ⟨"colors", 10000⟩

def operations : List Operation :=
  [.compile {} (fun _ => none) raw none, .settle "colors" (.fail "offline"), .retryFailed,
    .compile {} (fun _ => none) raw none]

theorem asked_eq (hook : Request → Option Outcome) :
    asked (({} : Settings).hooked hook) raw = ["colors"] := by
  have inline_eq : Definitions.inline .draft7 raw = .ok (raw, []) :=
    Definitions.inline_eq_of_within rfl
  have outline_eq : Outline.ofJson raw = .node ⟨[], raw, false⟩ [] := by
    rw [Outline.ofJson, Outline.build]
    rfl
  have hasked : asked (({} : Settings).hooked hook) raw =
      match Definitions.inline .draft7 raw with
      | .error _ => []
      | .ok (inlined, _) => names (typings (Outline.ofJson inlined)) := rfl
  rw [hasked, inline_eq]
  dsimp only
  rw [outline_eq]
  decide +kernel

theorem history_eq : history {} operations = [] ++ .begin request ::
    ([.settle "colors" (.fail "offline"), .retryFailed] ++ .begin request :: []) := by
  simp only [operations, history, Operation.actions, Operation.perform, cache_compile, asked_eq]
  rfl

end Retried

/-- The request is raised once more after it has failed; while the second one is kept, a hook that would
answer at once is not asked. -/
theorem requests_ofOperations_retried :
    FailsAndIsForgotten "colors" [.settle "colors" (.fail "offline"), .retryFailed] ∧
      let first := compile (({} : Settings).hooked fun _ => none) (ofOperations Retried.operations)
        Retried.raw none
      compile (({} : Settings).hooked fun _ => some (.ready [])) first.2 Retried.raw none = first := by
  obtain ⟨-, hbetween, hrepeated⟩ := requests_ofOperations Retried.operations
  refine ⟨hbetween [] _ [] Retried.request Retried.request Retried.history_eq rfl, ?_⟩
  exact (hrepeated {} (fun _ => none) Retried.raw none).1 [] (by simp) _

end Compilation

end FormSchema
