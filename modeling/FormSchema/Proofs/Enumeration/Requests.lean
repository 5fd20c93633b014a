import FormSchema.Enumeration.Request
import Mathlib.Data.List.Nodup

/-!
Runs over one cache of enumerations.  Requests outlive the call that raises them and are settled in
any order, between new requests and retries.  A name is pending for as long as its only request is
unsettled; a settlement changes the state of its name and of no other one, and choices that were
given once are never lost.
-/

namespace FormSchema.Enumeration

section Entries

variable {α : Type} {name other : String}

theorem lookup_filter_ne (h : other ≠ name) (entries : List (String × α)) :
    (entries.filter (·.1 != name)).lookup other = entries.lookup other := by
  induction entries with
  | nil => rfl
  | cons entry entries ih =>
    obtain ⟨key, value⟩ := entry
    by_cases hkey : key = name
    · subst hkey
      simp [List.lookup_cons, beq_false_of_ne h, ih]
    · simp [hkey, List.lookup_cons, ih]

theorem lookup_eq_none (entries : List (String × α)) :
    entries.lookup name = none ↔ name ∉ entries.map Prod.fst := by
  rw [List.lookup_eq_none_iff, List.mem_map]
  simp only [bne_iff_ne, ne_eq, not_exists, not_and]
  exact forall₂_congr fun _ _ => not_congr eq_comm

/-- Where no key stands twice, a look-up in some of the entries finds what a look-up in all finds, if
that entry is still there. -/
theorem lookup_filter_of_nodup (p : String × α → Bool) {entries : List (String × α)}
    (h : (entries.map Prod.fst).Nodup) :
    (entries.filter p).lookup name = (entries.lookup name).filter fun value => p (name, value) := by
  induction entries with
  | nil => rfl
  | cons entry entries ih =>
    obtain ⟨key, value⟩ := entry
    obtain ⟨hnew, hrest⟩ := List.nodup_cons.1 h
    by_cases hkey : name = key
    · subst hkey
      have hnone : (entries.filter p).lookup name = none := by
        rw [ih hrest, (lookup_eq_none entries).2 hnew, Option.filter_none]
      by_cases hp : p (name, value) = true <;> simp [hp, hnone, Option.filter_some]
    · by_cases hp : p (key, value) = true <;>
        simp [hp, List.lookup_cons, beq_false_of_ne hkey, ih hrest]

end Entries

/-- How a host is done with a request: it has choices, it has none to give, it has waited too long,
or it lets the request go without a word. -/
inductive Settlement where
  | succeed (choices : List Choice)
  | fail (message : String)
  | timeOut
  | drop

namespace Settlement

/-- A request that is let go of counts as one that took too long. -/
def outcome : Settlement → Outcome
  | succeed choices => .ready choices
  | fail message => .failed message
  | timeOut | drop => .timedOut

def carryOut (name : String) (cache : Cache) : Settlement → Cache
  | succeed choices => cache.settle name (.ready choices)
  | fail message => cache.settle name (.failed message)
  | timeOut => cache.settle name .timedOut
  | drop => cache.consume name Handle.drop

end Settlement

/-- What can happen to a cache. -/
inductive Action where
  | begin (request : Request)
  | settle (name : String) (settlement : Settlement)
  | retryFailed

namespace Cache

variable {cache : Cache} {name other : String} {outcome : Outcome} {choices : List Choice}

/-- The names of the requests that are not settled. -/
def outstanding (cache : Cache) : List String := cache.unsettled.map Request.name

def act (cache : Cache) : Action → Cache
  | .begin request => (cache.begin request).getD cache
  | .settle name settlement => settlement.carryOut name cache
  | .retryFailed => cache.retryFailed

/-- The cache after a run. -/
def ofActions (actions : List Action) : Cache := actions.foldl act {}

/-- Whether requests and states agree. -/
structure Consistent (cache : Cache) : Prop where
  keys : (cache.states.map Prod.fst).Nodup
  single : cache.outstanding.Nodup
  pending_iff : ∀ name, name ∈ cache.outstanding ↔ cache.state? name = some .pending

/-- Whether one cache comes from another one by settling the pending request of a name. -/
structure Settles (cache : Cache) (name : String) (outcome : Outcome) (after : Cache) : Prop where
  pending : cache.state? name = some .pending
  settled : after.state? name = some (.settled outcome)
  others : ∀ other, other ≠ name → after.state? other = cache.state? other

theorem consistent_empty : Consistent {} where
  keys := List.nodup_nil
  single := List.nodup_nil
  pending_iff _ := by simp [outstanding, state?]

section Begin

variable {request : Request}

theorem begin_eq_none (h : cache.state? request.name ≠ none) : cache.begin request = none := by
  obtain ⟨state, hstate⟩ := Option.ne_none_iff_exists'.1 h
  rw [begin, hstate]

theorem begin_eq_some (h : cache.state? request.name = none) :
    cache.begin request = some {
      states := (request.name, .pending) :: cache.states
      unsettled := cache.unsettled ++ [request]
      raised := cache.raised ++ [request] } := by
  rw [begin, h]

end Begin

end Cache

namespace Handle

variable {handle : Handle} {cache : Cache} {outcome : Outcome}

/-- A request has one outcome.  Once it is settled nothing more comes of it. -/
theorem settle_eq_self (h : handle.live = false) : handle.settle outcome cache = (handle, cache) := by
  rw [settle, h]
  rfl

theorem live_settle : (handle.settle outcome cache).1.live = false := by
  by_cases h : handle.live = true
  · rw [settle, if_pos h]
  · rw [settle, if_neg h]
    exact eq_false_of_ne_true h

theorem drop_eq : handle.drop cache = (handle.settle .timedOut cache).2 := by
  by_cases h : handle.live = true
  · rw [drop, if_pos h]
  · rw [drop, if_neg h, settle_eq_self (eq_false_of_ne_true h)]

/-- To let go of a request that has just been settled changes nothing. -/
theorem finish_eq : handle.finish outcome cache = (handle.settle outcome cache).2 := by
  rw [finish]
  exact drop_eq.trans (congrArg Prod.snd (settle_eq_self live_settle))

end Handle

namespace Cache

variable {cache : Cache} {name other : String} {outcome : Outcome} {choices : List Choice}

theorem consume_eq_self {last : Handle → Cache → Cache} (h : name ∉ cache.outstanding) :
    cache.consume name last = cache := by
  have hnone : cache.unsettled.find? (·.name == name) = none := by
    simpa [outstanding] using h
  rw [consume, hnone]

theorem consume_eq (h : name ∈ cache.outstanding) (last : Handle → Cache → Cache) :
    ∃ request : Request, request.name = name ∧ cache.consume name last =
      last { request with } { cache with unsettled := cache.unsettled.eraseP (·.name == name) } := by
  have hsome : (cache.unsettled.find? (·.name == name)).isSome = true := by
    simpa [outstanding] using h
  obtain ⟨request, hrequest⟩ := Option.isSome_iff_exists.1 hsome
  have hname := List.find?_some hrequest
  refine ⟨request, beq_iff_eq.1 hname, ?_⟩
  rw [consume, hrequest]

theorem settle_eq_self (h : name ∉ cache.outstanding) : cache.settle name outcome = cache :=
  consume_eq_self h

theorem settle_eq (h : name ∈ cache.outstanding) :
    cache.settle name outcome = { cache with
      states := (name, .settled outcome) :: cache.states.filter (·.1 != name)
      unsettled := cache.unsettled.eraseP (·.name == name) } := by
  obtain ⟨request, rfl, heq⟩ := consume_eq h fun handle => handle.finish outcome
  rw [settle, heq, Handle.finish_eq]
  rfl

/-- However a host is done with a request, the request is settled with the outcome of that. -/
theorem carryOut_eq (settlement : Settlement) :
    settlement.carryOut name cache = cache.settle name settlement.outcome := by
  cases settlement with
  | drop =>
    have hdrop : Handle.drop = fun handle => handle.finish .timedOut := by
      funext handle cache
      rw [Handle.drop_eq, Handle.finish_eq]
    exact congrArg (cache.consume name) hdrop
  | _ => rfl

theorem act_settle (settlement : Settlement) :
    cache.act (.settle name settlement) = cache.settle name settlement.outcome :=
  carryOut_eq settlement

theorem outstanding_settle : (cache.settle name outcome).outstanding = cache.outstanding.erase name := by
  by_cases h : name ∈ cache.outstanding
  · rw [settle_eq h, outstanding, outstanding, List.erase_eq_eraseP', List.eraseP_map]
    rfl
  · rw [settle_eq_self h, List.erase_of_not_mem h]

theorem state?_settle (h : name ∈ cache.outstanding) :
    (cache.settle name outcome).state? name = some (.settled outcome) := by
  rw [settle_eq h, state?, List.lookup_cons_self]

theorem state?_settle_ne (h : other ≠ name) :
    (cache.settle name outcome).state? other = cache.state? other := by
  by_cases hname : name ∈ cache.outstanding
  · rw [settle_eq hname, state?, List.lookup_cons, beq_false_of_ne h]
    exact lookup_filter_ne h cache.states
  · rw [settle_eq_self hname]

/-- Whether a state outlasts a retry. -/
def State.lasts : State → Bool
  | .pending | .settled (.ready _) => true
  | .settled (.failed _) | .settled .timedOut => false

theorem state?_retryFailed (keys : (cache.states.map Prod.fst).Nodup) :
    cache.retryFailed.state? name = (cache.state? name).filter State.lasts :=
  lookup_filter_of_nodup _ keys

namespace Consistent

theorem begin (h : cache.Consistent) {request : Request} (hnew : cache.state? request.name = none) :
    ((cache.begin request).getD cache).Consistent := by
  rw [begin_eq_some hnew, Option.getD_some]
  have hkey : request.name ∉ cache.states.map Prod.fst := (lookup_eq_none _).1 hnew
  have hout : request.name ∉ cache.outstanding := by
    rw [h.pending_iff, hnew]
    exact Option.some_ne_none _ |>.symm
  refine ⟨List.nodup_cons.2 ⟨hkey, h.keys⟩, ?_, fun name => ?_⟩
  · rw [outstanding, List.map_append]
    exact h.single.append (List.nodup_singleton _) (List.disjoint_singleton.2 hout)
  · rw [outstanding, List.map_append, List.mem_append, state?, List.lookup_cons]
    by_cases hname : name = request.name
    · simp [hname]
    · rw [beq_false_of_ne hname]
      simp only [List.map_singleton, List.mem_singleton, hname, or_false]
      exact h.pending_iff name

theorem settle (h : cache.Consistent) : (cache.settle name outcome).Consistent := by
  by_cases hname : name ∈ cache.outstanding
  · refine ⟨?_, ?_, fun other => ?_⟩
    · rw [settle_eq hname, List.map_cons]
      refine List.nodup_cons.2 ⟨?_, h.keys.sublist (List.filter_sublist.map _)⟩
      simp
    · rw [outstanding_settle]
      exact h.single.erase name
    · rw [outstanding_settle, h.single.mem_erase_iff]
      by_cases hother : other = name
      · rw [hother, state?_settle hname]
        simp
      · rw [state?_settle_ne hother, ← h.pending_iff]
        exact and_iff_right hother
  · rwa [settle_eq_self hname]

theorem retryFailed (h : cache.Consistent) : cache.retryFailed.Consistent where
  keys := h.keys.sublist (List.filter_sublist.map _)
  single := h.single
  pending_iff name := by
    rw [state?_retryFailed h.keys, Option.filter_eq_some_iff]
    exact (h.pending_iff name).trans (iff_self_and.2 fun _ => rfl)

/-- Whatever happens next, requests and states go on agreeing. -/
theorem act (h : cache.Consistent) (action : Action) : (cache.act action).Consistent := by
  cases action with
  | begin request =>
    by_cases hstate : cache.state? request.name = none
    · exact h.begin hstate
    · rwa [Cache.act, begin_eq_none hstate]
  | settle name settlement =>
    rw [act_settle]
    exact h.settle
  | retryFailed => exact h.retryFailed

theorem foldl_act (h : cache.Consistent) (actions : List Action) :
    (actions.foldl Cache.act cache).Consistent := by
  induction actions generalizing cache with
  | nil => exact h
  | cons action actions ih => exact ih (h.act action)

theorem settles (h : cache.Consistent) (hname : name ∈ cache.outstanding) :
    cache.Settles name outcome (cache.settle name outcome) where
  pending := (h.pending_iff name).1 hname
  settled := state?_settle hname
  others _ := state?_settle_ne

/-- The request of a name with choices is settled, so that nothing can take the choices away. -/
theorem ready_act (h : cache.Consistent) (hready : cache.state? name = some (.settled (.ready choices)))
    (action : Action) : (cache.act action).state? name = some (.settled (.ready choices)) := by
  cases action with
  | begin request =>
    by_cases hnew : cache.state? request.name = none
    · have hne : name ≠ request.name := fun heq => by
        rw [heq, hnew] at hready
        cases hready
      rw [Cache.act, begin_eq_some hnew, Option.getD_some, state?, List.lookup_cons,
        beq_false_of_ne hne]
      exact hready
    · rw [Cache.act, begin_eq_none hnew]
      exact hready
  | settle settled settlement =>
    by_cases heq : name = settled
    · have hout : settled ∉ cache.outstanding := by
        rw [h.pending_iff, ← heq, hready]
        simp
      rw [act_settle, settle_eq_self hout]
      exact hready
    · rw [act_settle, state?_settle_ne heq]
      exact hready
  | retryFailed =>
    rw [Cache.act, state?_retryFailed h.keys, hready]
    rfl

theorem ready_foldl_act (h : cache.Consistent)
    (hready : cache.state? name = some (.settled (.ready choices))) (actions : List Action) :
    (actions.foldl Cache.act cache).state? name = some (.settled (.ready choices)) := by
  induction actions generalizing cache with
  | nil => exact hready
  | cons action actions ih => exact ih (h.act action) (h.ready_act hready action)

end Consistent

theorem consistent_ofActions (actions : List Action) : (ofActions actions).Consistent :=
  consistent_empty.foldl_act actions

/-- At every point of every run, a name has at most one request that is not settled, and has one
exactly if it is pending.  To settle it changes the pending name to the outcome and leaves the other
names alone; and a name that has choices keeps them. -/
theorem requests_ofActions (actions : List Action) (name : String) :
    (ofActions actions).outstanding.count name ≤ 1 ∧
      ((ofActions actions).outstanding.count name = 1 ↔
        (ofActions actions).state? name = some .pending) ∧
      (name ∈ (ofActions actions).outstanding → ∀ settlement : Settlement,
        (ofActions actions).Settles name settlement.outcome
            (ofActions (actions ++ [.settle name settlement])) ∧
          name ∉ (ofActions (actions ++ [.settle name settlement])).outstanding) ∧
      ∀ choices, (ofActions actions).state? name = some (.settled (.ready choices)) →
        ∀ more, (ofActions (actions ++ more)).state? name = some (.settled (.ready choices)) := by
  have h := consistent_ofActions actions
  have hcount := List.nodup_iff_count_le_one.1 h.single name
  refine ⟨hcount, ?_, fun hname settlement => ?_, fun choices hready more => ?_⟩
  · rw [← h.pending_iff, ← List.count_pos_iff]
    omega
  · have hafter : ofActions (actions ++ [.settle name settlement]) =
        (ofActions actions).settle name settlement.outcome :=
      (List.foldl_concat ..).trans (act_settle settlement)
    rw [hafter, outstanding_settle]
    exact ⟨h.settles hname, h.single.not_mem_erase⟩
  · rw [ofActions, List.foldl_append]
    exact h.ready_foldl_act hready more

/-- Two names are asked for, and the first one is answered and asked for again; then the request for
the second one is let go of, and what failed is forgotten. -/
theorem requests_ofActions_dropped :
    let actions := [.begin ⟨"colors", 10⟩, .begin ⟨"sizes", 10⟩, .settle "colors" (.succeed []),
      .begin ⟨"colors", 10⟩]
    (ofActions actions).outstanding = ["sizes"] ∧
      (ofActions actions).Settles "sizes" .timedOut (ofActions (actions ++ [.settle "sizes" .drop])) ∧
      (ofActions (actions ++ [.settle "sizes" .drop, .retryFailed])).state? "colors" =
        some (.settled (.ready [])) := by
  intro actions
  obtain ⟨-, -, hsettles, -⟩ := requests_ofActions actions "sizes"
  obtain ⟨-, -, -, hready⟩ := requests_ofActions actions "colors"
  exact ⟨by rfl, (hsettles (by decide) .drop).1, hready [] (by rfl) _⟩

end Cache

end FormSchema.Enumeration
