import FormSchema.Pointer
import FormSchema.Proofs.Outcome

/-!
Pointers on paths.  Where places are told apart by the paths that lead to them, to resolve a pointer
is to shorten a path and to make it longer again; two ways to speak of places that agree on single
steps agree on pointers.
-/

namespace FormSchema.Pointer

variable {α β κ : Type}

/-- The paths to the ancestors of the end of a path, from the parent up. -/
def above (path : List κ) : List (List κ) :=
  (List.range path.length).map fun i => path.take (path.length - (i + 1))

theorem above_concat (path : List κ) (step : κ) :
    above (path ++ [step]) = path :: above path := by
  rw [above, List.length_append, List.length_singleton, List.range_succ_eq_map, List.map_cons,
    List.map_map]
  refine List.cons_eq_cons.2 ⟨by simp, List.map_congr_left fun i hi => ?_⟩
  have : path.length + 1 - (i + 1 + 1) = path.length - (i + 1) := by omega
  simp only [Function.comp, Nat.succ_eq_add_one, this]
  rw [List.take_append_of_le_length (by omega)]

theorem getElem?_cons_above (path : List κ) (up : Nat) :
    (path :: above path)[up]? =
      if up ≤ path.length then some (path.take (path.length - up)) else none := by
  cases up with
  | zero => simp
  | succ up =>
    rw [List.getElem?_cons_succ, above, List.getElem?_map]
    by_cases h : up < path.length
    · simp [h, Nat.succ_le_of_lt h]
    · simp [h, show ¬ up + 1 ≤ path.length by omega]

/-- Navigation by paths, given the step that a token names at the end of a path. -/
def pathNavigation (step? : List κ → String → Option κ) : Navigation (List κ) where
  root := []
  ancestors := above
  child? path token := (step? path token).map fun step => path ++ [step]

/-- Where the descent of a pointer starts. -/
def start? (nav : Navigation α) (start : α) : Pointer → Option α
  | .absolute _ => some nav.root
  | .relative up _ => (start :: nav.ancestors start)[up]?

theorem resolve_eq_ok_iff {nav : Navigation α} {start : α} {p : Pointer} {found : Option α} :
    resolve nav start p = .ok found ↔
      ∃ from_, start? nav start p = some from_ ∧ descend nav from_ p.tokens = found := by
  cases p with
  | absolute tokens => simp [resolve, start?, Pointer.tokens]
  | relative up tokens =>
    cases h : (start :: nav.ancestors start)[up]? <;> simp [resolve, start?, Pointer.tokens, h]

@[simp] theorem descend_nil (nav : Navigation α) (start : α) : descend nav start [] = some start := rfl

@[simp] theorem descend_cons (nav : Navigation α) (start : α) (token : String)
    (tokens : List String) :
    descend nav start (token :: tokens) =
      (nav.child? start token).bind fun next => descend nav next tokens := rfl

theorem descend_append (nav : Navigation α) (start : α) (tokens more : List String) :
    descend nav start (tokens ++ more) =
      (descend nav start tokens).bind fun place => descend nav place more := by
  simp [descend, List.foldlM_append]

/-- The places of one navigation seen as places of another: single steps agree. -/
structure Projection (nav : Navigation α) (nav' : Navigation β) (Valid : α → Prop)
    (project : α → β) : Prop where
  root_valid : Valid nav.root
  root : project nav.root = nav'.root
  ancestors_valid : ∀ a, Valid a → ∀ b ∈ nav.ancestors a, Valid b
  ancestors : ∀ a, Valid a → (nav.ancestors a).map project = nav'.ancestors (project a)
  child_valid : ∀ a token b, Valid a → nav.child? a token = some b → Valid b
  child : ∀ a token, Valid a → (nav.child? a token).map project = nav'.child? (project a) token

namespace Projection

variable {nav : Navigation α} {nav' : Navigation β} {Valid : α → Prop} {project : α → β}

theorem descend_valid (h : Projection nav nav' Valid project) {a b : α} {tokens : List String}
    (ha : Valid a) (hd : descend nav a tokens = some b) : Valid b := by
  induction tokens generalizing a with
  | nil => exact Option.some.inj hd ▸ ha
  | cons token tokens ih =>
    obtain ⟨next, hn, hd⟩ := Option.bind_eq_some_iff.1 hd
    exact ih (h.child_valid a token next ha hn) hd

theorem descend (h : Projection nav nav' Valid project) {a : α} (ha : Valid a)
    (tokens : List String) :
    (Pointer.descend nav a tokens).map project = Pointer.descend nav' (project a) tokens := by
  induction tokens generalizing a with
  | nil => rfl
  | cons token tokens ih =>
    rw [descend_cons, descend_cons, ← h.child a token ha]
    cases hn : nav.child? a token with
    | none => rfl
    | some next => exact ih (h.child_valid a token next ha hn)

theorem climb_valid (h : Projection nav nav' Valid project) {a b : α} {up : Nat} (ha : Valid a)
    (hb : (a :: nav.ancestors a)[up]? = some b) : Valid b := by
  rcases List.mem_cons.1 (List.mem_of_getElem? hb) with rfl | hmem
  · exact ha
  · exact h.ancestors_valid a ha b hmem

theorem climb (h : Projection nav nav' Valid project) {a : α} (ha : Valid a) (up : Nat) :
    ((a :: nav.ancestors a)[up]?).map project =
      (project a :: nav'.ancestors (project a))[up]? := by
  rw [← h.ancestors a ha, ← List.map_cons, List.getElem?_map]

theorem resolve_valid (h : Projection nav nav' Valid project) {a b : α} {p : Pointer} (ha : Valid a)
    (hr : resolve nav a p = .ok (some b)) : Valid b := by
  obtain ⟨from_, hs, hd⟩ := resolve_eq_ok_iff.1 hr
  refine h.descend_valid ?_ hd
  cases p with
  | absolute tokens => exact Option.some.inj hs ▸ h.root_valid
  | relative up tokens => exact h.climb_valid ha hs

theorem resolve (h : Projection nav nav' Valid project) {a : α} (ha : Valid a) (p : Pointer) :
    (Pointer.resolve nav a p).map (Option.map project) = Pointer.resolve nav' (project a) p := by
  cases p with
  | absolute tokens =>
    rw [Pointer.resolve, Pointer.resolve, ← h.root, ← h.descend h.root_valid]
    rfl
  | relative up tokens =>
    have hlen : (nav.ancestors a).length = (nav'.ancestors (project a)).length := by
      rw [← h.ancestors a ha, List.length_map]
    have hclimb := h.climb ha up
    simp only [Pointer.resolve]
    cases hs : (a :: nav.ancestors a)[up]? with
    | none =>
      rw [hs] at hclimb
      simp only [← hclimb, Option.map_none, hlen]
      rfl
    | some from_ =>
      rw [hs] at hclimb
      simp only [← hclimb, Option.map_some, ← h.descend (h.climb_valid ha hs)]
      rfl

theorem resolveText_valid (h : Projection nav nav' Valid project) {a b : α} {source : String}
    (ha : Valid a) (hr : resolveText nav a source = .ok (some b)) : Valid b := by
  obtain ⟨parsed, -, hr⟩ := bind_eq_ok.1 hr
  exact h.resolve_valid ha hr

theorem resolveText (h : Projection nav nav' Valid project) {a : α} (ha : Valid a)
    (source : String) :
    (Pointer.resolveText nav a source).map (Option.map project) =
      Pointer.resolveText nav' (project a) source := by
  rw [Pointer.resolveText, Pointer.resolveText]
  cases parse source with
  | error e => rfl
  | ok parsed => exact h.resolve ha parsed

end Projection

end FormSchema.Pointer
