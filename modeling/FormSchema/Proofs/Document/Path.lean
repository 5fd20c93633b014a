import FormSchema.Document.Evaluation
import FormSchema.Proofs.Json.Path
import FormSchema.Proofs.Pointer.Path

/-!
Paths in a document.  A place is told apart from the others by the keys on the way to it, and what
pointers name and what keywords evaluate to depends on the plain value and on such paths alone.
-/

namespace FormSchema

namespace Node

theorem valueItems_eq (items : List Node) : valueItems items = items.map value := by
  induction items with
  | nil => rfl
  | cons item items ih => rw [valueItems, ih, List.map_cons]

theorem valueFields_eq (fields : List (String × Node)) :
    valueFields fields = fields.map fun field => (field.1, field.2.value) := by
  induction fields with
  | nil => rfl
  | cons field fields ih => rw [valueFields, ih, List.map_cons]

theorem children_list (tag : Tag) (items : List Node) :
    (list tag items).children = Key.ofItems 0 items := by
  simp [children, Key.ofItems]

theorem children_record (tag : Tag) (fields : List (String × Node)) :
    (record tag fields).children = Key.ofFields fields := rfl

/-- What holds of a node as soon as it holds of its children holds of all nodes. -/
theorem induct {P : Node → Prop} (step : ∀ n, (∀ part ∈ n.children, P part.2) → P n) (n : Node) :
    P n :=
  step n fun part _ => induct step part.2
termination_by sizeOf n
decreasing_by
  rename_i h
  cases n with
  | leaf tag v => simp [children] at h
  | list tag items =>
    obtain ⟨i, hi, rfl⟩ := List.mem_mapIdx.1 h
    have := List.sizeOf_lt_of_mem (List.getElem_mem hi)
    simp only [list.sizeOf_spec]
    omega
  | record tag fields =>
    obtain ⟨field, hf, rfl⟩ := List.mem_map.1 h
    have := List.sizeOf_lt_of_mem hf
    obtain ⟨name, m⟩ := field
    simp only [record.sizeOf_spec, Prod.mk.sizeOf_spec] at this ⊢
    omega

theorem children_value (n : Node) :
    n.value.children = n.children.map fun part => (part.1, part.2.value) := by
  cases n with
  | leaf tag v => cases v <;> rfl
  | list tag items =>
    rw [value, valueItems_eq, Json.children, Key.ofItems_map, children_list]
  | record tag fields =>
    rw [value, valueFields_eq, children_record]
    simp [Json.children, Key.ofFields]

theorem kind_eq (n : Node) : n.kind = Kind.ofJson n.value := by cases n <;> rfl

theorem kind_eq_array_iff {n : Node} : n.kind = .array ↔ ∃ tag items, n = .list tag items := by
  cases n with
  | leaf tag v =>
    have : (leaf tag v).kind ≠ .array := by
      cases v with
      | num x => cases h : x.isWhole <;> simp [kind, Scalar.toJson, Kind.ofJson, h]
      | _ => simp [kind, Scalar.toJson, Kind.ofJson]
    simp [this]
  | list tag items => simp [Node.kind]
  | record tag fields => simp [Node.kind]

/-- The child at a key. -/
def get? (n : Node) (key : Key) : Option Node := n.children.lookup key

/-- The node at the end of a path. -/
def at? (n : Node) (path : List Key) : Option Node := path.foldlM get? n

@[simp] theorem at?_nil (n : Node) : n.at? [] = some n := rfl

@[simp] theorem at?_cons (n : Node) (key : Key) (path : List Key) :
    n.at? (key :: path) = (n.get? key).bind fun m => m.at? path := rfl

theorem at?_append (n : Node) (path more : List Key) :
    n.at? (path ++ more) = (n.at? path).bind fun m => m.at? more := by
  simp [at?, List.foldlM_append]

theorem at?_append_of {n m x : Node} {path more : List Key} (h : n.at? path = some m)
    (h' : m.at? more = some x) : n.at? (path ++ more) = some x := by
  rw [at?_append, h]
  exact h'

theorem at?_concat (n : Node) (path : List Key) (key : Key) :
    n.at? (path ++ [key]) = (n.at? path).bind fun m => m.get? key := by
  simp [at?_append]

theorem get?_value (n : Node) (key : Key) : n.value.get? key = (n.get? key).map value := by
  rw [Json.get?, children_value]
  exact Key.lookup_map_snd (fun _ => value) n.children key

theorem at?_value (n : Node) (path : List Key) : n.value.at? path = (n.at? path).map value := by
  induction path generalizing n with
  | nil => rfl
  | cons key path ih =>
    rw [Json.at?_cons, at?_cons, get?_value]
    cases n.get? key with
    | none => rfl
    | some m => exact ih m

theorem get?_list (tag : Tag) (items : List Node) (i : Nat) :
    (list tag items).get? (.index i) = items[i]? := by
  rw [get?, children_list, Key.lookup_ofItems]
  simp

theorem get?_list_name (tag : Tag) (items : List Node) (s : String) :
    (list tag items).get? (.name s) = none := by
  rw [get?, children_list, Key.lookup_name_ofItems]

theorem get?_record (tag : Tag) (fields : List (String × Node)) (s : String) :
    (record tag fields).get? (.name s) = fields.lookup s := by
  rw [get?, children_record, Key.lookup_ofFields]

theorem get?_record_index (tag : Tag) (fields : List (String × Node)) (i : Nat) :
    (record tag fields).get? (.index i) = none := by
  rw [get?, children_record, Key.lookup_index_ofFields]

theorem eq_of_token_eq {n m m' : Node} {key key' : Key} (h : n.get? key = some m)
    (h' : n.get? key' = some m') (heq : key.token = key'.token) : key = key' := by
  cases n with
  | leaf tag v => cases h
  | list tag items =>
    cases key with
    | name s => simp [get?_list_name] at h
    | index i =>
      cases key' with
      | name s => simp [get?_list_name] at h'
      | index j =>
        have hvalue := congrArg (fun token : String => Number.digitsValue token.toList) heq
        simp only [Key.token, Number.digitsValue_repr] at hvalue
        rw [hvalue]
  | record tag fields =>
    cases key with
    | index i => simp [get?_record_index] at h
    | name s =>
      cases key' with
      | index j => simp [get?_record_index] at h'
      | name t => exact congrArg Key.name heq

/-- In a node, the tokens of a path tell it apart. -/
theorem eq_of_map_token_eq {n m m' : Node} {path path' : List Key} (h : n.at? path = some m)
    (h' : n.at? path' = some m') (heq : path.map Key.token = path'.map Key.token) :
    path = path' := by
  induction path generalizing n path' with
  | nil => exact (List.map_eq_nil_iff.1 heq.symm).symm
  | cons key path ih =>
    cases path' with
    | nil => cases heq
    | cons key' path' =>
      obtain ⟨htoken, htokens⟩ := List.cons.inj heq
      rw [at?_cons, Option.bind_eq_some_iff] at h h'
      obtain ⟨child, hchild, h⟩ := h
      obtain ⟨child', hchild', h'⟩ := h'
      obtain rfl := eq_of_token_eq hchild hchild' htoken
      obtain rfl := Option.some.inj (hchild.symm.trans hchild')
      rw [ih h h' htokens]

/-- A token names the child at the key that it stands for in nodes of this kind. -/
theorem child?_eq (n : Node) (token : String) :
    n.child? token =
      (Key.ofToken? n.kind token).bind fun key => (n.get? key).map fun m => (key, m) := by
  cases n with
  | leaf tag v =>
    cases Key.ofToken? (leaf tag v).kind token <;> rfl
  | list tag items =>
    cases h : Number.index? token.toList with
    | none => simp [child?, kind, Key.ofToken?, h]
    | some i =>
      simp only [child?, kind, Key.ofToken?, h, Option.map_some, Option.bind_some, get?_list]
      rw [Option.map_eq_bind]
      rfl
  | record tag fields => simp [child?, kind, Key.ofToken?, get?_record]

end Node

namespace Place

/-- The keys on the way from the root. -/
def path (p : Place) : List Key := (p.above.map (·.1)).reverse

@[simp] theorem path_mk_nil (n : Node) : path ⟨n, []⟩ = [] := rfl

@[simp] theorem path_mk_cons (n : Node) (step : Key × Node) (above : List (Key × Node)) :
    path ⟨n, step :: above⟩ = path ⟨step.2, above⟩ ++ [step.1] := by
  simp [path]

@[simp] theorem path_down (p : Place) (child : Key × Node) :
    (p.down child).path = p.path ++ [child.1] := by
  simp [path, down]

theorem tokens_eq (p : Place) : p.tokens = p.path.map Key.token := by
  simp [tokens, path]

theorem tokens_down (p : Place) (part : Key × Node) :
    (p.down part).tokens = p.tokens ++ [part.1.token] := by
  rw [tokens_eq, tokens_eq, path_down, List.map_append]
  rfl

/-- The places from a place down. -/
inductive Covers (top : Place) : Place → Prop where
  | refl : Covers top top
  | down {p : Place} {key : Key} {child : Node} (above : Covers top p)
      (step : p.node.get? key = some child) : Covers top (p.down (key, child))

namespace Covers

variable {top p q : Place}

theorem trans (h : top.Covers p) (h' : p.Covers q) : top.Covers q := by
  induction h' with
  | refl => exact h
  | down _ step ih => exact ih.down step

theorem step {key : Key} {child : Node} (h : p.node.get? key = some child) :
    p.Covers (p.down (key, child)) := Covers.refl.down h

theorem path_eq (h : top.Covers p) :
    ∃ more, p.path = top.path ++ more ∧ top.node.at? more = some p.node := by
  induction h with
  | refl => exact ⟨[], by simp⟩
  | @down p key child _ step ih =>
    obtain ⟨more, hpath, hat⟩ := ih
    refine ⟨more ++ [key], by simp [hpath], ?_⟩
    rw [Node.at?_concat, hat]
    exact step

theorem exists_of_at? (top : Place) {more : List Key} {n : Node}
    (h : top.node.at? more = some n) :
    ∃ p, top.Covers p ∧ p.path = top.path ++ more ∧ p.node = n := by
  induction more generalizing top with
  | nil => exact ⟨top, .refl, by simp, Option.some.inj h⟩
  | cons key more ih =>
    obtain ⟨child, hchild, h⟩ := Option.bind_eq_some_iff.1 h
    obtain ⟨p, hp, hpath, hn⟩ := ih (top.down (key, child)) h
    exact ⟨p, (step hchild).trans hp, by simpa using hpath, hn⟩

end Covers

theorem belowItems_eq (parent : Node) (above : List (Key × Node)) (start : Nat)
    (items : List Node) :
    belowItems parent above start items =
      (Key.ofItems start items).flatMap fun part => below ((part.1, parent) :: above) part.2 := by
  induction items generalizing start with
  | nil => rfl
  | cons item items ih => rw [belowItems, ih, Key.ofItems_cons, List.flatMap_cons]

theorem belowFields_eq (parent : Node) (above : List (Key × Node)) (fields : List (String × Node)) :
    belowFields parent above fields =
      (Key.ofFields fields).flatMap fun part => below ((part.1, parent) :: above) part.2 := by
  induction fields with
  | nil => rfl
  | cons field fields ih =>
    obtain ⟨key, item⟩ := field
    rw [belowFields, ih]
    rfl

theorem below_eq (above : List (Key × Node)) (n : Node) :
    below above n =
      ⟨n, above⟩ :: n.children.flatMap fun part => below ((part.1, n) :: above) part.2 := by
  cases n with
  | leaf tag v => rfl
  | list tag items => rw [below, belowItems_eq, Node.children_list]
  | record tag fields => rw [below, belowFields_eq, Node.children_record]

theorem subtree_eq (p : Place) :
    p.subtree = p :: p.node.children.flatMap fun part => (p.down part).subtree :=
  below_eq p.above p.node

theorem mem_subtree_trans {top p q : Place} (h : p ∈ top.subtree) (h' : q ∈ p.subtree) :
    q ∈ top.subtree := by
  have main : ∀ (n : Node) (above : List (Key × Node)), p ∈ subtree ⟨n, above⟩ →
      q ∈ subtree ⟨n, above⟩ := by
    intro n
    induction n using Node.induct with
    | step n ih =>
      intro above h
      rw [subtree_eq] at h ⊢
      rcases List.mem_cons.1 h with rfl | h
      · rw [← subtree_eq]
        exact h'
      · obtain ⟨part, hpart, h⟩ := List.mem_flatMap.1 h
        exact List.mem_cons_of_mem _ (List.mem_flatMap.2 ⟨part, hpart, ih part hpart _ h⟩)
  exact main top.node top.above h

theorem Covers.mem_subtree {top p : Place} (h : top.Covers p) : p ∈ top.subtree := by
  induction h with
  | refl =>
    rw [subtree_eq]
    exact List.mem_cons_self
  | @down p key child _ step ih =>
    refine mem_subtree_trans ih ?_
    rw [subtree_eq]
    refine List.mem_cons_of_mem _ (List.mem_flatMap.2 ⟨(key, child), Key.mem_of_lookup step, ?_⟩)
    rw [subtree_eq]
    exact List.mem_cons_self

theorem covers_of_mem_subtree {top p : Place} (distinct : top.node.value.keysDistinct = true)
    (h : p ∈ top.subtree) : top.Covers p := by
  have main : ∀ (n : Node) (above : List (Key × Node)), n.value.keysDistinct = true →
      p ∈ subtree ⟨n, above⟩ → Covers ⟨n, above⟩ p := by
    intro n
    induction n using Node.induct with
    | step n ih =>
      intro above distinct h
      rw [Json.keysDistinct_iff, Node.children_value, List.map_map, List.forall_mem_map] at distinct
      rw [subtree_eq] at h
      rcases List.mem_cons.1 h with rfl | h
      · exact .refl
      · obtain ⟨part, hpart, h⟩ := List.mem_flatMap.1 h
        have hget : n.get? part.1 = some part.2 := Key.lookup_eq_some_of_mem distinct.1 hpart
        exact (Covers.step (p := ⟨n, above⟩) hget).trans
          (ih part hpart _ (distinct.2 part hpart) h)
  exact main top.node top.above distinct h

/-- The places of a subtree are the ones that steps lead to. -/
theorem mem_subtree_iff {top p : Place} (distinct : top.node.value.keysDistinct = true) :
    p ∈ top.subtree ↔ top.Covers p :=
  ⟨covers_of_mem_subtree distinct, Covers.mem_subtree⟩

end Place

namespace Document

variable {d : Document} {p q : Place}

/-- Whether a place is one of a document. -/
def Has (d : Document) (p : Place) : Prop := d.rootPlace.Covers p

theorem mem_places_iff (distinct : d.value.keysDistinct = true) : p ∈ d.places ↔ d.Has p :=
  Place.mem_subtree_iff distinct

namespace Has

theorem root (d : Document) : d.Has d.rootPlace := .refl

theorem at?_path (h : d.Has p) : d.root.at? p.path = some p.node := by
  obtain ⟨more, hpath, hat⟩ := h.path_eq
  rwa [hpath]

theorem above_nil {n : Node} (h : d.Has ⟨n, []⟩) : n = d.root := by
  simpa using h.at?_path.symm

theorem above_cons {n parent : Node} {key : Key} {above : List (Key × Node)}
    (h : d.Has ⟨n, (key, parent) :: above⟩) :
    d.Has ⟨parent, above⟩ ∧ parent.get? key = some n := by
  generalize hp : (⟨n, (key, parent) :: above⟩ : Place) = p at h
  cases h with
  | refl => simp [rootPlace] at hp
  | @down q key' child h step =>
    obtain ⟨hn, habove⟩ := Place.mk.inj hp
    obtain ⟨hkey, rfl⟩ := List.cons.inj habove
    obtain ⟨rfl, rfl⟩ := Prod.mk.inj hkey
    exact ⟨h, hn ▸ step⟩

theorem eq_of_path_eq (hp : d.Has p) (hq : d.Has q) (h : p.path = q.path) : p = q := by
  obtain ⟨n, above⟩ := p
  obtain ⟨m, above'⟩ := q
  induction above generalizing n m above' with
  | nil =>
    cases above' with
    | nil => rw [hp.above_nil, hq.above_nil]
    | cons step above' => simp at h
  | cons step above ih =>
    cases above' with
    | nil => simp at h
    | cons step' above' =>
      obtain ⟨key, parent⟩ := step
      obtain ⟨key', parent'⟩ := step'
      rw [Place.path_mk_cons, Place.path_mk_cons] at h
      obtain ⟨habove, hkey⟩ := List.append_inj' h rfl
      obtain rfl : key = key' := List.singleton_inj.1 hkey
      obtain ⟨hp, hn⟩ := hp.above_cons
      obtain ⟨hq, hm⟩ := hq.above_cons
      obtain ⟨rfl, rfl⟩ := Place.mk.inj (ih parent hp parent' above' hq habove)
      rw [Option.some.inj (hn.symm.trans hm)]

/-- Different places have different pointers. -/
theorem eq_of_pointer_eq (hp : d.Has p) (hq : d.Has q) (h : p.pointer = q.pointer) : p = q := by
  have htokens := Pointer.join_injective h
  rw [Place.tokens_eq, Place.tokens_eq] at htokens
  exact hp.eq_of_path_eq hq (Node.eq_of_map_token_eq hp.at?_path hq.at?_path htokens)

theorem exists_of_at? {path : List Key} {n : Node} (h : d.root.at? path = some n) :
    ∃ p, d.Has p ∧ p.path = path ∧ p.node = n := by
  obtain ⟨p, hp, hpath, hn⟩ := Place.Covers.exists_of_at? d.rootPlace h
  exact ⟨p, hp, by simpa [rootPlace] using hpath, hn⟩

theorem covers_iff (hp : d.Has p) (hq : d.Has q) : p.Covers q ↔ p.path <+: q.path := by
  constructor
  · intro h
    obtain ⟨more, hpath, -⟩ := h.path_eq
    exact ⟨more, hpath.symm⟩
  · rintro ⟨more, hpath⟩
    have hat : p.node.at? more = some q.node := by
      have := hq.at?_path
      rwa [← hpath, Node.at?_append, hp.at?_path] at this
    obtain ⟨r, hr, hrpath, -⟩ := Place.Covers.exists_of_at? p hat
    have hr' : d.Has r := hp.trans hr
    rwa [hr'.eq_of_path_eq hq (hrpath.trans hpath)] at hr

theorem ofAbove (h : d.Has p) : ∀ q ∈ p.ancestors, d.Has q := by
  obtain ⟨n, above⟩ := p
  induction above generalizing n with
  | nil => simp [Place.ancestors, Place.ofAbove]
  | cons step above ih =>
    obtain ⟨key, parent⟩ := step
    intro q hq
    rcases List.mem_cons.1 hq with rfl | hq
    · exact h.above_cons.1
    · exact ih parent h.above_cons.1 q hq

end Has

end Document

theorem Place.map_path_ancestors (p : Place) : p.ancestors.map path = Pointer.above p.path := by
  obtain ⟨n, above⟩ := p
  induction above generalizing n with
  | nil => rfl
  | cons step above ih =>
    obtain ⟨key, parent⟩ := step
    rw [path_mk_cons, Pointer.above_concat, ← ih parent]
    rfl

namespace Json

/-- The step that a token names at the end of a path. -/
def step? (v : Json) (path : List Key) (token : String) : Option Key :=
  (v.at? path).bind fun part =>
    (Key.ofToken? (Kind.ofJson part) token).bind fun key => (part.get? key).map fun _ => key

/-- Pointers lead from path to path in a plain value. -/
def navigation (v : Json) : Pointer.Navigation (List Key) := Pointer.pathNavigation v.step?

/-- The value that a pointer reads from the end of a path. -/
def deref (v : Json) (start : List Key) (pointer : String) : Except Pointer.Error (Option Json) :=
  (Pointer.resolveText v.navigation start pointer).map fun path => path.bind v.at?

/-- The scope of the value at the end of a path. -/
def scope (v : Json) (userData : Json) (schema : Attributes) (path : List Key) : Scope where
  schema := schema.raw
  value := (v.at? path).getD .null
  parent := (if path.isEmpty then none else v.at? path.dropLast).getD .null
  key := (path.getLast?.map Key.toJson).getD .null
  userData := userData
  deref := v.deref path.dropLast

end Json

namespace Document

variable {d : Document} {p : Place}

theorem Has.at?_value (h : d.Has p) : d.value.at? p.path = some p.value := by
  rw [value, Node.at?_value, h.at?_path]
  rfl

/-- Places are to a document what paths are to its value. -/
theorem projection (d : Document) :
    Pointer.Projection d.navigation d.value.navigation d.Has Place.path where
  root_valid := .root d
  root := rfl
  ancestors_valid _ ha := ha.ofAbove
  ancestors p _ := p.map_path_ancestors
  child_valid p token q hp hq := by
    obtain ⟨part, hpart, rfl⟩ := Option.map_eq_some_iff.1 hq
    rw [Node.child?_eq] at hpart
    obtain ⟨key, -, hkey⟩ := Option.bind_eq_some_iff.1 hpart
    obtain ⟨m, hm, rfl⟩ := Option.map_eq_some_iff.1 hkey
    exact Place.Covers.down hp hm
  child p token hp := by
    have hstep : d.value.step? p.path token =
        (Key.ofToken? p.node.kind token).bind fun key => (p.node.get? key).map fun _ => key := by
      rw [Json.step?, hp.at?_value, Option.bind_some, Node.kind_eq]
      simp only [Place.value, Node.get?_value, Option.map_map]
      rfl
    change ((p.node.child? token).map p.down).map Place.path =
      (d.value.step? p.path token).map fun key => p.path ++ [key]
    rw [hstep, Node.child?_eq]
    cases Key.ofToken? p.node.kind token with
    | none => rfl
    | some key =>
      cases h : p.node.get? key with
      | none => simp [h]
      | some m => simp [h]

theorem resolve_path (hp : d.Has p) (pointer : String) :
    (d.resolve p pointer).map (Option.map Place.path) =
      Pointer.resolveText d.value.navigation p.path pointer :=
  d.projection.resolveText hp pointer

theorem resolve_has {q : Place} {pointer : String} (hp : d.Has p)
    (h : d.resolve p pointer = .ok (some q)) : d.Has q :=
  d.projection.resolveText_valid hp h

theorem deref_eq (hp : d.Has p) (pointer : String) :
    d.deref p pointer = d.value.deref p.path pointer := by
  rw [Json.deref, ← resolve_path hp, deref]
  cases h : d.resolve p pointer with
  | error e => rfl
  | ok found =>
    cases found with
    | none => rfl
    | some q =>
      have := (resolve_has hp h).at?_value
      simp [bind, Except.bind, pure, Except.pure, Except.map, this]

/-- What a keyword evaluates to depends on the plain value and on the path to the place. -/
theorem evaluateAs_eq (hp : d.Has p) (userData : Json) (schema : Attributes) (keyword : Keyword) :
    d.evaluateAs userData schema p keyword =
      (schema.evaluator keyword).eval (d.value.scope userData schema p.path) := by
  have hat := hp.at?_value
  obtain ⟨n, above⟩ := p
  cases above with
  | nil =>
    have hroot : (Option.none.getD d.rootPlace) = d.rootPlace := rfl
    have hderef := funext (deref_eq (.root d))
    simp only [evaluateAs, Document.scope, Json.scope, Place.parent?, Place.ancestors, Place.ofAbove,
      List.head?_nil, hroot, hderef, hat, Place.key?]
    rfl
  | cons step above =>
    obtain ⟨key, parent⟩ := step
    have hparent := hp.above_cons.1
    have hderef := funext (deref_eq hparent)
    have hvalue := hparent.at?_value
    have hempty : (Place.path ⟨n, (key, parent) :: above⟩).isEmpty = false := by simp
    simp only [evaluateAs, Document.scope, Json.scope, hat, hempty]
    simp [Place.parent?, Place.ancestors, Place.ofAbove, hderef, hvalue, Place.key?, Place.value]

end Document

end FormSchema
