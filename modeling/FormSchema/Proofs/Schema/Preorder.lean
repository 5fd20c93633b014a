import FormSchema.Schema.Arena
import FormSchema.Proofs.Pointer.Text
import FormSchema.Proofs.Schema.Normal

/-!
The arena of a schema is in preorder: a schema stands before its subschemas, and the subschemas of one
stand together.  An outline says which schemas an arena has from a number on; what is true of the first
of them and goes over from parents to children is true of all.
-/

namespace FormSchema

namespace Arena

variable {arena : Arena} {parent : Option Nat} {number start i j : Nat} {t u : Tree Section}
  {parts : List (Slot × Tree Section)} {part : Nat × Slot × Tree Section} {path : List Slot}

/-! ### The schemas of an outline -/

/-- Children with the numbers that they have if the first one has a given number. -/
def numbered (start : Nat) : List (Slot × Tree Section) → List (Nat × Slot × Tree Section)
  | [] => []
  | (slot, t) :: rest => (start, slot, t) :: numbered (start + t.labels.length) rest

/-- What an arena has at the number of an outline. -/
def row (parent : Option Nat) (number : Nat) (t : Tree Section) : Node where
  raw := t.label.raw
  mixed := t.label.mixed
  pointer := t.label.pointer
  name := t.label.name?
  parent := parent
  children := (numbered (number + 1) t.children).map fun part => (part.2.1, part.1)

mutual

/-- What an arena has from the number of an outline on. -/
def rows (parent : Option Nat) (number : Nat) : Tree Section → List Node
  | .node s parts =>
    row parent number (.node s parts) :: partRows number (number + 1) parts

def partRows (parent start : Nat) : List (Slot × Tree Section) → List Node
  | [] => []
  | (_, t) :: rest =>
    rows (some parent) start t ++ partRows parent (start + t.labels.length) rest

end

theorem rows_eq (parent : Option Nat) (number : Nat) (t : Tree Section) :
    rows parent number t = row parent number t :: partRows number (number + 1) t.children := by
  cases t
  rfl

/-- What a node shares with the section of its schema. -/
theorem map_rows {β : Type} {f : Node → β} {g : Section → β}
    (h : ∀ parent number t, f (row parent number t) = g t.label) (parent : Option Nat) (number : Nat)
    (t : Tree Section) : (rows parent number t).map f = t.labels.map g := by
  induction t using Tree.induct generalizing parent number with
  | step t ih =>
    have hparts : ∀ (parts : List (Slot × Tree Section)) (start : Nat),
        (∀ part ∈ parts, ∀ parent number, (rows parent number part.2).map f = part.2.labels.map g) →
        (partRows number start parts).map f = (parts.flatMap fun part => part.2.labels).map g := by
      intro parts start hparts
      induction parts generalizing start with
      | nil => rfl
      | cons part parts ih =>
        rw [List.forall_mem_cons] at hparts
        rw [partRows, List.map_append, hparts.1, ih _ hparts.2, List.flatMap_cons, List.map_append]
    rw [rows_eq, Tree.labels_eq, List.map_cons, List.map_cons, h, hparts _ _ ih]

theorem length_rows (parent : Option Nat) (number : Nat) (t : Tree Section) :
    (rows parent number t).length = t.labels.length := by
  simpa using congrArg List.length
    (map_rows (f := fun _ => ()) (g := fun _ => ()) (fun _ _ _ => rfl) parent number t)

/-! ### To insert a schema -/

theorem modify_length_append {α : Type} (before after : List α) (a : α) (f : α → α) :
    (before ++ a :: after).modify before.length f = before ++ f a :: after := by
  induction before with
  | nil => rfl
  | cons b before ih => simp [ih]

/-- An arena after one more subschema of the schema with a number. -/
def grow (pointer : String) (number : Nat) (grown : Arena) (part : Slot × Json) : Arena :=
  (insert part.2 (Pointer.child pointer part.1.token) (some part.1.token) (some number) grown).modify
    number fun node => node.withChild part.1 grown.length

theorem insert_eq_foldl (raw : Json) (pointer : String) (name : Option String) :
    insert raw pointer name parent arena = (Outline.parts raw).foldl (grow pointer arena.length)
      (arena ++
        [{ raw := Outline.keywords raw, mixed := Outline.isMixed raw, pointer, name, parent }]) := by
  rw [insert]
  exact List.foldl_attach (f := grow pointer arena.length)

/-- The outlines of subschemas. -/
def outlines (path : List Slot) (subschemas : List (Slot × Json)) : List (Slot × Tree Section) :=
  subschemas.map fun part => (part.1, Outline.build (path ++ [part.1]) part.2)

/-- Subschemas go to the end of an arena, and the schema that they belong to gets to know them. -/
theorem foldl_grow {pointer : String} {subschemas : List (Slot × Json)}
    (h : ∀ part ∈ subschemas, ∀ arena : Arena,
      insert part.2 (Pointer.child pointer part.1.token) (some part.1.token) (some number) arena =
        arena ++ rows (some number) arena.length (Outline.build (path ++ [part.1]) part.2))
    (before after : List Node) (node : Node) (hnumber : before.length = number)
    (hstart : number + 1 + after.length = start) :
    subschemas.foldl (grow pointer number) (before ++ node :: after) =
      before ++ { node with children := node.children ++
        (numbered start (outlines path subschemas)).map fun part => (part.2.1, part.1) } ::
          (after ++ partRows number start (outlines path subschemas)) := by
  induction subschemas generalizing after node start with
  | nil => simp [outlines, numbered, partRows]
  | cons part subschemas ih =>
    rw [List.forall_mem_cons] at h
    have hlength : (before ++ node :: after).length = start := by
      simp
      omega
    have hgrow : grow pointer number (before ++ node :: after) part =
        before ++ node.withChild part.1 start ::
          (after ++ rows (some number) start (Outline.build (path ++ [part.1]) part.2)) := by
      rw [grow, h.1, hlength, List.append_assoc, List.cons_append, ← hnumber, modify_length_append]
    have hnext : number + 1 +
        (after ++ rows (some number) start (Outline.build (path ++ [part.1]) part.2)).length =
          start + (Outline.build (path ++ [part.1]) part.2).labels.length := by
      rw [List.length_append, length_rows]
      omega
    rw [List.foldl_cons, hgrow, ih h.2 _ _ hnext]
    simp [outlines, numbered, partRows, Node.withChild]

theorem insert_eq (raw : Json) (path : List Slot) (parent : Option Nat) (arena : Arena) :
    insert raw (Pointer.join (path.map Slot.token)) (path.getLast?.map Slot.token) parent arena =
      arena ++ rows parent arena.length (Outline.build path raw) := by
  induction raw using Outline.induct generalizing path parent arena with
  | step raw ih =>
    have hparts : ∀ part ∈ Outline.parts raw, ∀ grown : Arena,
        insert part.2 (Pointer.child (Pointer.join (path.map Slot.token)) part.1.token)
            (some part.1.token) (some arena.length) grown =
          grown ++ rows (some arena.length) grown.length (Outline.build (path ++ [part.1]) part.2) := by
      intro part hpart grown
      have := ih part hpart (path ++ [part.1]) (some arena.length) grown
      simpa [Pointer.child_join] using this
    rw [insert_eq_foldl, foldl_grow hparts arena [] _ rfl rfl, rows_eq, row, Outline.label_build,
      Outline.children_build]
    rfl

theorem build_eq (raw : Json) : build raw = rows none 0 (Outline.ofJson raw) :=
  insert_eq raw [] none []

/-! ### What stands at a number -/

/-- An outline stands in an arena from a number on. -/
def Stands (arena : Arena) (parent : Option Nat) (number : Nat) (t : Tree Section) : Prop :=
  rows parent number t <+: arena.drop number

def PartsStand (arena : Arena) (parent start : Nat) (parts : List (Slot × Tree Section)) : Prop :=
  partRows parent start parts <+: arena.drop start

theorem Stands.getElem? (h : Stands arena parent number t) :
    arena[number]? = some (row parent number t) := by
  obtain ⟨after, h⟩ := h
  rw [rows_eq] at h
  rw [← List.head?_drop, ← h]
  rfl

theorem Stands.below (h : Stands arena parent number t) :
    PartsStand arena number (number + 1) t.children := by
  obtain ⟨after, h⟩ := h
  rw [rows_eq] at h
  exact ⟨after, by rw [← List.tail_drop, ← h]; rfl⟩

theorem PartsStand.cons {slot : Slot} (h : PartsStand arena number start ((slot, t) :: parts)) :
    Stands arena (some number) start t ∧
      PartsStand arena number (start + t.labels.length) parts := by
  obtain ⟨after, h⟩ := h
  rw [partRows, List.append_assoc] at h
  refine ⟨⟨_, h⟩, after, ?_⟩
  rw [← List.drop_drop, ← h, ← length_rows (some number) start t, List.drop_left]

theorem mem_of_mem_numbered (h : part ∈ numbered start parts) : start ≤ part.1 ∧ part.2 ∈ parts := by
  induction parts generalizing start with
  | nil => simp [numbered] at h
  | cons child parts ih =>
    simp only [numbered, List.mem_cons] at h ⊢
    rcases h with rfl | h
    · simp
    · have := ih h
      exact ⟨by omega, .inr this.2⟩

theorem PartsStand.of_mem (h : PartsStand arena number start parts)
    (hpart : part ∈ numbered start parts) : Stands arena (some number) part.1 part.2.2 := by
  induction parts generalizing start with
  | nil => simp [numbered] at hpart
  | cons child parts ih =>
    simp only [numbered, List.mem_cons] at hpart
    rcases hpart with rfl | hpart
    · exact h.cons.1
    · exact ih h.cons.2 hpart

theorem labels_pos (t : Tree Section) : 0 < t.labels.length := by
  simp [Tree.labels_eq t]

theorem pairwise_numbered (start : Nat) (parts : List (Slot × Tree Section)) :
    (numbered start parts).Pairwise fun part more => part.1 < more.1 := by
  induction parts generalizing start with
  | nil => simp [numbered]
  | cons child parts ih =>
    simp only [numbered, List.pairwise_cons]
    refine ⟨fun part hpart => ?_, ih _⟩
    have := (mem_of_mem_numbered hpart).1
    have := labels_pos child.2
    omega

theorem exists_numbered (start : Nat) (parts : List (Slot × Tree Section)) (hi : start ≤ i)
    (hlt : i < start + (parts.flatMap fun part => part.2.labels).length) :
    ∃ part ∈ numbered start parts, part.1 ≤ i ∧ i < part.1 + part.2.2.labels.length := by
  induction parts generalizing start with
  | nil =>
    simp at hlt
    omega
  | cons child parts ih =>
    by_cases hchild : i < start + child.2.labels.length
    · exact ⟨(start, child), by simp [numbered], hi, hchild⟩
    · simp only [List.flatMap_cons, List.length_append] at hlt
      obtain ⟨part, hpart, hbounds⟩ := ih (start + child.2.labels.length) (by omega) (by omega)
      exact ⟨part, by simp [numbered, hpart], hbounds⟩

/-- What goes over from parents to children holds at all numbers of an outline. -/
theorem Stands.exists_of_lt {P : Nat → Tree Section → Prop}
    (step : ∀ {parent j u}, Stands arena parent j u → P j u → ∀ part ∈ numbered (j + 1) u.children,
      Stands arena (some j) part.1 part.2.2 → P part.1 part.2.2)
    (h : Stands arena parent number t) (first : P number t) (hi : number ≤ i)
    (hlt : i < number + t.labels.length) : ∃ parent u, Stands arena parent i u ∧ P i u := by
  induction t using Tree.induct generalizing parent number with
  | step t ih =>
    by_cases heq : i = number
    · exact ⟨parent, t, by rwa [heq], by rwa [heq]⟩
    · rw [Tree.labels_eq, List.length_cons] at hlt
      obtain ⟨part, hpart, hle, hlt⟩ :=
        exists_numbered (i := i) (number + 1) t.children (by omega) (by omega)
      have hstands := h.below.of_mem hpart
      exact ih part.2 (mem_of_mem_numbered hpart).2 hstands (step h first part hpart hstands) hle hlt

theorem Stands.parent?_eq (h : Stands arena parent number t) : arena.parent? number = parent := by
  simp [parent?, h.getElem?, row]

theorem Stands.children_eq (h : Stands arena parent number t) :
    arena.children number = (numbered (number + 1) t.children).map fun part => part.1 := by
  simp [children, h.getElem?, row, Function.comp_def]

theorem Stands.names_eq (h : Stands arena (some j) i t) (hlt : j < i) :
    arena.names i = arena.names j ++ t.label.name?.toList := by
  rw [names, h.getElem?]
  simp [row, hlt]

/-! ### The walk through an arena -/

/-- The numbers that are visited if the given ones are pending: each before its children, and those
before what was pending with it. -/
inductive Walks (arena : Arena) : List Nat → List Nat → Prop
  | done : Walks arena [] []
  | visit {number : Nat} {pending visited : List Nat}
      (children : Walks arena (arena.children number ++ pending) visited) :
      Walks arena (number :: pending) (number :: visited)

variable {pending visited visited' : List Nat}

theorem Walks.unique (h : Walks arena pending visited) (h' : Walks arena pending visited') :
    visited = visited' := by
  induction h generalizing visited' with
  | done => cases h'; rfl
  | visit _ ih =>
    cases h' with
    | visit h' => rw [ih h']

/-- The walk goes through the numbers of an outline in their order. -/
theorem Stands.walks (h : Stands arena parent number t) (hpending : Walks arena pending visited) :
    Walks arena (number :: pending) (List.range' number t.labels.length ++ visited) := by
  induction t using Tree.induct generalizing parent number pending visited with
  | step t ih =>
    -- While a child is visited the later ones are pending, so the walk is put together from the last.
    have hparts : ∀ (parts : List (Slot × Tree Section)) (start : Nat),
        (∀ part ∈ parts, part ∈ t.children) → PartsStand arena number start parts →
        Walks arena ((numbered start parts).map (fun part => part.1) ++ pending)
          (List.range' start (parts.flatMap fun part => part.2.labels).length ++ visited) := by
      intro parts start hmem hstands
      induction parts generalizing start with
      | nil => simpa [numbered] using hpending
      | cons part parts ihparts =>
        rw [List.forall_mem_cons] at hmem
        have hrest := ihparts _ hmem.2 hstands.cons.2
        have := ih part hmem.1 hstands.cons.1 hrest
        simpa [numbered, ← List.range'_append_1] using this
    have := hparts t.children (number + 1) (fun _ h => h) h.below
    rw [Tree.labels_eq, List.length_cons, List.range'_succ, List.cons_append]
    apply Walks.visit
    rwa [h.children_eq]

/-! ### The arena of a schema -/

theorem length_build (raw : Json) : (build raw).length = (Outline.ofJson raw).labels.length := by
  rw [build_eq, length_rows]

theorem stands_build (raw : Json) : Stands (build raw) none 0 (Outline.ofJson raw) := by
  simp [Stands, build_eq]

/-- What goes over from parents to children holds at all numbers of an arena. -/
theorem exists_stands (raw : Json) (P : Nat → Tree Section → Prop)
    (step : ∀ {parent j u}, Stands (build raw) parent j u → P j u →
      ∀ part ∈ numbered (j + 1) u.children, Stands (build raw) (some j) part.1 part.2.2 →
        P part.1 part.2.2)
    (first : P 0 (Outline.ofJson raw)) (hlt : i < (build raw).length) :
    ∃ parent u, Stands (build raw) parent i u ∧ P i u :=
  (stands_build raw).exists_of_lt step first (Nat.zero_le i) (by rwa [Nat.zero_add, ← length_build])

theorem exists_stands_of_lt {raw : Json} (hlt : i < (build raw).length) :
    ∃ parent u, Stands (build raw) parent i u := by
  obtain ⟨parent, u, hstands, -⟩ :=
    exists_stands raw (fun _ _ => True) (fun _ _ _ _ _ => trivial) trivial hlt
  exact ⟨parent, u, hstands⟩

/-- What a schema has as a child has the schema as its parent. -/
theorem parent?_of_mem_children {raw : Json} (h : i ∈ (build raw).children j) :
    (build raw).parent? i = some j := by
  have hlt : j < (build raw).length := by
    by_contra hlt
    simp [children, List.getElem?_eq_none (Nat.not_lt.1 hlt)] at h
  obtain ⟨parent, u, hstands⟩ := exists_stands_of_lt hlt
  rw [hstands.children_eq, List.mem_map] at h
  obtain ⟨part, hpart, rfl⟩ := h
  exact (hstands.below.of_mem hpart).parent?_eq

theorem nodup_children (raw : Json) (number : Nat) : ((build raw).children number).Nodup := by
  by_cases hlt : number < (build raw).length
  · obtain ⟨parent, u, hstands⟩ := exists_stands_of_lt hlt
    rw [hstands.children_eq, List.Nodup, List.pairwise_map]
    exact (pairwise_numbered _ _).imp fun h => Nat.ne_of_lt h
  · simp [children, List.getElem?_eq_none (Nat.not_lt.1 hlt)]

/-- A schema other than the first one has a parent, which comes before it. -/
theorem exists_parent {raw : Json} (hpos : 0 < i) (hlt : i < (build raw).length) :
    ∃ j < i, i ∈ (build raw).children j := by
  have hlinked := exists_stands raw (fun i _ => i = 0 ∨ ∃ j < i, i ∈ (build raw).children j)
    (fun {_ j _} hstands _ part hpart _ => ?_) (.inl rfl) hlt
  · obtain ⟨-, -, -, hfirst | hparent⟩ := hlinked
    · omega
    · exact hparent
  · refine .inr ⟨j, (mem_of_mem_numbered hpart).1, ?_⟩
    rw [hstands.children_eq, List.mem_map]
    exact ⟨part, hpart, rfl⟩

/-- The names on the way to a schema are the tokens of its path. -/
theorem pointer_eq_path {raw : Json} {node : Node} (h : (build raw)[i]? = some node) :
    node.pointer = (build raw).path i := by
  obtain ⟨hlt, -⟩ := List.getElem?_eq_some_iff.1 h
  have hnamed := exists_stands raw
    (fun i u => ∃ slots raw', u = Outline.build slots raw' ∧
      (build raw).names i = slots.map Slot.token)
    (fun {_ j u} _ hu part hpart hchild => ?_) ⟨[], raw, rfl, ?_⟩ hlt
  · obtain ⟨parent, u, hstands, slots, raw', rfl, hnames⟩ := hnamed
    obtain rfl := Option.some.inj (h.symm.trans hstands.getElem?)
    rw [path, hnames, row, Outline.label_build]
    rfl
  · obtain ⟨slots, raw', rfl, hnames⟩ := hu
    have hmem := mem_of_mem_numbered hpart
    rw [Outline.children_build, List.mem_map] at hmem
    obtain ⟨hle, subschema, -, heq⟩ := hmem
    refine ⟨slots ++ [subschema.1], subschema.2, by rw [← heq], ?_⟩
    rw [hchild.names_eq hle, hnames, ← heq, Outline.label_build]
    simp [Section.name?]
  · rw [names, (stands_build raw).getElem?]
    rfl

/-- An arena that is numbered as it is walked through, each schema before its children. -/
structure IsPreorder (arena : Arena) : Prop where
  nonempty : 0 < arena.length
  /-- The first schema has no parent, and all others have one. -/
  root : ∀ i < arena.length, arena.parent? i = none ↔ i = 0
  /-- A schema is known to its parent as one child, and to no other schema. -/
  linked : ∀ i < arena.length, 0 < i → ∃ j < i, arena.parent? i = some j ∧
    (arena.children j).count i = 1 ∧ ∀ k, k ≠ j → i ∉ arena.children k
  /-- The walk from the first schema goes through the numbers in their order. -/
  walk : ∀ visited, Walks arena [0] visited ↔ visited = List.range arena.length
  pointer : ∀ i node, arena[i]? = some node → node.pointer = arena.path i

/-- The arena of a schema is in preorder, and it has what the outline has. -/
theorem isPreorder_build (raw : Json) :
    (build raw).IsPreorder ∧
      (build raw).map (fun node => (node.raw, node.mixed, node.pointer, node.name)) =
        (Outline.ofJson raw).labels.map fun s => (s.raw, s.mixed, s.pointer, s.name?) := by
  have hlinked : ∀ i < (build raw).length, 0 < i → ∃ j < i, (build raw).parent? i = some j ∧
      ((build raw).children j).count i = 1 ∧ ∀ k, k ≠ j → i ∉ (build raw).children k := by
    intro i hlt hpos
    obtain ⟨j, hj, hmem⟩ := exists_parent hpos hlt
    have hparent := parent?_of_mem_children hmem
    refine ⟨j, hj, hparent, List.count_eq_one_of_mem (nodup_children raw j) hmem, ?_⟩
    intro k hk hmem'
    have := (parent?_of_mem_children hmem').symm.trans hparent
    exact hk (Option.some.inj this)
  have hwalks : Walks (build raw) [0] (List.range (build raw).length) := by
    have := (stands_build raw).walks .done
    rwa [List.append_nil, ← length_build, ← List.range_eq_range'] at this
  constructor
  · constructor
    case nonempty =>
      rw [length_build]
      exact labels_pos _
    case root =>
      intro i hlt
      constructor
      · intro hnone
        by_contra hne
        obtain ⟨j, -, hparent, -⟩ := hlinked i hlt (by omega)
        simp [hnone] at hparent
      · rintro rfl
        exact (stands_build raw).parent?_eq
    case linked => exact hlinked
    case walk =>
      intro visited
      constructor
      · intro h
        exact h.unique hwalks
      · rintro rfl
        exact hwalks
    case pointer => exact fun i node h => pointer_eq_path h
  · rw [build_eq]
    exact map_rows (fun _ _ _ => rfl) none 0 _

end Arena

end FormSchema
