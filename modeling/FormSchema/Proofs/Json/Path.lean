import FormSchema.Document.Node
import FormSchema.Json.Size
import FormSchema.Proofs.Pointer.Text
import Mathlib.Data.List.Nodup

/-!
Paths in a value: the keys of the steps from the whole value down to a part.  Tokens name keys; the
canonical token of a key names it again.
-/

namespace FormSchema

namespace Key

variable {α β : Type}

theorem lookup_map_snd {κ : Type} [BEq κ] [LawfulBEq κ] (f : κ → α → β) (l : List (κ × α)) (k : κ) :
    (l.map fun p => (p.1, f p.1 p.2)).lookup k = (l.lookup k).map (f k) := by
  induction l with
  | nil => rfl
  | cons p l ih =>
    obtain ⟨key, a⟩ := p
    by_cases h : k = key
    · subst h
      simp
    · simp [List.lookup_cons, beq_false_of_ne h, ih]

theorem lookup_eq_some_of_mem {κ : Type} [BEq κ] [LawfulBEq κ] {l : List (κ × α)} {k : κ} {a : α}
    (nodup : (l.map (·.1)).Nodup) (h : (k, a) ∈ l) : l.lookup k = some a := by
  induction l with
  | nil => simp at h
  | cons p l ih =>
    obtain ⟨key, b⟩ := p
    rw [List.map_cons, List.nodup_cons] at nodup
    rcases List.mem_cons.1 h with e | h
    · obtain ⟨rfl, rfl⟩ := Prod.mk.inj e
      simp
    · have : k ≠ key := fun e => nodup.1 (e ▸ List.mem_map.2 ⟨(k, a), h, rfl⟩)
      rw [List.lookup_cons, beq_false_of_ne this]
      exact ih nodup.2 h

theorem mem_of_lookup {κ : Type} [BEq κ] [LawfulBEq κ] {l : List (κ × α)} {k : κ} {a : α}
    (h : l.lookup k = some a) : (k, a) ∈ l := by
  obtain ⟨l₁, l₂, rfl, -⟩ := List.lookup_eq_some_iff.1 h
  simp

/-- Items with their positions as keys, counted from `start`. -/
def ofItems (start : Nat) (items : List α) : List (Key × α) :=
  items.mapIdx fun i item => (.index (start + i), item)

@[simp] theorem ofItems_nil (start : Nat) : ofItems start ([] : List α) = [] := rfl

@[simp] theorem ofItems_cons (start : Nat) (item : α) (items : List α) :
    ofItems start (item :: items) = (.index start, item) :: ofItems (start + 1) items := by
  simp [ofItems, List.mapIdx_cons, Nat.add_assoc, Nat.add_comm 1]

theorem ofItems_map (f : α → β) (start : Nat) (items : List α) :
    ofItems start (items.map f) = (ofItems start items).map fun p => (p.1, f p.2) := by
  induction items generalizing start with
  | nil => rfl
  | cons item items ih => simp [ih]

theorem map_snd_ofItems (start : Nat) (items : List α) :
    (ofItems start items).map (·.2) = items := by
  induction items generalizing start with
  | nil => rfl
  | cons item items ih => rw [ofItems_cons, List.map_cons, ih]

theorem lookup_ofItems (start i : Nat) (items : List α) :
    (ofItems start items).lookup (.index i) = if start ≤ i then items[i - start]? else none := by
  induction items generalizing start with
  | nil => simp
  | cons item items ih =>
    rw [ofItems_cons, List.lookup_cons, ih]
    by_cases h : i = start
    · simp [h]
    · have hk : (Key.index i == .index start) = false := beq_false_of_ne (by simpa using h)
      rw [hk]
      by_cases hle : start ≤ i
      · have : i - start = i - (start + 1) + 1 := by omega
        simp [hle, this, show start + 1 ≤ i by omega]
      · simp [hle, show ¬ start + 1 ≤ i by omega]

theorem lookup_name_ofItems (start : Nat) (s : String) (items : List α) :
    (ofItems start items).lookup (.name s) = none := by
  induction items generalizing start with
  | nil => rfl
  | cons item items ih => rw [ofItems_cons, List.lookup_cons, ih]; rfl

theorem nodup_ofItems (start : Nat) (items : List α) : ((ofItems start items).map (·.1)).Nodup := by
  have fresh : ∀ (items : List α) (i j : Nat), i < j →
      Key.index i ∉ (ofItems j items).map (·.1) := by
    intro items
    induction items with
    | nil => simp
    | cons item items ih =>
      intro i j h
      rw [ofItems_cons, List.map_cons, List.mem_cons, Key.index.injEq]
      rintro (e | hmem)
      · omega
      · exact ih i (j + 1) (by omega) hmem
  induction items generalizing start with
  | nil => simp
  | cons item items ih =>
    rw [ofItems_cons, List.map_cons, List.nodup_cons]
    exact ⟨fresh items _ _ (Nat.lt_succ_self start), ih (start + 1)⟩

/-- Fields with their names as keys. -/
def ofFields (fields : List (String × α)) : List (Key × α) :=
  fields.map fun field => (.name field.1, field.2)

theorem lookup_ofFields (s : String) (fields : List (String × α)) :
    (ofFields fields).lookup (.name s) = fields.lookup s := by
  induction fields with
  | nil => rfl
  | cons field fields ih =>
    obtain ⟨name, a⟩ := field
    have : (Key.name s == .name name) = (s == name) := by
      by_cases h : s = name <;> simp [h]
    simp only [ofFields, List.map_cons, List.lookup_cons, this] at ih ⊢
    rw [ih]

theorem lookup_index_ofFields (i : Nat) (fields : List (String × α)) :
    (ofFields fields).lookup (.index i) = none := by
  induction fields with
  | nil => rfl
  | cons field fields ih =>
    obtain ⟨name, a⟩ := field
    rw [ofFields] at ih ⊢
    rw [List.map_cons, List.lookup_cons, ih]
    rfl

/-- The key that a token names in values of a kind. -/
def ofToken? (kind : Kind) (token : String) : Option Key :=
  match kind with
  | .object => some (.name token)
  | .array => (Number.index? token.toList).map .index
  | _ => none

/-- Keys whose positions fit into a machine word. -/
def IsShort : Key → Prop
  | .index i => i < Number.indexBound
  | .name _ => True

end Key

namespace Json

/-- The parts of a value with their keys, in order. -/
def children : Json → List (Key × Json)
  | .arr items => Key.ofItems 0 items
  | .obj fields => Key.ofFields fields
  | _ => []

/-- What holds of a value as soon as it holds of its parts holds of all values. -/
theorem induct {P : Json → Prop} (step : ∀ v, (∀ part ∈ v.children, P part.2) → P v) (v : Json) :
    P v :=
  step v fun part _ => induct step part.2
termination_by v.size
decreasing_by
  rename_i h
  cases v with
  | arr items =>
    have : part.2 ∈ items := by
      rw [← Key.map_snd_ofItems 0 items]
      exact List.mem_map_of_mem h
    have := size_le_sizeItems this
    simp only [size]
    omega
  | obj fields =>
    obtain ⟨field, hf, rfl⟩ := List.mem_map.1 h
    have := size_le_sizeFields hf
    simp only [size]
    omega
  | _ => simp [children] at h

/-- The part at a key. -/
def get? (v : Json) (key : Key) : Option Json := v.children.lookup key

/-- The part at the end of a path. -/
def at? (v : Json) (path : List Key) : Option Json := path.foldlM get? v

@[simp] theorem at?_nil (v : Json) : v.at? [] = some v := rfl

@[simp] theorem at?_cons (v : Json) (key : Key) (path : List Key) :
    v.at? (key :: path) = (v.get? key).bind fun w => w.at? path := rfl

theorem at?_append (v : Json) (path more : List Key) :
    v.at? (path ++ more) = (v.at? path).bind fun w => w.at? more := by
  simp [at?, List.foldlM_append]

theorem at?_concat (v : Json) (path : List Key) (key : Key) :
    v.at? (path ++ [key]) = (v.at? path).bind fun w => w.get? key := by
  simp [at?_append]

mutual

/-- Whether each key of each object in a value stands once. -/
def keysDistinct : Json → Bool
  | .arr items => itemsKeysDistinct items
  | .obj fields => decide (fields.map (·.1)).Nodup && fieldsKeysDistinct fields
  | _ => true

def itemsKeysDistinct : List Json → Bool
  | [] => true
  | item :: items => item.keysDistinct && itemsKeysDistinct items

def fieldsKeysDistinct : List (String × Json) → Bool
  | [] => true
  | (_, item) :: fields => item.keysDistinct && fieldsKeysDistinct fields

end

theorem itemsKeysDistinct_iff {items : List Json} :
    itemsKeysDistinct items = true ↔ ∀ item ∈ items, item.keysDistinct = true := by
  induction items with
  | nil => simp [itemsKeysDistinct]
  | cons item items ih => simp [itemsKeysDistinct, ih]

theorem fieldsKeysDistinct_iff {fields : Fields} :
    fieldsKeysDistinct fields = true ↔ ∀ field ∈ fields, field.2.keysDistinct = true := by
  induction fields with
  | nil => simp [fieldsKeysDistinct]
  | cons field fields ih => simp [fieldsKeysDistinct, ih]

theorem keysDistinct_iff {v : Json} :
    v.keysDistinct = true ↔
      (v.children.map (·.1)).Nodup ∧ ∀ part ∈ v.children, part.2.keysDistinct = true := by
  cases v with
  | arr items =>
    have parts : ∀ (items : List Json) (start : Nat),
        (∀ part ∈ Key.ofItems start items, part.2.keysDistinct = true) ↔
          ∀ item ∈ items, item.keysDistinct = true := by
      intro items
      induction items with
      | nil => simp
      | cons item items ih =>
        intro start
        rw [Key.ofItems_cons, List.forall_mem_cons, List.forall_mem_cons, ih]
    simp only [keysDistinct, itemsKeysDistinct_iff, children, parts, Key.nodup_ofItems, true_and]
  | obj fields =>
    have names : (Key.ofFields fields).map (·.1) = (fields.map (·.1)).map Key.name := by
      simp [Key.ofFields]
    have nodup := List.nodup_map_iff (l := fields.map (·.1)) (f := Key.name) fun a b => by simp
    rw [children, names, nodup, keysDistinct, Bool.and_eq_true, decide_eq_true_iff,
      fieldsKeysDistinct_iff]
    exact and_congr_right fun _ => by simp only [Key.ofFields, List.forall_mem_map]
  | _ => simp [keysDistinct, children]

end Json

end FormSchema
