import FormSchema.Json.Basic

/-! How many values there are in a value. -/

namespace FormSchema.Json

mutual

/-- How many values there are in a value, itself included. -/
def size : Json → Nat
  | .null | .bool _ | .num _ | .str _ => 1
  | .arr items => 1 + sizeItems items
  | .obj fields => 1 + sizeFields fields

def sizeItems : List Json → Nat
  | [] => 0
  | item :: items => item.size + sizeItems items

def sizeFields : List (String × Json) → Nat
  | [] => 0
  | (_, item) :: items => item.size + sizeFields items

end

theorem size_pos (v : Json) : 0 < v.size := by
  cases v <;> simp only [size] <;> omega

theorem size_le_sizeItems {v : Json} {items : List Json} (h : v ∈ items) :
    v.size ≤ sizeItems items := by
  induction items with
  | nil => simp at h
  | cons item items ih =>
    rcases List.mem_cons.1 h with rfl | h
    · simp [sizeItems]
    · have := ih h
      simp only [sizeItems]
      omega

theorem size_le_sizeFields {field : String × Json} {fields : Fields} (h : field ∈ fields) :
    field.2.size ≤ sizeFields fields := by
  induction fields with
  | nil => simp at h
  | cons head rest ih =>
    rcases List.mem_cons.1 h with rfl | h
    · simp [sizeFields]
    · have := ih h
      simp only [sizeFields]
      omega

theorem mem_of_lookup {key : String} {v : Json} {fields : Fields}
    (h : fields.lookup key = some v) : (key, v) ∈ fields := by
  induction fields with
  | nil => simp at h
  | cons head rest ih =>
    obtain ⟨k, w⟩ := head
    by_cases hk : key = k
    · subst hk
      simp only [List.lookup_cons_self, Option.some.injEq] at h
      simp [h]
    · have : (key == k) = false := beq_false_of_ne hk
      simp only [List.lookup_cons, this] at h
      exact List.mem_cons_of_mem _ (ih h)

theorem size_le_of_lookup {key : String} {v : Json} {fields : Fields}
    (h : fields.lookup key = some v) : v.size ≤ sizeFields fields :=
  size_le_sizeFields (mem_of_lookup h)

theorem sizeFields_set_le (key : String) (v : Json) (fields : Fields) :
    sizeFields (fields.set key v) ≤ sizeFields fields + v.size := by
  induction fields with
  | nil => simp [sizeFields]
  | cons head rest ih =>
    obtain ⟨k, w⟩ := head
    by_cases hk : k = key
    · simp only [Fields.set, hk, if_true, sizeFields]
      omega
    · simp only [Fields.set, hk, if_false, sizeFields]
      omega

theorem sizeFields_overlay_le (layer fields : Fields) :
    sizeFields (fields.overlay layer) ≤ sizeFields fields + sizeFields layer := by
  induction layer generalizing fields with
  | nil => simp [Fields.overlay, sizeFields]
  | cons head rest ih =>
    have h := ih (fields.set head.1 head.2)
    have h' := sizeFields_set_le head.1 head.2 fields
    simp only [Fields.overlay, List.foldl_cons, sizeFields] at h ⊢
    omega

theorem sizeFields_erase_le (key : String) (fields : Fields) :
    sizeFields (fields.erase key) ≤ sizeFields fields := by
  induction fields with
  | nil => simp [Fields.erase, sizeFields]
  | cons head rest ih =>
    rw [Fields.erase_cons]
    split <;> simp only [sizeFields] <;> omega

/-- Without a field, the rest and the field's value together are no larger than before. -/
theorem sizeFields_erase_add_le {key : String} {v : Json} {fields : Fields}
    (h : fields.lookup key = some v) :
    sizeFields (fields.erase key) + v.size ≤ sizeFields fields := by
  induction fields with
  | nil => simp at h
  | cons head rest ih =>
    obtain ⟨k, w⟩ := head
    by_cases hk : key = k
    · subst hk
      simp only [List.lookup_cons_self, Option.some.injEq] at h
      subst h
      have := sizeFields_erase_le key rest
      simp only [Fields.erase_cons, if_true, sizeFields]
      omega
    · have hb : (key == k) = false := beq_false_of_ne hk
      simp only [List.lookup_cons, hb] at h
      have := ih h
      have hk' : k ≠ key := fun e => hk e.symm
      simp only [Fields.erase_cons, hk', if_false, sizeFields]
      omega

end FormSchema.Json
