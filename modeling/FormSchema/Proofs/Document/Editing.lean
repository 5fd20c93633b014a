import FormSchema.Proofs.Document.History
import FormSchema.Proofs.Json.Edit
import Mathlib.Data.List.InsertIdx

/-!
Changes of a document are changes of its plain value: a node that comes in changes the part at the
end of a path.  Nodes that do not go keep their identities, and their values unless they lie above
the change.
-/

namespace FormSchema

namespace Node

variable {n : Node} {key : Key}

theorem value_put_eq (h : (n.get? key).isSome = true) (m : Node) :
    (n.put key m).value = n.value.put key m.value := by
  cases n with
  | leaf tag v => cases h
  | list tag items =>
    cases key with
    | name s => rfl
    | index i => simp only [put, value, valueItems_eq, List.map_set, Json.put]
  | record tag fields =>
    cases key with
    | index i => rfl
    | name s =>
      rw [get?_record] at h
      simp only [put, value, valueFields_eq, Json.put]
      refine congrArg Json.obj ?_
      induction fields with
      | nil => cases h
      | cons field fields ih =>
        obtain ⟨k, item⟩ := field
        by_cases hk : k = s
        · simp [putField, Fields.set, hk]
        · rw [List.lookup_cons, beq_false_of_ne fun e => hk e.symm] at h
          simp [putField, Fields.set, hk, ih h]

theorem nodup_names {tag : Tag} {fields : List (String × Node)}
    (keys : ((record tag fields).children.map (·.1)).Nodup) : (fields.map (·.1)).Nodup := by
  rw [children_record, Key.ofFields, List.map_map] at keys
  exact List.Nodup.of_map Key.name (by rwa [List.map_map])

theorem eraseP_eq_filter {fields : List (String × Node)} (names : (fields.map (·.1)).Nodup)
    (s : String) :
    (fields.eraseP fun field => field.1 == s) = fields.filter fun field => field.1 ≠ s := by
  induction fields with
  | nil => rfl
  | cons field fields ih =>
    rw [List.map_cons, List.nodup_cons] at names
    by_cases h : field.1 = s
    · have hothers : ∀ other ∈ fields, other.1 ≠ s := fun other hother heq =>
        names.1 (List.mem_map.2 ⟨other, hother, heq.trans h.symm⟩)
      rw [List.eraseP_cons_of_pos (by simpa using h), List.filter_cons_of_neg (by simpa using h),
        List.filter_eq_self.2 (by simpa using hothers)]
    · rw [List.eraseP_cons_of_neg (by simpa using h), List.filter_cons_of_pos (by simpa using h),
        ih names.2]

theorem value_drop (keys : (n.children.map (·.1)).Nodup) :
    (n.drop key).value = n.value.drop key := by
  cases n with
  | leaf tag v => cases v <;> cases key <;> rfl
  | list tag items =>
    cases key with
    | name s => rfl
    | index i => simp only [drop, value, valueItems_eq, List.eraseIdx_map, Json.drop]
  | record tag fields =>
    cases key with
    | index i => rfl
    | name s =>
      simp only [drop, eraseP_eq_filter (nodup_names keys), value, valueFields_eq, Json.drop,
        Fields.erase, List.filter_map]
      rfl

/-- A field that has been taken away is not there any more, and the others stay. -/
theorem get?_drop_name (keys : (n.children.map (·.1)).Nodup) (s : String) (key : Key) :
    (n.drop (.name s)).get? key = if key = .name s then none else n.get? key := by
  cases n with
  | leaf tag v => cases key <;> simp [drop, get?, children]
  | list tag items => cases key <;> simp [drop, get?_list_name]
  | record tag fields =>
    cases key with
    | index i => simp [drop, get?_record_index]
    | name t =>
      rw [drop, eraseP_eq_filter (nodup_names keys), get?_record, get?_record]
      by_cases h : t = s
      · subst h
        rw [if_pos rfl, List.lookup_eq_none_iff]
        intro field hfield
        have hne : field.1 ≠ t := by simpa using (List.mem_filter.1 hfield).2
        simpa using hne.symm
      · rw [if_neg (by simpa using h)]
        induction fields with
        | nil => rfl
        | cons field fields ih =>
          obtain ⟨k, item⟩ := field
          have ih := ih (keys.sublist (List.sublist_cons_self _ _))
          by_cases hk : k = s
          · subst hk
            rw [List.filter_cons_of_neg (by simp), ih, List.lookup_cons, beq_false_of_ne h]
          · rw [List.filter_cons_of_pos (by simpa using hk), List.lookup_cons, List.lookup_cons, ih]

/-- What is left of a node after a child has been taken away is what stood beside that child. -/
theorem before_ne_of_get?_drop {gone : Key} {m : Node} (keys : (n.children.map (·.1)).Nodup)
    (h : (n.drop gone).get? key = some m) : gone.before key ≠ gone := by
  cases gone with
  | index i =>
    cases key with
    | name s => simp [Key.before]
    | index j =>
      simp only [Key.before]
      split <;> simp only [ne_eq, Key.index.injEq] <;> omega
  | name s =>
    rintro rfl
    rw [get?_drop_name keys, if_pos rfl] at h
    cases h

theorem exists_get?_drop {gone : Key} {m : Node} (keys : (n.children.map (·.1)).Nodup)
    (h : n.get? key = some m) (hne : key ≠ gone) :
    ∃ key', gone.before key' = key ∧ (n.drop gone).get? key' = some m := by
  cases gone with
  | name s => exact ⟨key, rfl, by rw [get?_drop_name keys, if_neg hne, h]⟩
  | index i =>
    cases n with
    | leaf tag v => cases h
    | record tag fields =>
      cases key with
      | index j => simp [get?_record_index] at h
      | name s => exact ⟨.name s, rfl, h⟩
    | list tag items =>
      cases key with
      | name s => simp [get?_list_name] at h
      | index j =>
        rw [get?_list] at h
        have hji : j ≠ i := fun e => hne (congrArg Key.index e)
        by_cases hlt : j < i
        · refine ⟨.index j, by simp [Key.before, hlt], ?_⟩
          rw [drop, get?_list, List.getElem?_eraseIdx_of_lt hlt, h]
        · refine ⟨.index (j - 1), ?_, ?_⟩
          · rw [Key.before, if_neg (by omega), show j - 1 + 1 = j by omega]
          · rw [drop, get?_list, List.getElem?_eraseIdx_of_ge (by omega),
              show j - 1 + 1 = j by omega, h]

/-- None of the nodes below a child that has been taken away is left. -/
theorem Distinct.id_ne_of_drop {gone : Key} {m x : Node} {path more : List Key} (h : n.Distinct)
    (hx : (n.drop gone).at? path = some x) (hm : n.at? (gone :: more) = some m) : x.id ≠ m.id := by
  intro hid
  have keys := h.keys n.at?_nil
  rcases at?_of_drop keys hx with ⟨rfl, rfl⟩ | ⟨hne, hold⟩
  · rw [id, tag_drop] at hid
    cases h.unique n.at?_nil hm hid
  · cases path with
    | nil => exact hne rfl
    | cons key path =>
      obtain ⟨child, hchild, -⟩ := Option.bind_eq_some_iff.1 hx
      have hsame := h.unique hold hm hid
      exact before_ne_of_get?_drop keys hchild (List.cons.inj hsame).1

theorem at?_append_item {tag : Tag} {items : List Node} {item m : Node} {more : List Key}
    (h : (list tag items).at? (key :: more) = some m) :
    (list tag (items ++ [item])).at? (key :: more) = some m := by
  rw [at?_cons, Option.bind_eq_some_iff] at h
  obtain ⟨child, hchild, h⟩ := h
  cases key with
  | name s => simp [get?_list_name] at hchild
  | index i =>
    rw [get?_list] at hchild
    obtain ⟨hlt, -⟩ := List.getElem?_eq_some_iff.1 hchild
    rw [at?_cons, get?_list, List.getElem?_append_left hlt, hchild]
    exact h

/-- The nodes that stood beside a child that has been taken away still do. -/
theorem exists_at?_drop {gone : Key} {m : Node} {more : List Key}
    (keys : (n.children.map (·.1)).Nodup) (h : n.at? (key :: more) = some m) (hne : key ≠ gone) :
    ∃ key', gone.before key' = key ∧ (n.drop gone).at? (key' :: more) = some m := by
  obtain ⟨child, hchild, h⟩ := Option.bind_eq_some_iff.1 h
  obtain ⟨key', hbefore, hkey'⟩ := exists_get?_drop keys hchild hne
  exact ⟨key', hbefore, by rw [at?_cons, hkey']; exact h⟩

end Node

namespace Document

variable {d : Document} {p q : Place}

/-- The value of the node with an identity. -/
def value? (d : Document) (id : Nat) : Option Json := (d.find? id).map Place.value

theorem Sound.value?_eq_some_iff (h : d.Sound) {id : Nat} {v : Json} :
    d.value? id = some v ↔ ∃ p, d.Has p ∧ p.id = id ∧ p.value = v := by
  rw [value?, Option.map_eq_some_iff]
  constructor
  · rintro ⟨p, hfind, hvalue⟩
    obtain ⟨hp, hid⟩ := h.find?_eq_some_iff.1 hfind
    exact ⟨p, hp, hid, hvalue⟩
  · rintro ⟨p, hp, hid, hvalue⟩
    exact ⟨p, h.find?_eq_some_iff.2 ⟨hp, hid⟩, hvalue⟩

/-- A place is below those that are its ancestors, and below itself. -/
theorem Has.covers_iff_mem_ancestors (hq : d.Has q) : p.Covers q ↔ p ∈ q :: q.ancestors := by
  constructor
  · intro hcovers
    induction hcovers with
    | refl => exact List.mem_cons_self
    | down _ _ ih => exact List.mem_cons_of_mem _ (ih (above_cons hq).1)
  · intro hmem
    obtain ⟨n, above⟩ := q
    induction above generalizing n with
    | nil =>
      obtain rfl := List.mem_singleton.1 hmem
      exact .refl
    | cons step above ih =>
      obtain ⟨hparent, hget⟩ := hq.above_cons
      rcases List.mem_cons.1 hmem with rfl | hmem
      · exact .refl
      · exact (ih step.2 hparent hmem).down hget

/-- Whether a change at a place leaves the other nodes alone: those that do not go keep their
identities, and their values unless they lie above the place. -/
structure Spares (d d' : Document) (p : Place) (gone : Place → Prop) : Prop where
  live : ∀ q ∈ d.places, d'.Live q.id ↔ ¬ gone q
  value : ∀ q ∈ d.places, ¬ gone q → ¬ q.Covers p → d'.value? q.id = some q.value

namespace Graft

variable {m : Node} {next : Nat}

theorem value_eq (g : d.Graft p m next) :
    (d.graft p m next).value = d.value.modifyAt (fun _ => m.value) p.path := by
  have main (n : Node) (above : List (Key × Node)) (hp : d.Has ⟨n, above⟩) (m : Node) :
      (d.setAt ⟨n, above⟩ m).value =
        d.value.modifyAt (fun _ => m.value) (Place.path ⟨n, above⟩) := by
    induction above generalizing n m with
    | nil => rfl
    | cons step above ih =>
      obtain ⟨key, parent⟩ := step
      obtain ⟨hparent, hget⟩ := hp.above_cons
      refine (ih parent hparent (parent.put key m)).trans ?_
      rw [Place.path_mk_cons, Json.modifyAt_append]
      refine Json.modifyAt_congr hparent.at?_value ?_
      have hpart : parent.value.get? key = some n.value := by rw [Node.get?_value, hget]; rfl
      refine (Node.value_put_eq (by rw [hget]; rfl) m).trans ?_
      exact (Json.modifyAt_cons hpart (fun _ => m.value) []).symm
  obtain ⟨n, above⟩ := p
  exact main n above g.has m

/-- A node beside the new one stays. -/
theorem exists_beside (g : d.Graft p m next) (hq : d.Has q) (beside : ¬ p.Covers q) :
    ∃ q', (d.graft p m next).Has q' ∧ q'.id = q.id ∧ (¬ q.Covers p → q'.value = q.value) := by
  have hp := g.has
  have hpre : ¬ p.path <+: q.path := fun h => beside ((hp.covers_iff hq).2 h)
  have hskin := skin_setAt hp m hpre
  rw [hq.at?_path, Option.map_some, Option.map_eq_some_iff] at hskin
  obtain ⟨n, hn, hskin⟩ := hskin
  obtain ⟨q', hq', hpath, rfl⟩ := Has.exists_of_at? hn
  refine ⟨q', hq', congrArg (fun s : Node.Skin => s.tag.id) hskin, fun above => ?_⟩
  have hsame := at?_setAt_apart hp m hpre fun h => above ((hq.covers_iff hp).2 h)
  rw [hq.at?_path] at hsame
  exact congrArg Node.value (Option.some.inj (hn.symm.trans hsame))

/-- A part of the new node has come in. -/
theorem exists_part (g : d.Graft p m next) {more : List Key} {x : Node} (h : m.at? more = some x) :
    ∃ q', (d.graft p m next).Has q' ∧ q'.path = p.path ++ more ∧ q'.node = x :=
  Has.exists_of_at? ((at?_setAt_self g.has m more).trans h)

theorem value?_part (g : d.Graft p m next) (h : d.Sound) {more : List Key} {x : Node}
    (hx : m.at? more = some x) : (d.graft p m next).value? x.id = some x.value := by
  obtain ⟨q', hq', -, rfl⟩ := g.exists_part hx
  exact (g.sound h).value?_eq_some_iff.2 ⟨q', hq', rfl, rfl⟩

/-- A node below the place stays if a part of the new node has its identity. -/
theorem exists_of_live (g : d.Graft p m next) (h : d.Sound) (hq : d.Has q) (below : p.Covers q)
    (live : (d.graft p m next).Live q.id) : ∃ path x, m.at? path = some x ∧ x.id = q.id := by
  obtain ⟨q', hq', hid⟩ := (g.sound h).live_iff.1 live
  by_cases hpre : p.path <+: q'.path
  · obtain ⟨more, hpath⟩ := hpre
    have hat := hq'.at?_path
    rw [← hpath] at hat
    exact ⟨more, q'.node, (at?_setAt_self g.has m more).symm.trans hat, hid⟩
  · obtain ⟨r, hr, hpath, htag, -⟩ := exists_place_setAt g.has hq' hpre
    have hrid : r.id = q.id := (congrArg Tag.id htag).trans hid
    obtain rfl := h.eq_of_id_eq hr hq hrid
    exact absurd (hpath ▸ (g.has.covers_iff hq).1 below) hpre

/-- The nodes beside a new one are spared, and so are those below it that it brings back. -/
theorem spares (g : d.Graft p m next) (h : d.Sound) {gone : Place → Prop} {site : Place}
    (beside : ∀ q, d.Has q → ¬ p.Covers q → ¬ gone q)
    (stays : ∀ q, d.Has q → p.Covers q → ¬ gone q →
      ∃ path x, m.at? path = some x ∧ x.id = q.id ∧ (¬ q.Covers site → x.value = q.value))
    (goes : ∀ q, d.Has q → p.Covers q → gone q →
      ∀ path x, m.at? path = some x → x.id ≠ q.id)
    (above : p.Covers site) : Spares d (d.graft p m next) site gone := by
  have kept (q : Place) (hq : d.Has q) (hstays : ¬ gone q) :
      ∃ q', (d.graft p m next).Has q' ∧ q'.id = q.id ∧
        (¬ q.Covers site → q'.value = q.value) := by
    by_cases hbelow : p.Covers q
    · obtain ⟨path, x, hx, hid, hvalue⟩ := stays q hq hbelow hstays
      obtain ⟨q', hq', -, rfl⟩ := g.exists_part hx
      exact ⟨q', hq', hid, hvalue⟩
    · obtain ⟨q', hq', hid, hvalue⟩ := g.exists_beside hq hbelow
      exact ⟨q', hq', hid, fun hsite => hvalue fun hcov => hsite (hcov.trans above)⟩
  refine ⟨fun q hq => ?_, fun q hq hstays hsite => ?_⟩
  · have hq := h.mem_places_iff.1 hq
    constructor
    · intro hlive hgone
      by_cases hbelow : p.Covers q
      · obtain ⟨path, x, hx, hid⟩ := g.exists_of_live h hq hbelow hlive
        exact goes q hq hbelow hgone path x hx hid
      · exact beside q hq hbelow hgone
    · intro hstays
      obtain ⟨q', hq', hid, -⟩ := kept q hq hstays
      exact (g.sound h).live_iff.2 ⟨q', hq', hid⟩
  · obtain ⟨q', hq', hid, hvalue⟩ := kept q (h.mem_places_iff.1 hq) hstays
    exact (g.sound h).value?_eq_some_iff.2 ⟨q', hq', hid, hvalue hsite⟩

end Graft

namespace Sound

variable (h : d.Sound) (hp : d.Has p) {v : Json} (hv : v.keysDistinct = true)

include h hp

/-! ### Another value -/

include hv in
theorem value_fresh : (d.fresh p v).value = d.value.modifyAt (fun _ => v) p.path := by
  refine (graft_fresh h hp hv).value_eq.trans ?_
  rw [Node.value_ofJson]

include hv in
theorem value?_fresh : (d.fresh p v).value? p.id = some v := by
  have g := graft_fresh h hp hv
  have hpart := g.value?_part h (Node.at?_nil _)
  rw [g.id, Node.value_ofJson] at hpart
  exact hpart

include hv in
/-- The parts of a node that gets another value go, and no other nodes. -/
theorem spares_fresh : Spares d (d.fresh p v) p fun q => p.Covers q ∧ q.id ≠ p.id := by
  have g := graft_fresh h hp hv
  refine g.spares h ?_ ?_ ?_ .refl
  · exact fun q _ hbeside hgone => hbeside hgone.1
  · intro q hq hbelow hstays
    have hid : q.id = p.id := not_not.1 fun hne => hstays ⟨hbelow, hne⟩
    obtain rfl := h.eq_of_id_eq hq hp hid
    exact ⟨[], _, rfl, g.id, fun hsite => absurd .refl hsite⟩
  · rintro q hq - ⟨-, hne⟩ path x hx hid
    have hold : q.id < d.next := h.fresh hq.at?_path
    rcases Node.id_of_at?_ofJson hx with hkept | hnew
    · exact hne (hid.symm.trans hkept)
    · omega

/-! ### One item more -/

section Grown

variable {tag : Tag} {items : List Node} (hnode : p.node = .list tag items)

include hnode hv

theorem value_grown :
    (d.grown p tag items v).value = d.value.modifyAt (fun items => items.append v) p.path := by
  refine (graft_grown h hp hnode hv).value_eq.trans (Json.modifyAt_congr hp.at?_value ?_)
  simp only [Place.value, hnode, Node.value, Node.valueItems_eq, Json.append, List.map_append,
    List.map_singleton, Node.value_ofJson]

theorem value?_grown : (d.grown p tag items v).value? d.next = some v := by
  have hlast : (Node.list tag (items ++ [Node.ofJson ⟨d.next, none⟩ (d.next + 1) v])).at?
      [.index items.length] = some (Node.ofJson ⟨d.next, none⟩ (d.next + 1) v) := by
    simp [Node.get?_list]
  have hpart := (graft_grown h hp hnode hv).value?_part h hlast
  rw [Node.id_ofJson, Node.value_ofJson] at hpart
  exact hpart

/-- No node goes when an array gets one more item. -/
theorem spares_grown : Spares d (d.grown p tag items v) p fun _ => False := by
  have g := graft_grown h hp hnode hv
  refine g.spares h ?_ ?_ ?_ .refl
  · exact fun _ _ _ => not_false
  · intro q hq hbelow _
    obtain ⟨more, hpath, hat⟩ := hbelow.path_eq
    cases more with
    | nil =>
      obtain rfl := hq.eq_of_path_eq hp (by simpa using hpath)
      exact ⟨[], _, rfl, g.id, fun hsite => absurd .refl hsite⟩
    | cons key more =>
      rw [hnode] at hat
      exact ⟨key :: more, q.node, Node.at?_append_item hat, rfl, fun _ => rfl⟩
  · exact fun _ _ _ hgone => hgone.elim

end Grown

end Sound

/-! ### One child less -/

section Drop

variable {n : Node} {key : Key} {parent : Node} {above : List (Key × Node)} (h : d.Sound)
  (hp : d.Has ⟨n, (key, parent) :: above⟩)

include h hp

theorem Sound.value_drop : (d.setAt ⟨parent, above⟩ (parent.drop key)).value =
    d.value.modifyAt (fun part => part.drop key) (Place.path ⟨parent, above⟩) := by
  have hparent := hp.above_cons.1
  refine (graft_drop h hparent key).value_eq.trans (Json.modifyAt_congr hparent.at?_value ?_)
  exact Node.value_drop (h.distinct.keys hparent.at?_path)

/-- A child that is taken away goes with its parts, and no other nodes do. -/
theorem Sound.spares_drop : Spares d (d.setAt ⟨parent, above⟩ (parent.drop key))
    ⟨n, (key, parent) :: above⟩ (Place.Covers ⟨n, (key, parent) :: above⟩) := by
  obtain ⟨hparent, hget⟩ := hp.above_cons
  have g := graft_drop h hparent key
  have hdown : Place.Covers ⟨parent, above⟩ ⟨n, (key, parent) :: above⟩ := .step hget
  refine g.spares h ?_ ?_ ?_ hdown
  · exact fun q _ hbeside hgone => hbeside (hdown.trans hgone)
  · intro q hq hbelow hstays
    obtain ⟨more, hpath, hat⟩ := hbelow.path_eq
    cases more with
    | nil =>
      obtain rfl := hq.eq_of_path_eq hparent (by simpa using hpath)
      exact ⟨[], _, rfl, g.id, fun hsite => absurd hdown hsite⟩
    | cons key' more =>
      have hne : key' ≠ key := by
        rintro rfl
        exact hstays ((hp.covers_iff hq).2 ⟨more, by simp [hpath]⟩)
      obtain ⟨key'', -, hat'⟩ :=
        Node.exists_at?_drop (h.distinct.keys hparent.at?_path) hat hne
      exact ⟨_, q.node, hat', rfl, fun _ => rfl⟩
  · intro q hq hbelow hgone path x hx hid
    obtain ⟨more, hpath, hat⟩ := hgone.path_eq
    have hq : parent.at? (key :: more) = some q.node := by
      rw [Node.at?_cons, hget]
      exact hat
    exact (h.distinct.at? hparent.at?_path).id_ne_of_drop hx hq hid

end Drop

end Document

end FormSchema
