import FormSchema.Proofs.Document.Coherence

/-!
What pointers read.  A pointer that reads a linked node has named the schema of that node when the
schema was compiled: on the way down, each token names the slot that the next node hangs in.
-/

namespace FormSchema

theorem Key.ofToken?_eq_some {kind : Kind} {token : String} {key : Key}
    (h : ofToken? kind token = some key) :
    key = .name token ∨ ∃ i, Number.index? token.toList = some i ∧ key = .index i := by
  cases kind with
  | object => exact .inl (Option.some.inj h).symm
  | array =>
    obtain ⟨i, hi, rfl⟩ := Option.map_eq_some_iff.1 h
    exact .inr ⟨i, hi, rfl⟩
  | _ => cases h

theorem Pointer.prefix_of_descend {κ : Type} {step? : List κ → String → Option κ}
    {path path' : List κ} {tokens : List String}
    (h : descend (pathNavigation step?) path tokens = some path') : path <+: path' := by
  induction tokens generalizing path with
  | nil => exact Option.some.inj h ▸ List.prefix_refl _
  | cons token tokens ih =>
    obtain ⟨next, hnext, h⟩ := Option.bind_eq_some_iff.1 h
    obtain ⟨step, -, rfl⟩ := Option.map_eq_some_iff.1 hnext
    exact (List.prefix_append _ _).trans (ih h)

namespace Tree

/-- A token that stands for an item names the schema of all items, if there is one. -/
theorem eq_item_of_slot? {α : Type} {t : Tree α} {token : String} {i : Nat} {slot : Slot}
    (hi : Number.index? token.toList = some i) (h : t.slot? token = some slot) :
    slot = .property token ∨ slot = .item := by
  rw [slot?] at h
  cases hproperty : t.at? (.property token) with
  | some child =>
    rw [hproperty] at h
    exact .inl (Option.some.inj h).symm
  | none =>
    cases hitem : t.at? .item with
    | some item =>
      simp only [hproperty, hitem, Option.ite_none_right_eq_some, Option.some.injEq] at h
      exact .inr h.2.symm
    | none =>
      -- No index starts with a star, as the tokens of variants do.
      have hnone : variantIndex? token = none := by
        rw [variantIndex?]
        split
        · rename_i digits htoken
          have hstar : Text.isPlainDigit '*' = false := by decide
          rw [htoken, Number.index?] at hi
          · simp [hstar] at hi
          · exact fun rest heq => absurd (List.cons.inj heq).1 (by decide)
        · rfl
      simp [hproperty, hitem, hnone] at h

end Tree

namespace Document

/-- Whether a document has a node at the end of a path, and the node is linked to the schema at the
end of another one. -/
def LinkedAt (schema : Schema) (d : Document) (path : List Key) (slots : List Slot) : Prop :=
  ∃ n u, d.root.at? path = some n ∧ n.schema? = some u ∧ schema.sub? slots = some u

variable {schema : Schema} {d : Document} {path path' : List Key} {slots slots' : List Slot}

theorem Coherent.linkedAt_root (h : d.Coherent schema) : LinkedAt schema d [] [] :=
  ⟨d.root, schema, rfl, h.root, rfl⟩

theorem Coherent.linkedAt (regular : Schema.Regular schema) (h : d.Coherent schema) {p : Place}
    (hp : d.Has p) {u : Schema} (hu : p.node.schema? = some u) :
    LinkedAt schema d p.path u.label.path ∧ schema.sub? u.label.path = some u := by
  obtain ⟨slots, hsub, -⟩ := h.exists_path regular.shaped hp hu
  have hlabel : u.label.path = slots := regular.labelled slots u hsub
  rw [hlabel]
  exact ⟨⟨p.node, u, hp.at?_path, hu, hsub⟩, hsub⟩

namespace LinkedAt

theorem unique (regular : Schema.Regular schema) (h : LinkedAt schema d path slots)
    (h' : LinkedAt schema d path slots') : slots = slots' := by
  obtain ⟨n, u, hn, hu, hsub⟩ := h
  obtain ⟨n', u', hn', hu', hsub'⟩ := h'
  obtain rfl := Option.some.inj (hn.symm.trans hn')
  obtain rfl := Option.some.inj (hu.symm.trans hu')
  exact (regular.labelled slots u hsub).symm.trans (regular.labelled slots' u hsub')

/-- The node above a linked one is linked to the schema above. -/
theorem of_concat (regular : Schema.Regular schema) (coherent : d.Coherent schema) {key : Key}
    (h : LinkedAt schema d (path ++ [key]) slots) :
    ∃ front slot, slots = front ++ [slot] ∧ LinkedAt schema d path front ∧ slot.Fits key := by
  obtain ⟨n, u, hn, hu, hsub⟩ := h
  rw [Node.at?_concat, Option.bind_eq_some_iff] at hn
  obtain ⟨parent, hparent, hget⟩ := hn
  obtain ⟨v, hv, -, slot, hfits, hmem⟩ := coherent.node hparent hget u hu
  obtain ⟨p, hp, rfl, rfl⟩ := Has.exists_of_at? hparent
  obtain ⟨hlinked, hv'⟩ := coherent.linkedAt regular hp hv
  refine ⟨v.label.path, slot, ?_, hlinked, hfits⟩
  have hconcat : schema.sub? (v.label.path ++ [slot]) = some u := by
    rw [Tree.sub?_concat, hv']
    exact Key.lookup_eq_some_of_mem (regular.orderly hv').nodup hmem
  exact (regular.labelled _ u hsub).symm.trans (regular.labelled _ u hconcat)

theorem fits (regular : Schema.Regular schema) (coherent : d.Coherent schema)
    (h : LinkedAt schema d path slots) : List.Forall₂ Slot.Fits slots path := by
  induction path using List.reverseRecOn generalizing slots with
  | nil =>
    rw [h.unique regular coherent.linkedAt_root]
    exact .nil
  | append_singleton path key ih =>
    obtain ⟨front, slot, rfl, hfront, hfits⟩ := h.of_concat regular coherent
    exact List.rel_append (ih hfront) (.cons hfits .nil)

theorem length_eq (regular : Schema.Regular schema) (coherent : d.Coherent schema)
    (h : LinkedAt schema d path slots) : slots.length = path.length :=
  (h.fits regular coherent).length_eq

theorem of_append (regular : Schema.Regular schema) (coherent : d.Coherent schema)
    {more : List Key} (h : LinkedAt schema d (path ++ more) slots) :
    ∃ front rest, slots = front ++ rest ∧ LinkedAt schema d path front := by
  induction more using List.reverseRecOn generalizing slots with
  | nil => exact ⟨slots, [], by simp, by simpa using h⟩
  | append_singleton more key ih =>
    rw [← List.append_assoc] at h
    obtain ⟨front, slot, rfl, hfront, -⟩ := h.of_concat regular coherent
    obtain ⟨front, rest, rfl, hlinked⟩ := ih hfront
    exact ⟨front, rest ++ [slot], by simp, hlinked⟩

theorem left (regular : Schema.Regular schema) (coherent : d.Coherent schema) {more : List Key}
    {rest : List Slot} (h : LinkedAt schema d (path ++ more) (slots ++ rest))
    (hlength : slots.length = path.length) : LinkedAt schema d path slots := by
  obtain ⟨front, rest', heq, hfront⟩ := h.of_append regular coherent
  obtain ⟨rfl, -⟩ := List.append_inj heq
    (hlength.trans (hfront.length_eq regular coherent).symm)
  exact hfront

theorem take (regular : Schema.Regular schema) (coherent : d.Coherent schema)
    (h : LinkedAt schema d path slots) (n : Nat) :
    LinkedAt schema d (path.take n) (slots.take n) := by
  have hlength := h.length_eq regular coherent
  rw [← List.take_append_drop n path, ← List.take_append_drop n slots] at h
  exact h.left regular coherent (by rw [List.length_take, List.length_take, hlength])

theorem dropLast (regular : Schema.Regular schema) (coherent : d.Coherent schema)
    (h : LinkedAt schema d path slots) : LinkedAt schema d path.dropLast slots.dropLast := by
  rw [List.dropLast_eq_take, List.dropLast_eq_take, h.length_eq regular coherent]
  exact h.take regular coherent _

/-- The token of a step down names the slot that the next node hangs in, if it names any. -/
theorem slot_eq (regular : Schema.Regular schema) (coherent : d.Coherent schema) {key : Key}
    {slot slot' : Slot} {token : String} (h : LinkedAt schema d (path ++ [key]) (slots ++ [slot]))
    (hkey : d.value.step? path token = some key)
    (hslot : (schema.sub? slots).bind (fun u => u.slot? token) = some slot') : slot' = slot := by
  obtain ⟨front, slot'', heq, -, hfits⟩ := h.of_concat regular coherent
  obtain ⟨rfl, hslot''⟩ := List.append_inj' heq rfl
  obtain rfl : slot = slot'' := List.singleton_inj.1 hslot''
  obtain ⟨n, u, -, -, hsub⟩ := h
  rw [Tree.sub?_concat, Option.bind_eq_some_iff] at hsub
  obtain ⟨v, hv, hat⟩ := hsub
  rw [hv, Option.bind_some] at hslot
  have orderly := regular.orderly hv
  have hmem := Tree.mem_slots_of_at? hat
  have hmem' := Tree.mem_slots_of_slot? hslot
  rw [Json.step?, Option.bind_eq_some_iff] at hkey
  obtain ⟨part, -, hkey⟩ := hkey
  rw [Option.bind_eq_some_iff] at hkey
  obtain ⟨key', hkey', hget⟩ := hkey
  obtain ⟨-, -, rfl⟩ := Option.map_eq_some_iff.1 hget
  rcases Key.ofToken?_eq_some hkey' with rfl | ⟨i, hi, rfl⟩
  · cases slot with
    | property name =>
      obtain rfl : name = token := hfits
      rw [Tree.slot?, hat] at hslot
      exact (Option.some.inj hslot).symm
    | _ => exact hfits.elim
  · rcases Tree.eq_item_of_slot? hi hslot with rfl | rfl
    · obtain ⟨s, hs, -⟩ := orderly.of_property hmem' hmem hfits
      cases hs
    · obtain ⟨-, -, rfl⟩ := orderly.of_item hmem' hmem hfits
      rfl

/-- The way down to a linked node leads to its schema, if it leads to any. -/
theorem descend_eq (regular : Schema.Regular schema) (coherent : d.Coherent schema)
    {tokens : List String} {found : List Slot} (h : LinkedAt schema d path slots)
    (h' : LinkedAt schema d path' slots')
    (hdata : Pointer.descend d.value.navigation path tokens = some path')
    (hschema : Pointer.descend schema.slotNavigation slots tokens = some found) :
    found = slots' := by
  induction tokens generalizing path slots with
  | nil =>
    obtain rfl := Option.some.inj hdata
    obtain rfl := Option.some.inj hschema
    exact h.unique regular h'
  | cons token tokens ih =>
    obtain ⟨next, hnext, hdata⟩ := Option.bind_eq_some_iff.1 hdata
    obtain ⟨key, hkey, rfl⟩ := Option.map_eq_some_iff.1 hnext
    obtain ⟨next, hnext, hschema⟩ := Option.bind_eq_some_iff.1 hschema
    obtain ⟨slot', hslot', rfl⟩ := Option.map_eq_some_iff.1 hnext
    obtain ⟨more, rfl⟩ := Pointer.prefix_of_descend hdata
    obtain ⟨front, rest, -, hlinked⟩ := h'.of_append regular coherent
    obtain ⟨front, slot, rfl, hfront, -⟩ := hlinked.of_concat regular coherent
    obtain rfl := hfront.unique regular h
    obtain rfl := hlinked.slot_eq regular coherent hkey hslot'
    exact ih hlinked hdata hschema

/-- Where a pointer starts in a schema tells where it starts in a document. -/
theorem start?_eq (regular : Schema.Regular schema) (coherent : d.Coherent schema)
    {parsed : Pointer} {front : List Slot} (h : LinkedAt schema d path slots)
    (hfront : Pointer.start? schema.slotNavigation slots parsed = some front) :
    front <+: slots ∧
      Pointer.start? d.value.navigation path parsed = some (path.take front.length) := by
  cases parsed with
  | absolute tokens =>
    obtain rfl := Option.some.inj hfront
    exact ⟨List.nil_prefix, rfl⟩
  | relative up tokens =>
    have hfront : (slots :: Pointer.above slots)[up]? = some front := hfront
    rw [Pointer.getElem?_cons_above, Option.ite_none_right_eq_some] at hfront
    obtain ⟨hup, hfront⟩ := hfront
    obtain rfl := Option.some.inj hfront
    refine ⟨List.take_prefix _ _, ?_⟩
    change (path :: Pointer.above path)[up]? = _
    rw [Pointer.getElem?_cons_above, ← h.length_eq regular coherent, if_pos hup, List.length_take,
      Nat.min_eq_left (Nat.sub_le _ _)]

/-- A pointer that leads somewhere in a schema makes no mistake in a document. -/
theorem exists_resolve (regular : Schema.Regular schema) (coherent : d.Coherent schema)
    {pointer : String} {found : Option (List Slot)} (h : LinkedAt schema d path slots)
    (hschema : Pointer.resolveText schema.slotNavigation slots pointer = .ok found) :
    ∃ found, Pointer.resolveText d.value.navigation path pointer = .ok found := by
  obtain ⟨parsed, hparsed, hschema⟩ := bind_eq_ok.1 hschema
  obtain ⟨front, hfront, -⟩ := Pointer.resolve_eq_ok_iff.1 hschema
  obtain ⟨-, hstart⟩ := h.start?_eq regular coherent hfront
  exact ⟨_, bind_eq_ok.2 ⟨parsed, hparsed, Pointer.resolve_eq_ok_iff.2 ⟨_, hstart, rfl⟩⟩⟩

/-- A pointer that leads to a linked node names its schema, if it names any. -/
theorem resolve_eq (regular : Schema.Regular schema) (coherent : d.Coherent schema)
    {pointer : String} {found : List Slot} (h : LinkedAt schema d path slots)
    (h' : LinkedAt schema d path' slots')
    (hdata : Pointer.resolveText d.value.navigation path pointer = .ok (some path'))
    (hschema : Pointer.resolveText schema.slotNavigation slots pointer = .ok (some found)) :
    found = slots' := by
  obtain ⟨parsed, hparsed, hdata⟩ := bind_eq_ok.1 hdata
  obtain ⟨parsed', hparsed', hschema⟩ := bind_eq_ok.1 hschema
  obtain rfl := Except.ok.inj (hparsed.symm.trans hparsed')
  obtain ⟨start, hstart, hdata⟩ := Pointer.resolve_eq_ok_iff.1 hdata
  obtain ⟨front, hfront, hschema⟩ := Pointer.resolve_eq_ok_iff.1 hschema
  obtain ⟨hpre, hstart'⟩ := h.start?_eq regular coherent hfront
  obtain rfl := Option.some.inj (hstart'.symm.trans hstart)
  have hlinked := h.take regular coherent front.length
  rw [← List.prefix_iff_eq_take.1 hpre] at hlinked
  exact hlinked.descend_eq regular coherent h' hdata hschema

end LinkedAt

theorem Has.parent {p : Place} (h : d.Has p) : d.Has (p.parent?.getD d.rootPlace) ∧
    (p.parent?.getD d.rootPlace).path = p.path.dropLast := by
  obtain ⟨n, above⟩ := p
  cases above with
  | nil => exact ⟨.root d, rfl⟩
  | cons step above =>
    rw [Place.path_mk_cons, List.dropLast_concat]
    exact ⟨h.above_cons.1, rfl⟩

/-- The place that a pointer names as seen from the container of a node. -/
def target (d : Document) (reader : Place) (pointer : String) : Except Pointer.Error (Option Place) :=
  d.resolve (reader.parent?.getD d.rootPlace) pointer

theorem Has.target_path {reader : Place} (h : d.Has reader) (pointer : String) :
    (d.target reader pointer).map (Option.map Place.path) =
      Pointer.resolveText d.value.navigation reader.path.dropLast pointer := by
  obtain ⟨hparent, hpath⟩ := h.parent
  rw [← hpath, ← resolve_path hparent]
  rfl

theorem Has.target_has {reader target : Place} {pointer : String} (h : d.Has reader)
    (htarget : d.target reader pointer = .ok (some target)) : d.Has target :=
  resolve_has h.parent.1 htarget

theorem Has.target_eq_none {reader : Place} {pointer : String} (h : d.Has reader)
    (hnone : Pointer.resolveText d.value.navigation reader.path.dropLast pointer = .ok none) :
    d.target reader pointer = .ok none := by
  rw [← h.target_path] at hnone
  obtain ⟨found, hfound, hnone⟩ := map_eq_ok.1 hnone
  rw [hfound, Option.map_eq_none_iff.1 hnone]

theorem Has.exists_target {reader : Place} {pointer : String} (h : d.Has reader)
    (hsome : Pointer.resolveText d.value.navigation reader.path.dropLast pointer = .ok (some path)) :
    ∃ target, d.target reader pointer = .ok (some target) ∧ d.Has target ∧ target.path = path := by
  rw [← h.target_path] at hsome
  obtain ⟨found, hfound, hsome⟩ := map_eq_ok.1 hsome
  obtain ⟨target, rfl, hpath⟩ := Option.map_eq_some_iff.1 hsome
  exact ⟨target, hfound, h.target_has hfound, hpath⟩

theorem Has.target_eq_some {reader target : Place} {pointer : String} (hreader : d.Has reader)
    (htarget : d.Has target)
    (h : Pointer.resolveText d.value.navigation reader.path.dropLast pointer =
      .ok (some target.path)) : d.target reader pointer = .ok (some target) := by
  obtain ⟨found, hfound, hhas, hpath⟩ := hreader.exists_target h
  rw [hfound, hhas.eq_of_path_eq htarget hpath]

/-- Whether an expression of a node's schema mentions a pointer that leads from the container of the
node to another one. -/
def Reads (d : Document) (reader target : Place) : Prop :=
  ∃ s, reader.node.schema? = some s ∧ ∃ keyword, ∃ pointer ∈ s.label.pointers keyword,
    d.target reader pointer = .ok (some target)

/-- What a node reads, its schema has named when it was compiled. -/
theorem Reads.exists_pointer (wired : Schema.Wired schema) (coherent : d.Coherent schema)
    {reader target : Place} (hreader : d.Has reader) (htarget : d.Has target) {s t : Schema}
    (hs : reader.node.schema? = some s) (ht : target.node.schema? = some t)
    (reads : d.Reads reader target) :
    ∃ keyword, ∃ pointer ∈ s.label.pointers keyword,
      Pointer.resolveText d.value.navigation reader.path.dropLast pointer = .ok (some target.path) ∧
        Pointer.resolveText schema.slotNavigation s.label.path.dropLast pointer =
          .ok (some t.label.path) := by
  have regular := wired.toRegular
  obtain ⟨s', hs', keyword, pointer, hpointer, hread⟩ := reads
  obtain rfl := Option.some.inj (hs.symm.trans hs')
  obtain ⟨hlinked, hsub⟩ := coherent.linkedAt regular hreader hs
  obtain ⟨hlinked', -⟩ := coherent.linkedAt regular htarget ht
  have hdata := hreader.target_path pointer
  rw [hread] at hdata
  obtain ⟨found, hfound⟩ := wired.named hsub hpointer
  obtain rfl := (hlinked.dropLast regular coherent).resolve_eq regular coherent hlinked' hdata.symm
    hfound
  exact ⟨keyword, pointer, hpointer, hdata.symm, hfound⟩

/-- A schema knows of those whose expressions read its nodes. -/
theorem Reads.mem_observers (wired : Schema.Wired schema) (coherent : d.Coherent schema)
    {reader target : Place} (hreader : d.Has reader) (htarget : d.Has target) {s t : Schema}
    (hs : reader.node.schema? = some s) (ht : target.node.schema? = some t)
    (reads : d.Reads reader target) : s.label.tokens ∈ t.label.observers := by
  obtain ⟨-, hsub⟩ := coherent.linkedAt wired.toRegular hreader hs
  obtain ⟨-, hsub'⟩ := coherent.linkedAt wired.toRegular htarget ht
  obtain ⟨keyword, pointer, hpointer, -, hfound⟩ :=
    reads.exists_pointer wired coherent hreader htarget hs ht
  exact (wired.observed hsub').2 ⟨s.label.path, s, hsub, rfl, keyword, pointer, hpointer, hfound⟩

end Document

end FormSchema
