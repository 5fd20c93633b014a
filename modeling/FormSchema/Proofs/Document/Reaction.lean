import FormSchema.Proofs.Document.Levels
import FormSchema.Proofs.Document.Readers
import FormSchema.Proofs.Expr.Dependence

/-!
What a change of one node means for the values of keywords elsewhere.  A keyword has another value
only if one of its pointers reads another one; either the node is then among those that have to be
evaluated again, or the way of the pointer tells why it goes unnoticed.
-/

namespace FormSchema

/-- Where a pointer starts depends on the path alone. -/
theorem Json.resolve_navigation (base : List Key) (parsed : Pointer) :
    (∃ e, ∀ v : Json, Pointer.resolve v.navigation base parsed = .error e) ∨
      ∃ start, start <+: base ∧ ∀ v : Json, Pointer.resolve v.navigation base parsed =
        .ok (Pointer.descend v.navigation start parsed.tokens) := by
  cases parsed with
  | absolute tokens => exact .inr ⟨[], List.nil_prefix, fun _ => rfl⟩
  | relative up tokens =>
    have hstart := Pointer.getElem?_cons_above base up
    cases hfound : (base :: Pointer.above base)[up]? with
    | none =>
      refine .inl ⟨.ancestorOverflow (Pointer.text (.relative up tokens)) up
        (Pointer.above base).length, fun v => ?_⟩
      have hnone : (base :: v.navigation.ancestors base)[up]? = none := hfound
      rw [Pointer.resolve, hnone]
      rfl
    | some start =>
      rw [hfound, eq_comm, Option.ite_none_right_eq_some] at hstart
      refine .inr ⟨start, Option.some.inj hstart.2 ▸ List.take_prefix _ _, fun v => ?_⟩
      exact Pointer.resolve_eq_ok_iff.2 ⟨start, hfound, rfl⟩

namespace Document

/-- Whether a document is like another one but for the nodes at the end of a path and below: nodes
beside it are the same, and those on the way to it keep all but the child that it goes through. -/
structure SameBeside (path : List Key) (d d' : Document) : Prop where
  skin : ∀ {q}, ¬ path <+: q → (d'.root.at? q).map Node.skin = (d.root.at? q).map Node.skin
  apart : ∀ {q}, ¬ path <+: q → ¬ q <+: path → d'.root.at? q = d.root.at? q

namespace SameBeside

variable {d d' d'' : Document} {path q : List Key} {p : Place}

theorem refl (path : List Key) (d : Document) : SameBeside path d d where
  skin _ := rfl
  apart _ _ := rfl

theorem trans (h : SameBeside path d d') (h' : SameBeside path d' d'') : SameBeside path d d'' where
  skin below := (h'.skin below).trans (h.skin below)
  apart below above := (h'.apart below above).trans (h.apart below above)

theorem setAt (h : d.Has p) (m : Node) : SameBeside p.path d (d.setAt p m) where
  skin below := skin_setAt h m below
  apart below above := at?_setAt_apart h m below above

theorem relink (h : d.Sound) (hp : d.Has p) (c : Compiled) :
    SameBeside p.path d (d.relink c p.id).1 := by
  rcases relink_cases h hp c with ⟨variants, -, heq⟩ | ⟨-, -, heq⟩ | ⟨-, -, heq⟩
  · exact heq ▸ setAt hp _
  · exact heq ▸ setAt hp _
  · rw [heq]
    exact refl _ _

theorem set {c : Compiled} {v : Json} {out : Document × List Nat} (h : d.Intact c.schema)
    (hv : v.keysDistinct = true) (hp : d.Has p) (hok : d.set c p.id v = .ok out) :
    SameBeside p.path d out.1 ∧ ∃ p', out.1.Has p' ∧ p'.path = p.path ∧ p'.id = p.id := by
  obtain ⟨p', hp', hid, -, hout, -⟩ := set_eq_ok h.sound hok
  obtain rfl := h.sound.eq_of_id_eq hp' hp hid
  have hfresh : SameBeside p'.path d (d.fresh p' v) := ⟨skin_setAt hp _, at?_setAt_apart hp _⟩
  obtain ⟨q, hq, hpath, hid⟩ := hp.exists_fresh v
  have hsound := (h.fresh hp hv).sound
  obtain ⟨top, htop, htoppath, htopid⟩ := exists_relinked hsound hq c
  rw [hout, ← hid, ← hpath]
  exact ⟨(hpath ▸ hfresh).trans (relink hsound hq c), top, htop, htoppath, htopid⟩

/-- What lies beside the path stays where it is and keeps its identity and its schema. -/
theorem exists_place (h : SameBeside path d d') (hp : d.Has p) (below : ¬ path <+: p.path) :
    ∃ p', d'.Has p' ∧ p'.path = p.path ∧ p'.node.tag = p.node.tag := by
  have hskin := h.skin below
  rw [hp.at?_path, Option.map_some, Option.map_eq_some_iff] at hskin
  obtain ⟨n, hn, hskin⟩ := hskin
  obtain ⟨p', hp', hpath, rfl⟩ := Has.exists_of_at? hn
  exact ⟨p', hp', hpath, congrArg Node.Skin.tag hskin⟩

theorem at?_value (h : SameBeside path d d') (below : ¬ path <+: q) (above : ¬ q <+: path) :
    d'.value.at? q = d.value.at? q := by
  rw [value, value, Node.at?_value, Node.at?_value, h.apart below above]

end SameBeside

theorem step?_eq (d : Document) (path : List Key) (token : String) :
    d.value.step? path token = ((d.root.at? path).map Node.skin).bind fun skin =>
      (Key.ofToken? skin.kind token).bind fun key => if key ∈ skin.keys then some key else none := by
  rw [Json.step?, value, Node.at?_value]
  cases d.root.at? path with
  | none => rfl
  | some n =>
    rw [Option.map_some, Option.bind_some, ← Node.kind_eq]
    refine congrArg (Option.bind _) (funext fun key => ?_)
    rw [Node.get?_value]
    change _ = if key ∈ n.children.map (·.1) then some key else none
    by_cases hkey : key ∈ n.children.map (·.1)
    · obtain ⟨child, hchild⟩ := Option.isSome_iff_exists.1 ((n.isSome_get?_iff key).2 hkey)
      rw [hchild, if_pos hkey]
      rfl
    · have hnone : n.get? key = none :=
        Option.not_isSome_iff_eq_none.1 fun h => hkey ((n.isSome_get?_iff key).1 h)
      rw [hnone, if_neg hkey]
      rfl

namespace SameBeside

variable {d d' : Document} {path start base : List Key}

theorem step? (h : SameBeside path d d') (below : ¬ path <+: start) (token : String) :
    d'.value.step? start token = d.value.step? start token := by
  rw [step?_eq, step?_eq, h.skin below]

/-- A way down from beside a changed node stays beside it and ends in both documents alike, or it
leads to the node if it leads anywhere. -/
theorem descend_cases (h : SameBeside path d d') (below : ¬ path <+: start)
    (tokens : List String) :
    (∃ found, ¬ path <+: found ∧
        Pointer.descend d.value.navigation start tokens = some found ∧
          Pointer.descend d'.value.navigation start tokens = some found) ∨
      (∀ found, Pointer.descend d.value.navigation start tokens = some found → path <+: found) ∧
        ∀ found, Pointer.descend d'.value.navigation start tokens = some found → path <+: found := by
  induction tokens generalizing start with
  | nil => exact .inl ⟨start, below, rfl, rfl⟩
  | cons token tokens ih =>
    have hstep := h.step? below token
    simp only [Pointer.descend_cons, Json.navigation, Pointer.pathNavigation] at ih ⊢
    rw [hstep]
    cases d.value.step? start token with
    | none => exact .inr ⟨nofun, nofun⟩
    | some key =>
      by_cases hnext : path <+: start ++ [key]
      · exact .inr ⟨fun found hfound => hnext.trans (Pointer.prefix_of_descend hfound),
          fun found hfound => hnext.trans (Pointer.prefix_of_descend hfound)⟩
      · exact ih hnext

/-- The same of a pointer. -/
theorem resolve_cases (h : SameBeside path d d') (below : ¬ path <+: base) (pointer : String) :
    (Pointer.resolveText d'.value.navigation base pointer =
        Pointer.resolveText d.value.navigation base pointer ∧
      ∀ q, Pointer.resolveText d.value.navigation base pointer = .ok (some q) → ¬ path <+: q) ∨
      ∃ found found', Pointer.resolveText d.value.navigation base pointer = .ok found ∧
        Pointer.resolveText d'.value.navigation base pointer = .ok found' ∧
          (∀ q, found = some q → path <+: q) ∧ ∀ q, found' = some q → path <+: q := by
  rw [Pointer.resolveText, Pointer.resolveText]
  cases Pointer.parse pointer with
  | error e =>
    refine .inl ⟨rfl, fun q hq => ?_⟩
    cases hq
  | ok parsed =>
    change (Pointer.resolve _ base parsed = Pointer.resolve _ base parsed ∧
      ∀ q, Pointer.resolve _ base parsed = .ok (some q) → ¬ path <+: q) ∨
        ∃ found found', Pointer.resolve _ base parsed = .ok found ∧
          Pointer.resolve _ base parsed = .ok found' ∧ _
    rcases Json.resolve_navigation base parsed with ⟨e, he⟩ | ⟨start, hstart, hresolve⟩
    · rw [he, he]
      refine .inl ⟨rfl, fun q hq => ?_⟩
      cases hq
    · rw [hresolve, hresolve]
      rcases h.descend_cases (fun hpre => below (hpre.trans hstart)) parsed.tokens with
        ⟨found, hfound, hd, hd'⟩ | hunder
      · rw [hd, hd']
        refine .inl ⟨rfl, fun q hq => ?_⟩
        rwa [← Option.some.inj (Except.ok.inj hq)]
      · exact .inr ⟨_, _, rfl, rfl, hunder⟩

end SameBeside

end Document

/-- Whether an evaluator reads data by pointers alone, and no text in it can be mistaken for one. -/
structure Evaluator.ByPointer (e : Evaluator) : Prop where
  value : .value ∉ e.names
  parent : .parent ∉ e.names
  plain : PlainTexts e.atoms

/-- Where data is read by pointers alone, another value means that one of them reads another one. -/
theorem Json.exists_deref_ne {e : Evaluator} (byPointer : e.ByPointer) {v v' : Json}
    {userData : Json} {schema : Attributes} {path : List Key}
    (h : e.eval (v.scope userData schema path) ≠ e.eval (v'.scope userData schema path)) :
    ∃ pointer ∈ e.derefs, v.deref path.dropLast pointer ≠ v'.deref path.dropLast pointer := by
  by_contra hall
  refine h (e.eval_congr ⟨fun n hn => ?_, fun pointer hpointer => ?_⟩)
  · cases n with
    | value => exact absurd hn byPointer.value
    | parent => exact absurd hn byPointer.parent
    | _ => rfl
  · by_contra hne
    exact hall ⟨pointer, hpointer, hne⟩

namespace Document

variable {schema s : Schema} {c : Compiled} {d d' : Document}
  {changed changed' reader reader' : Place} {pointer : String}

/-- Why a reader need not be evaluated again, though one of its pointers reads another value since
some node has changed. -/
inductive Unnoticed (d d' : Document) (changed changed' reader reader' : Place) (s : Schema)
    (pointer : String) : Prop where
  /-- The pointer leads to a node that the changed one is a part of. -/
  | above {target : Place} (now : d'.target reader' pointer = .ok (some target))
      (covers : changed' ∈ target.subtree) (ne : target ≠ changed')
  /-- The pointer has led to the changed node or to a part of it, and leads nowhere any more. -/
  | gone {target : Place} (before : d.target reader pointer = .ok (some target))
      (covers : target ∈ changed.subtree) (now : d'.target reader' pointer = .ok none)
  /-- The pointer leads to the changed node or to a part of it that no schema describes. -/
  | unlinked {target : Place} (now : d'.target reader' pointer = .ok (some target))
      (covers : target ∈ changed'.subtree) (unlinked : target.node.schema? = none)
  /-- The pointer leads to the changed node or to a part of it that lies in other items. -/
  | elsewhere {target : Place} {t : Schema} (now : d'.target reader' pointer = .ok (some target))
      (covers : target ∈ changed'.subtree) (linked : target.node.schema? = some t)
      (elsewhere : ¬ Slot.Reaches t.label.path target.path s.label.path reader'.path)

/-- If a pointer reads another value, the reader depends on a part of the changed node, or it goes
unnoticed. -/
theorem SameBeside.dependent_or_unnoticed (wired : Schema.Wired schema)
    (h' : d'.Intact schema) (same : SameBeside changed.path d d') (hchanged : d.Has changed)
    (hchanged' : d'.Has changed') (hpath : changed'.path = changed.path) (hreader : d.Has reader)
    (hreader' : d'.Has reader') (hreaderPath : reader'.path = reader.path)
    (outside : ¬ changed.path <+: reader.path) (hs : reader'.node.schema? = some s)
    (short : ∀ p, d'.Has p → ∀ key ∈ p.path, key.IsShort) {keyword : Keyword}
    (hpointer : pointer ∈ s.label.pointers keyword)
    (hne : d.value.deref reader.path.dropLast pointer ≠
      d'.value.deref reader.path.dropLast pointer) :
    (∃ target ∈ changed'.subtree, reader'.id ∈ d'.dependents target) ∨
      Unnoticed d d' changed changed' reader reader' s pointer := by
  have below : ¬ changed.path <+: reader.path.dropLast :=
    fun hpre => outside (hpre.trans (List.dropLast_prefix _))
  rw [Json.deref, Json.deref] at hne
  rcases same.resolve_cases below pointer with
    ⟨heq, hbeside⟩ | ⟨found, found', hd, hd', hunder, hunder'⟩
  · -- The pointer leads to the same path as before, so that the value on the way has changed.
    rw [heq] at hne
    cases hresolve : Pointer.resolveText d.value.navigation reader.path.dropLast pointer with
    | error e =>
      rw [hresolve] at hne
      exact absurd rfl hne
    | ok found =>
      cases found with
      | none =>
        rw [hresolve] at hne
        exact absurd rfl hne
      | some q =>
        have hq := hbeside q hresolve
        rw [hresolve, ← hreaderPath] at heq
        obtain ⟨target, htarget, htargetHas, rfl⟩ := hreader'.exists_target heq
        by_cases habove : target.path <+: changed.path
        · refine .inr (.above htarget ?_ ?_)
          · exact ((htargetHas.covers_iff hchanged').2 (hpath ▸ habove)).mem_subtree
          · rintro rfl
            exact hq (hpath ▸ List.prefix_rfl)
        · rw [hresolve] at hne
          exact absurd (congrArg Except.ok (same.at?_value hq habove).symm) hne
  · rw [hd, hd'] at hne
    rw [← hreaderPath] at hd'
    cases found' with
    | none =>
      have hnow := hreader'.target_eq_none hd'
      cases found with
      | none => exact absurd rfl hne
      | some q =>
        obtain ⟨target, htarget, htargetHas, rfl⟩ := hreader.exists_target hd
        refine .inr (.gone htarget ?_ hnow)
        exact ((hchanged.covers_iff htargetHas).2 (hunder _ rfl)).mem_subtree
    | some q =>
      obtain ⟨target, htarget, htargetHas, rfl⟩ := hreader'.exists_target hd'
      have hcovers : target ∈ changed'.subtree :=
        ((hchanged'.covers_iff htargetHas).2 (hpath ▸ hunder' _ rfl)).mem_subtree
      cases ht : target.node.schema? with
      | none => exact .inr (.unlinked htarget hcovers ht)
      | some t =>
        by_cases hreaches : Slot.Reaches t.label.path target.path s.label.path reader'.path
        · refine .inl ⟨target, hcovers, ?_⟩
          have hreads : d'.Reads reader' target := ⟨s, hs, keyword, pointer, hpointer, htarget⟩
          rw [h'.mem_dependents_iff wired hreader' htargetHas hs ht (short target htargetHas)]
          exact ⟨hreads.mem_observers wired h'.coherent hreader' htargetHas hs ht, hreaches⟩
        · exact .inr (.elsewhere htarget hcovers ht hreaches)

theorem mem_affected_iff (h : d.Sound) (hp : d.Has changed) {id : Nat} :
    id ∈ d.affected changed.id ↔ ∃ target ∈ changed.subtree, id ∈ d.dependents target := by
  have hfind : d.find? changed.id = some changed := h.find?_eq_some_iff.2 ⟨hp, rfl⟩
  rw [affected, hfind]
  simp only [List.mem_eraseDups, List.mem_flatMap, Place.mem_breadthFirst]

/-- Whether a pointer reads another value from a node in one document than in another one. -/
def Rereads (d d' : Document) (reader reader' : Place) (pointer : String) : Prop :=
  d.deref (reader.parent?.getD d.rootPlace) pointer ≠
    d'.deref (reader'.parent?.getD d'.rootPlace) pointer

theorem rereads_iff (hreader : d.Has reader) (hreader' : d'.Has reader')
    (hpath : reader'.path = reader.path) : Rereads d d' reader reader' pointer ↔
      d.value.deref reader.path.dropLast pointer ≠ d'.value.deref reader.path.dropLast pointer := by
  obtain ⟨hparent, hparentPath⟩ := hreader.parent
  obtain ⟨hparent', hparentPath'⟩ := hreader'.parent
  rw [Rereads, deref_eq hparent, deref_eq hparent', hparentPath, hparentPath', hpath]

/-- If a keyword that reads data by pointers alone has another value at a node since another node
has been set, then one of its pointers reads another value; and the node is reported as affected,
unless each pointer that does goes unnoticed. -/
theorem mem_affected_or_unnoticed {settings : Settings} {raw : Json} {data : Option Json}
    {value : ProperJson} {affected : List Nat} {userData : Json} {keyword : Keyword}
    (distinct : raw.keysDistinct = true) (compiled : Compilation.run settings raw data = .ok c)
    (valid : c.problems = []) (reachable : Reachable c d) (hchanged : changed ∈ d.places)
    (hset : d.set c changed.id value.1 = .ok (d', affected)) (addressable : d'.Addressable)
    (hchanged' : changed' ∈ d'.places) (hid : changed'.id = changed.id)
    (hreader : reader ∈ d.places) (outside : reader ∉ changed.subtree)
    (hreader' : reader' ∈ d'.places) (hreaderId : reader'.id = reader.id)
    (hs : reader.node.schema? = some s) (byPointer : (s.label.evaluator keyword).ByPointer)
    (hne : d.evaluate userData reader keyword ≠ d'.evaluate userData reader' keyword) :
    (∃ pointer ∈ s.label.pointers keyword, Rereads d d' reader reader' pointer) ∧
      (reader.id ∈ affected ∨
        ∀ pointer ∈ s.label.pointers keyword, Rereads d d' reader reader' pointer →
          Unnoticed d d' changed changed' reader reader' s pointer) := by
  have wired := Compilation.wired_of_run distinct compiled valid
  have regular := wired.toRegular
  have h := reachable.intact regular
  have hstep : d.apply c (.set changed.id value) = .ok d' := by
    rw [Document.apply, hset]
    rfl
  have h' := (reachable.change _ hstep).intact regular
  have hchanged := h.sound.mem_places_iff.1 hchanged
  have hchanged' := h'.sound.mem_places_iff.1 hchanged'
  have hreader := h.sound.mem_places_iff.1 hreader
  have hreader' := h'.sound.mem_places_iff.1 hreader'
  have short (p : Place) (hp : d'.Has p) := addressable p (h'.sound.mem_places_iff.2 hp)
  -- Both nodes stay where they are, and the reader keeps its schema.
  obtain ⟨same, top, htop, hpath, htopId⟩ := SameBeside.set h value.2 hchanged hset
  obtain rfl := h'.sound.eq_of_id_eq htop hchanged' (htopId.trans hid.symm)
  have apart : ¬ changed.path <+: reader.path :=
    fun hpre => outside ((hchanged.covers_iff hreader).2 hpre).mem_subtree
  obtain ⟨r, hr, hreaderPath, htag⟩ := same.exists_place hreader apart
  obtain rfl := h'.sound.eq_of_id_eq hr hreader' ((congrArg Tag.id htag).trans hreaderId.symm)
  have hs' : r.node.schema? = some s := (congrArg Tag.schema htag).trans hs
  have hrereads (pointer : String) :
      Rereads d d' reader r pointer ↔
        d.value.deref reader.path.dropLast pointer ≠ d'.value.deref reader.path.dropLast pointer :=
    rereads_iff hreader hr hreaderPath
  constructor
  · simp only [evaluate, hs, hs'] at hne
    rw [evaluateAs_eq hreader, evaluateAs_eq hreader', hreaderPath] at hne
    obtain ⟨pointer, hderef, hne⟩ := Json.exists_deref_ne byPointer hne
    obtain ⟨-, hsub⟩ := h.coherent.linkedAt regular hreader hs
    obtain ⟨source, hsource, hmentioned⟩ :=
      wired.mentioned hsub keyword byPointer.plain pointer hderef
    refine ⟨pointer, ?_, (hrereads pointer).2 hne⟩
    rw [Attributes.pointers, hsource]
    exact hmentioned
  · have hcases (pointer : String) (hpointer : pointer ∈ s.label.pointers keyword)
        (hne : Rereads d d' reader r pointer) :=
      same.dependent_or_unnoticed wired h' hchanged hchanged' hpath hreader hreader' hreaderPath
        apart hs' short hpointer ((hrereads pointer).1 hne)
    by_cases hnoticed : ∃ target ∈ top.subtree, r.id ∈ d'.dependents target
    · obtain ⟨-, -, -, -, -, haffected⟩ := set_eq_ok h.sound hset
      have haffected : affected = d'.affected changed.id := haffected
      left
      rw [haffected, ← hid, mem_affected_iff h'.sound hchanged', ← hreaderId]
      exact hnoticed
    · right
      exact fun pointer hpointer hne => (hcases pointer hpointer hne).resolve_left hnoticed

end Document

theorem Evaluator.byPointer_constant (flavor : Flavor) (value : Json) :
    (constant flavor value).ByPointer :=
  ⟨List.not_mem_nil, List.not_mem_nil, fun _ h => absurd h List.not_mem_nil⟩

namespace Document

/-! The node that the one reader reads goes when its container is set to another value. -/

namespace Nested

def changed : Place :=
  ⟨.record ⟨1, some (.node holder [(.property "x", .node known [])])⟩
    [("x", .leaf ⟨2, some (.node known [])⟩ (.str "u"))], [(.name "a", document.root)]⟩

def after : Document :=
  ⟨.record ⟨0, some schema⟩ [("a", .record changed.node.tag []), ("b", reader.node)], 4⟩

def changed' : Place := ⟨.record changed.node.tag [], [(.name "a", after.root)]⟩

def reader' : Place := ⟨reader.node, [(.name "b", after.root)]⟩

theorem set_eq : document.set compiled changed.id (.obj []) = .ok (after, []) := rfl

theorem places_after : after.places = [after.rootPlace, changed', reader'] := rfl

theorem changed_mem : changed ∈ document.places := .tail _ (.head _)

theorem outside : reader ∉ changed.subtree := by
  intro h
  have hid : reader.id ∈ changed.subtree.map Place.id := List.mem_map_of_mem h
  exact absurd hid (by decide +kernel)

theorem evaluate_ne :
    document.evaluate .null reader .visible ≠ after.evaluate .null reader' .visible := by
  have before : document.evaluate .null reader .visible = .bool true := rfl
  have now : after.evaluate .null reader' .visible = .bool false := rfl
  rw [before, now]
  exact nofun

theorem byPointer_visible : visible.ByPointer where
  value := List.not_mem_nil
  parent := List.not_mem_nil
  plain s hs := by
    have hatoms : visible.atoms = [.pointer "0/a/x", .text "u"] := rfl
    obtain rfl : s = "u" := by simpa [hatoms] using hs
    decide

theorem byPointer (p : Tree.Place Attributes) (hp : p ∈ compiled.schema.places) (keyword : Keyword) :
    (p.label.evaluator keyword).ByPointer := by
  have hlabel : p.label ∈ [top, holder, known, shown] := List.mem_map_of_mem hp
  simp only [List.mem_cons, List.not_mem_nil, or_false] at hlabel
  rcases hlabel with h | h | h | h
  all_goals rw [h]
  · exact Evaluator.byPointer_constant _ _
  · exact Evaluator.byPointer_constant _ _
  · exact Evaluator.byPointer_constant _ _
  · cases keyword with
    | visible => exact byPointer_visible
    | _ => exact Evaluator.byPointer_constant _ _

end Nested

/-- A keyword can have another value at a node that is not reported as affected, even where all
expressions read data by pointers alone. -/
theorem exists_unaffected_reader :
    Compilation.run {} Nested.raw none = .ok Nested.compiled ∧ Nested.compiled.problems = [] ∧
      (∀ p ∈ Nested.compiled.schema.places, ∀ keyword, (p.label.evaluator keyword).ByPointer) ∧
      ((ofJson Nested.value.1).link Nested.compiled).2 = [] ∧
      ∃ d d' affected, d = ((ofJson Nested.value.1).link Nested.compiled).1 ∧
        ∃ changed ∈ d.places, d.set Nested.compiled changed.id (.obj []) = .ok (d', affected) ∧
          ∃ reader ∈ d.places, reader ∉ changed.subtree ∧
            ∃ reader' ∈ d'.places, reader'.id = reader.id ∧
              reader.node.schema?.isSome ∧ reader'.node.schema? = reader.node.schema? ∧
              d.evaluate .null reader .visible ≠ d'.evaluate .null reader' .visible ∧
              reader.id ∉ affected :=
  ⟨Nested.run_eq, rfl, Nested.byPointer, by decide +kernel, Nested.document, Nested.after, [], rfl,
    Nested.changed, Nested.changed_mem, Nested.set_eq, Nested.reader, Nested.reader_mem,
    Nested.outside, Nested.reader', by simp [Nested.places_after], rfl, rfl, rfl,
    Nested.evaluate_ne, List.not_mem_nil⟩

/-! The node that the one reader reads is set itself. -/

namespace Nested

def written : Node := .leaf ⟨2, some (.node known [])⟩ (.str "v")

def rewritten : Document :=
  ⟨.record ⟨0, some schema⟩ [("a", .record changed.node.tag [("x", written)]), ("b", reader.node)],
    4⟩

def target' : Place :=
  ⟨written, [(.name "x", .record changed.node.tag [("x", written)]), (.name "a", rewritten.root)]⟩

def still : Place := ⟨reader.node, [(.name "b", rewritten.root)]⟩

theorem rewrite_eq : document.set compiled target.id (.str "v") = .ok (rewritten, [3]) := rfl

theorem target'_mem : target' ∈ rewritten.places := .tail _ (.tail _ (.head _))

theorem still_mem : still ∈ rewritten.places := .tail _ (.tail _ (.tail _ (.head _)))

theorem not_mem_subtree_target : reader ∉ target.subtree := by
  intro h
  have hid : reader.id ∈ target.subtree.map Place.id := List.mem_map_of_mem h
  exact absurd hid (by decide +kernel)

theorem evaluate_ne_still :
    document.evaluate .null reader .visible ≠ rewritten.evaluate .null still .visible := by
  have before : document.evaluate .null reader .visible = .bool true := rfl
  have now : rewritten.evaluate .null still .visible = .bool false := rfl
  rw [before, now]
  exact nofun

theorem target_eq : rewritten.target still "0/a/x" = .ok (some target') := rfl

/-- The pointer leads to the node that has been set, and the two are seen from each other. -/
theorem not_unnoticed :
    ¬ Unnoticed document rewritten target target' reader still (.node shown []) "0/a/x" := by
  rintro (⟨now, -, ne⟩ | ⟨-, -, now⟩ | ⟨now, -, unlinked⟩ | ⟨now, -, linked, elsewhere⟩)
  · exact ne (Option.some.inj (Except.ok.inj (now.symm.trans target_eq)))
  · cases now.symm.trans target_eq
  · obtain rfl := Option.some.inj (Except.ok.inj (now.symm.trans target_eq))
    cases unlinked
  · obtain rfl := Option.some.inj (Except.ok.inj (now.symm.trans target_eq))
    obtain rfl := Option.some.inj linked
    exact elsewhere ((Slot.reaches_of_ne (by decide)).2 (by simp [Slot.Plain]))

end Nested

/-- The reader is reported when the node that it reads is set; it goes unnoticed when that node
vanishes from its container. -/
theorem mem_affected_or_unnoticed_nested :
    (∃ affected, Nested.document.set Nested.compiled Nested.target.id (.str "v") =
        .ok (Nested.rewritten, affected) ∧ Nested.reader.id ∈ affected) ∧
      ∀ pointer ∈ Nested.shown.pointers .visible,
        Rereads Nested.document Nested.after Nested.reader Nested.reader' pointer →
          Unnoticed Nested.document Nested.after Nested.changed Nested.changed' Nested.reader
            Nested.reader' (.node Nested.shown []) pointer := by
  have byPointer : (Nested.shown.evaluator .visible).ByPointer := Nested.byPointer_visible
  constructor
  · have hset : Nested.document.set Nested.compiled Nested.target.id
      (⟨.str "v", rfl⟩ : ProperJson).1 = .ok (Nested.rewritten, [3]) := Nested.rewrite_eq
    obtain ⟨⟨pointer, hpointer, hne⟩, hreported⟩ := mem_affected_or_unnoticed (by decide)
      Nested.run_eq rfl Nested.reachable Nested.target_mem hset (by decide +kernel)
      Nested.target'_mem rfl Nested.reader_mem Nested.not_mem_subtree_target Nested.still_mem rfl
      rfl byPointer Nested.evaluate_ne_still
    obtain rfl : pointer = "0/a/x" := by
      have hpointers : Nested.shown.pointers .visible = ["0/a/x"] := by decide +kernel
      exact List.mem_singleton.1 (hpointers ▸ hpointer)
    refine ⟨[3], Nested.rewrite_eq, hreported.resolve_right fun hall => ?_⟩
    exact Nested.not_unnoticed (hall _ hpointer hne)
  · have hset : Nested.document.set Nested.compiled Nested.changed.id
      (⟨.obj [], rfl⟩ : ProperJson).1 = .ok (Nested.after, []) := Nested.set_eq
    obtain ⟨-, hunnoticed⟩ := mem_affected_or_unnoticed (by decide) Nested.run_eq rfl
      Nested.reachable Nested.changed_mem hset (by decide +kernel)
      (by simp [Nested.places_after] : Nested.changed' ∈ Nested.after.places) rfl Nested.reader_mem
      Nested.outside (by simp [Nested.places_after] : Nested.reader' ∈ Nested.after.places) rfl rfl
      byPointer Nested.evaluate_ne
    exact hunnoticed.resolve_left List.not_mem_nil

end Document

end FormSchema
