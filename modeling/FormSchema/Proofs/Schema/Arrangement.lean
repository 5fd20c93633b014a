import FormSchema.Proofs.Schema.Observers
import FormSchema.Schema.Derivation
import Mathlib.Order.Bounds.Basic

/-!
The arrangement of properties.  Seats are sorted by three numbers, of which the first is that of the
first property of a tab and the second that of the first property of a group.  A seat that stands for
itself has its own number instead, and no two of these numbers are ever mistaken for each other: the
property with that number tells what it is the first of.  So the seats of a tab stand together, and so
do, inside a tab, the seats of a group.  The seats of a group outside all tabs do not.
-/

namespace FormSchema

section Sorted

variable {α : Type} {R : α → α → Prop} {p : α → Bool} {l : List α}

theorem filter_isPrefix (hp : ∀ a ∈ l, ∀ b ∈ l, R a b → p b = true → p a = true)
    (sorted : l.Pairwise R) : l.filter p <+: l := by
  induction l with
  | nil => simp
  | cons a l ih =>
    obtain ⟨ha, hl⟩ := List.pairwise_cons.1 sorted
    by_cases h : p a = true
    · have := ih (fun b hb c hc => hp b (by simp [hb]) c (by simp [hc])) hl
      simpa [h] using this
    · have hnone : l.filter p = [] := by
        refine List.filter_eq_nil_iff.2 fun b hb hb' => h ?_
        exact hp a (by simp) b (by simp [hb]) (ha b hb) hb'
      simp [h, hnone]

/-- What is chosen of a sorted list stands together if it leaves out nothing between. -/
theorem filter_isInfix (between : ∀ a ∈ l, ∀ b ∈ l, ∀ c ∈ l, R a b → R b c → p a = true → p c = true →
    p b = true) (sorted : l.Pairwise R) : l.filter p <:+: l := by
  induction l with
  | nil => simp
  | cons a l ih =>
    obtain ⟨ha, hl⟩ := List.pairwise_cons.1 sorted
    by_cases h : p a = true
    · have hprefix : l.filter p <+: l := by
        refine filter_isPrefix (fun b hb c hc hbc hc' => ?_) hl
        exact between a (by simp) b (by simp [hb]) c (by simp [hc]) (ha b hb) hbc h hc'
      have : a :: l.filter p <+: a :: l := by simpa using hprefix
      simpa [h] using this.isInfix
    · have := ih (fun b hb c hc d hd => between b (by simp [hb]) c (by simp [hc]) d (by simp [hd])) hl
      simpa [h] using this.trans (List.suffix_cons a l).isInfix

/-- What stands between two that are chosen is chosen, if the chosen stand together. -/
theorem of_filter_isInfix {a b c : α} (together : l.filter p <:+: l) (sorted : l.Pairwise R)
    (ha : a ∈ l) (hb : b ∈ l) (hc : c ∈ l) (hpa : p a = true) (hpc : p c = true)
    (hab : ¬ R b a) (hbc : ¬ R c b) : p b = true := by
  obtain ⟨x, y, hl⟩ := together
  have ha' : a ∈ l.filter p := List.mem_filter.2 ⟨ha, hpa⟩
  have hc' : c ∈ l.filter p := List.mem_filter.2 ⟨hc, hpc⟩
  rw [← hl] at sorted hb
  obtain ⟨hfront, -, hback⟩ := List.pairwise_append.1 sorted
  have hbefore := (List.pairwise_append.1 hfront).2.2
  rcases List.mem_append.1 hb with hb | hb
  · rcases List.mem_append.1 hb with hb | hb
    · exact absurd (hbefore b hb a ha') hab
    · exact (List.mem_filter.1 hb).2
  · exact absurd (hback c (List.mem_append_right _ hc') b hb) hbc

end Sorted

namespace Seat

variable {all : List Declaration} {s u v : Seat}

/-- The first number that seats are sorted by. -/
def tabPart (s : Seat) : Nat := s.tabNumber.getD s.number

/-- The second number that seats are sorted by. -/
def groupPart (s : Seat) : Nat := s.groupNumber.getD s.number

theorem before_iff : before s u = true ↔
    s.tabPart < u.tabPart ∨ s.tabPart = u.tabPart ∧
      (s.groupPart < u.groupPart ∨ s.groupPart = u.groupPart ∧ s.number ≤ u.number) := by
  change (decide (s.tabPart < u.tabPart) || (s.tabPart == u.tabPart &&
    (decide (s.groupPart < u.groupPart) || (s.groupPart == u.groupPart &&
      decide (s.number ≤ u.number))))) = true ↔ _
  simp

theorem pairwise_before : (arrange all).Pairwise fun s u => before s u = true := by
  apply List.pairwise_mergeSort
  · intro s u v
    simp only [before_iff]
    omega
  · intro s u
    rw [Bool.or_eq_true, before_iff, before_iff]
    omega

theorem arrange_perm : (arrange all).Perm (all.mapIdx (ofDeclaration all)) := List.mergeSort_perm _ _

theorem mem_arrange_iff :
    s ∈ arrange all ↔ ∃ d, all[s.number]? = some d ∧ ofDeclaration all s.number d = s := by
  rw [arrange_perm.mem_iff, List.mem_mapIdx]
  constructor
  · rintro ⟨n, hn, rfl⟩
    exact ⟨all[n], List.getElem?_eq_getElem hn, rfl⟩
  · rintro ⟨d, hd, hs⟩
    obtain ⟨hn, rfl⟩ := List.getElem?_eq_some_iff.1 hd
    exact ⟨s.number, hn, hs⟩

theorem map_number_arrange : ((arrange all).map number).Perm (List.range all.length) := by
  refine (arrange_perm.map number).trans (.of_eq ?_)
  refine List.ext_getElem (by simp) fun n hn hn' => ?_
  simp [ofDeclaration]

theorem eq_of_number_eq (hs : s ∈ arrange all) (hu : u ∈ arrange all) (h : s.number = u.number) :
    s = u := by
  obtain ⟨d, hd, hs⟩ := mem_arrange_iff.1 hs
  obtain ⟨e, he, hu⟩ := mem_arrange_iff.1 hu
  rw [h, he] at hd
  rw [← hs, ← hu, h, Option.some.inj hd]

/-- Each seat stands before those that follow it, and has another number. -/
theorem pairwise_arrange :
    (arrange all).Pairwise fun s u => before s u = true ∧ s.number ≠ u.number := by
  refine pairwise_before.and (List.pairwise_map.1 ?_)
  exact (map_number_arrange.nodup_iff.2 List.nodup_range)

section Joined

variable {β : Type} (mark : Seat → Option β)

/-- Whether seats have the same mark.  A seat without a mark stands for itself. -/
def Joined (s u : Seat) : Prop := s = u ∨ (mark s).isSome ∧ mark u = mark s

/-- Whether a number is that of the first property among those that are joined with a seat. -/
def Opens (l : List Seat) (s : Seat) (n : Nat) : Prop :=
  IsLeast {m | ∃ u ∈ l, Joined mark s u ∧ u.number = m} n

variable {mark}

theorem Joined.symm (h : Joined mark s u) : Joined mark u s := by
  rcases h with rfl | ⟨hsome, heq⟩
  · exact .inl rfl
  · exact .inr ⟨by rwa [heq], heq.symm⟩

theorem Joined.trans (h : Joined mark s u) (h' : Joined mark u v) : Joined mark s v := by
  rcases h with rfl | ⟨hsome, heq⟩
  · exact h'
  · rcases h' with rfl | ⟨-, heq'⟩
    · exact .inr ⟨hsome, heq⟩
    · exact .inr ⟨hsome, heq'.trans heq⟩

theorem Joined.mark_eq (h : Joined mark s u) : mark u = mark s := by
  rcases h with rfl | ⟨-, heq⟩
  · rfl
  · exact heq

theorem Joined.eq_of_none (h : Joined mark s u) (hs : mark s = none) : s = u := by
  rcases h with h | ⟨hsome, -⟩
  · exact h
  · simp [hs] at hsome

theorem joined_of_eq_some {b : β} (hs : mark s = some b) (hu : mark u = some b) : Joined mark s u :=
  .inr ⟨by simp [hs], hu.trans hs.symm⟩

/-- The number that is looked up for a mark is that of the first property with the mark. -/
theorem opens_of_findIdx? [DecidableEq β] (markOf : Declaration → Option β) {part : Seat → Nat}
    (hmark : ∀ n d, mark (ofDeclaration all n d) = markOf d)
    (hpart : ∀ n d, part (ofDeclaration all n d) =
      ((markOf d).bind fun b => all.findIdx? fun e => markOf e = some b).getD n)
    (hs : s ∈ arrange all) : Opens mark (arrange all) s (part s) := by
  have hmem := hs
  obtain ⟨d, hd, hseat⟩ := mem_arrange_iff.1 hs
  rw [← hseat, hpart, hseat]
  have hmarkS : mark s = markOf d := by rw [← hseat, hmark]
  cases hb : markOf d with
  | none =>
    refine ⟨⟨s, hmem, .inl rfl, rfl⟩, ?_⟩
    rintro m ⟨u, -, hjoined, rfl⟩
    simp [hjoined.eq_of_none (hmarkS.trans hb)]
  | some b =>
    obtain ⟨hn, rfl⟩ := List.getElem?_eq_some_iff.1 hd
    have hsome : (all.findIdx? fun e => markOf e = some b).isSome = true := by
      rw [List.findIdx?_isSome]
      exact List.any_eq_true.2 ⟨_, List.getElem_mem hn, by simpa using hb⟩
    obtain ⟨first, hfirst⟩ := Option.isSome_iff_exists.1 hsome
    obtain ⟨hlt, hmarked, hleast⟩ := List.findIdx?_eq_some_iff_getElem.1 hfirst
    simp only [decide_eq_true_eq] at hmarked hleast
    simp only [Option.bind_some, hfirst, Option.getD_some]
    constructor
    · refine ⟨ofDeclaration all first all[first], ?_, ?_, rfl⟩
      · exact mem_arrange_iff.2 ⟨all[first], List.getElem?_eq_getElem hlt, rfl⟩
      · exact joined_of_eq_some (hmarkS.trans hb) ((hmark ..).trans hmarked)
    · rintro m ⟨u, hu, hjoined, rfl⟩
      obtain ⟨e, he, hseat'⟩ := mem_arrange_iff.1 hu
      have hmarkU : markOf e = some b := by
        rw [← hmark u.number e, hseat', hjoined.mark_eq, hmarkS, hb]
      obtain ⟨hlt', rfl⟩ := List.getElem?_eq_some_iff.1 he
      by_contra hless
      exact hleast u.number (by omega) hmarkU

/-- What is joined has the same first property, and what has the same first property is joined. -/
theorem joined_iff {n m : Nat} (hs : Opens mark (arrange all) s n) (hu : Opens mark (arrange all) u m) :
    Joined mark s u ↔ n = m := by
  constructor
  · intro h
    have hset : {k | ∃ v ∈ arrange all, Joined mark s v ∧ v.number = k} =
        {k | ∃ v ∈ arrange all, Joined mark u v ∧ v.number = k} := by
      ext k
      constructor
      · rintro ⟨v, hv, hjoined, hk⟩
        exact ⟨v, hv, h.symm.trans hjoined, hk⟩
      · rintro ⟨v, hv, hjoined, hk⟩
        exact ⟨v, hv, h.trans hjoined, hk⟩
    rw [Opens, hset] at hs
    exact hs.unique hu
  · rintro rfl
    obtain ⟨⟨v, hv, hjoined, hnumber⟩, -⟩ := hs
    obtain ⟨⟨w, hw, hjoined', hnumber'⟩, -⟩ := hu
    obtain rfl := eq_of_number_eq hv hw (hnumber.trans hnumber'.symm)
    exact hjoined.trans hjoined'.symm

end Joined

/-- The group of a seat together with its tab. -/
def grouping (s : Seat) : Option (Option String × String) := s.group.map fun group => (s.tab, group)

theorem opens_tabPart (hs : s ∈ arrange all) : Opens tab (arrange all) s s.tabPart := by
  refine opens_of_findIdx? Declaration.tab (fun _ _ => rfl) (fun n d => ?_) hs
  have hfirst (tab : String) : (fun e : Declaration => e.tab == some tab) =
      fun e => decide (e.tab = some tab) := by
    funext e
    rw [Bool.beq_eq_decide_eq]
  simp only [tabPart, ofDeclaration, hfirst]

theorem opens_groupPart (hs : s ∈ arrange all) : Opens grouping (arrange all) s s.groupPart := by
  refine opens_of_findIdx? (fun d => d.group.map fun group => (d.tab, group))
    (fun _ _ => rfl) (fun n d => ?_) hs
  have hfirst (group : String) :
      (fun e : Declaration => e.tab == d.tab && e.group == some group) =
        fun e => decide ((e.group.map fun name => (e.tab, name)) = some (d.tab, group)) := by
    funext e
    cases e.group with
    | none => simp
    | some name => simp [Bool.beq_eq_decide_eq]
  simp only [groupPart, ofDeclaration, hfirst, Option.bind_map]
  rfl

/-- Whether the first property that is joined with a seat is declared before the first one that is
joined with another. -/
def Earlier {β : Type} (mark : Seat → Option β) (l : List Seat) (s u : Seat) : Prop :=
  ∃ n m, Opens mark l s n ∧ Opens mark l u m ∧ n < m

theorem joined_tab_iff (hs : s ∈ arrange all) (hu : u ∈ arrange all) :
    Joined tab s u ↔ s.tabPart = u.tabPart := joined_iff (opens_tabPart hs) (opens_tabPart hu)

theorem joined_grouping_iff (hs : s ∈ arrange all) (hu : u ∈ arrange all) :
    Joined grouping s u ↔ s.groupPart = u.groupPart :=
  joined_iff (opens_groupPart hs) (opens_groupPart hu)

/-- Tabs, and seats without a tab, come in the order of their first properties. -/
theorem pairwise_tabs : (arrange all).Pairwise fun s u =>
    Joined tab s u ∨ Earlier tab (arrange all) s u := by
  refine pairwise_before.imp_of_mem fun {s u} hs hu h => ?_
  by_cases heq : s.tabPart = u.tabPart
  · exact .inl ((joined_tab_iff hs hu).2 heq)
  · rw [before_iff] at h
    exact .inr ⟨_, _, opens_tabPart hs, opens_tabPart hu, by omega⟩

/-- Inside a tab, groups and seats without a group come in the order of their first properties, and
those of one group in the order of their declaration. -/
theorem pairwise_groups : (arrange all).Pairwise fun s u => Joined tab s u →
    Joined grouping s u ∧ s.number < u.number ∨ Earlier grouping (arrange all) s u := by
  refine pairwise_arrange.imp_of_mem fun {s u} hs hu h hjoined => ?_
  obtain ⟨hbefore, hne⟩ := h
  rw [joined_tab_iff hs hu] at hjoined
  rw [before_iff] at hbefore
  by_cases heq : s.groupPart = u.groupPart
  · exact .inl ⟨(joined_grouping_iff hs hu).2 heq, by omega⟩
  · exact .inr ⟨_, _, opens_groupPart hs, opens_groupPart hu, by omega⟩

theorem isInfix_tab (name : String) :
    (arrange all).filter (fun s => s.tab = some name) <:+: arrange all := by
  refine filter_isInfix (fun s hs u hu v hv hsu huv hs' hv' => ?_) pairwise_before
  simp only [decide_eq_true_eq] at hs' hv' ⊢
  have hends := (joined_tab_iff hs hv).1 (joined_of_eq_some hs' hv')
  rw [before_iff] at hsu huv
  have hjoined := (joined_tab_iff hs hu).2 (by omega)
  exact hjoined.mark_eq.trans hs'

theorem isInfix_group (name group : String) :
    (arrange all).filter (fun s => s.tab = some name ∧ s.group = some group) <:+: arrange all := by
  refine filter_isInfix (fun s hs u hu v hv hsu huv hs' hv' => ?_) pairwise_before
  simp only [decide_eq_true_eq] at hs' hv' ⊢
  have hgrouping {w : Seat} (hw : w.tab = some name ∧ w.group = some group) :
      w.grouping = some (some name, group) := by simp [grouping, hw]
  have htabs := (joined_tab_iff hs hv).1 (joined_of_eq_some hs'.1 hv'.1)
  have hgroups := (joined_grouping_iff hs hv).1 (joined_of_eq_some (hgrouping hs') (hgrouping hv'))
  rw [before_iff] at hsu huv
  have hjoined := (joined_grouping_iff hs hu).2 (by omega)
  have hmark := hjoined.mark_eq.trans (hgrouping hs')
  rw [grouping, Option.map_eq_some_iff] at hmark
  obtain ⟨group', hgroup, heq⟩ := hmark
  obtain ⟨htab, rfl⟩ := Prod.mk.inj heq
  exact ⟨htab, hgroup⟩

/-- Whether a seat has a group and no tab. -/
def isLoose (group : String) (s : Seat) : Bool := s.tab = none ∧ s.group = some group

section Loose

variable {group : String}

theorem tabPart_of_loose (hs : s ∈ arrange all) (h : isLoose group s = true) :
    s.tabPart = s.number := by
  obtain ⟨htab, -⟩ := of_decide_eq_true h
  obtain ⟨⟨u, -, hjoined, hnumber⟩, -⟩ := opens_tabPart hs
  rw [← hnumber, ← hjoined.eq_of_none htab]

/-- A seat outside all tabs stands where its property is declared. -/
theorem pairwise_loose : (arrange all).Pairwise fun s u =>
    (isLoose group s = true → ∃ m, Opens tab (arrange all) u m ∧ s.number < m) ∧
      (isLoose group u = true → ∃ n, Opens tab (arrange all) s n ∧ n < u.number) := by
  refine pairwise_arrange.imp_of_mem fun {s u} hs hu h => ?_
  obtain ⟨hbefore, hne⟩ := h
  rw [before_iff] at hbefore
  have hlt (hloose : s.tab = none ∨ u.tab = none) : s.tabPart < u.tabPart := by
    by_contra hge
    have hjoined := (joined_tab_iff hs hu).2 (by omega)
    rcases hloose with htab | htab
    · exact hne (congrArg number (hjoined.eq_of_none htab))
    · exact hne (congrArg number (hjoined.symm.eq_of_none htab)).symm
  constructor
  · intro hloose
    refine ⟨_, opens_tabPart hu, ?_⟩
    rw [← tabPart_of_loose hs hloose]
    exact hlt (.inl (of_decide_eq_true hloose).1)
  · intro hloose
    refine ⟨_, opens_tabPart hs, ?_⟩
    rw [← tabPart_of_loose hu hloose]
    exact hlt (.inr (of_decide_eq_true hloose).1)

theorem pairwise_number_loose : (arrange all).Pairwise fun s u =>
    isLoose group s = true → isLoose group u = true → s.number < u.number := by
  have hloose := @pairwise_loose all group
  refine hloose.imp_of_mem fun {s u} hs hu h hs' hu' => ?_
  obtain ⟨m, hopens, hless⟩ := h.1 hs'
  rwa [hopens.unique (opens_tabPart hu), tabPart_of_loose hu hu'] at hless

/-- The seats of a group outside all tabs stand together as long as nothing else begins between
them. -/
theorem isInfix_loose_iff : (arrange all).filter (isLoose group) <:+: arrange all ↔
    ∀ s ∈ arrange all, ∀ v ∈ arrange all, isLoose group s = true → isLoose group v = true →
      ∀ u ∈ arrange all, s.number < u.number → u.number < v.number →
        isLoose group u = true ∨ ∃ w ∈ arrange all, Joined tab u w ∧ w.number < u.number := by
  constructor
  · intro together s hs v hv hs' hv' u hu hsu huv
    by_contra hnot
    push Not at hnot
    obtain ⟨hloose, hfirst⟩ := hnot
    -- What begins between has its own number, and so it stands between.
    obtain ⟨⟨w, hw, hjoined, hnumber⟩, hleast⟩ := opens_tabPart hu
    have hpart : u.tabPart = u.number := by
      have := hleast ⟨u, hu, .inl rfl, rfl⟩
      have := hfirst w hw hjoined
      omega
    have hs'' := tabPart_of_loose hs hs'
    have hv'' := tabPart_of_loose hv hv'
    refine hloose (of_filter_isInfix together pairwise_before hs hu hv hs' hv' ?_ ?_)
    · rw [before_iff]
      omega
    · rw [before_iff]
      omega
  · intro hbetween
    refine filter_isInfix (fun s hs u hu v hv hsu huv hs' hv' => ?_) pairwise_before
    have hs'' := tabPart_of_loose hs hs'
    have hv'' := tabPart_of_loose hv hv'
    rw [before_iff] at hsu huv
    by_cases hsu' : s.tabPart = u.tabPart
    · rwa [← ((joined_tab_iff hs hu).2 hsu').eq_of_none (of_decide_eq_true hs').1]
    by_cases huv' : v.tabPart = u.tabPart
    · rwa [← ((joined_tab_iff hv hu).2 huv').eq_of_none (of_decide_eq_true hv').1]
    obtain ⟨⟨w, hw, hjoined, hnumber⟩, hleast⟩ := opens_tabPart hu
    rcases hbetween s hs v hv hs' hv' w hw (by omega) (by omega) with hloose | ⟨x, hx, hjoined', hless⟩
    · rwa [← hjoined.symm.eq_of_none (of_decide_eq_true hloose).1]
    · have := hleast ⟨x, hx, hjoined.trans hjoined', rfl⟩
      omega

end Loose

end Seat

namespace Derivation

open Seat

/-- Each property has one seat, with the number of its declaration.  The seats of a tab stand
together, and so do, in a tab, the seats of a group.  Tabs and seats without a tab come in the order of
their first properties; so do, in a tab, groups and seats without a group, and the seats of a group
come as they are declared. -/
theorem seats_together (t : Schema) :
    ((seats t).map fun s => (s.number, s.name, s.tab, s.group)).Perm
        (t.properties.mapIdx fun n property => (n, property.1,
          (property.2.label.keyword? "tab").bind Json.str?,
          (property.2.label.keyword? "group").bind Json.str?)) ∧
      (∀ tab, (seats t).filter (fun s => s.tab = some tab) <:+: seats t) ∧
      (∀ tab group, (seats t).filter (fun s => s.tab = some tab ∧ s.group = some group) <:+: seats t) ∧
      (seats t).Pairwise (fun s u => Joined tab s u ∨ Earlier tab (seats t) s u) ∧
      (seats t).Pairwise fun s u => Joined tab s u →
        Joined grouping s u ∧ s.number < u.number ∨ Earlier grouping (seats t) s u := by
  refine ⟨?_, isInfix_tab, isInfix_group, pairwise_tabs, pairwise_groups⟩
  refine (arrange_perm.map _).trans (.of_eq ?_)
  refine List.ext_getElem (by simp) fun n hn hn' => ?_
  simp [ofDeclaration, declaration]

/-- The seats of a group outside all tabs come as they are declared, each where its property is
declared among the tabs and the other properties without a tab.  They stand together as long as nothing
else begins between them. -/
theorem loose_seats (t : Schema) (group : String) :
    (seats t).Pairwise (fun s u =>
        isLoose group s = true → isLoose group u = true → s.number < u.number) ∧
      (seats t).Pairwise (fun s u =>
        (isLoose group s = true → ∃ m, Opens tab (seats t) u m ∧ s.number < m) ∧
          (isLoose group u = true → ∃ n, Opens tab (seats t) s n ∧ n < u.number)) ∧
      ((seats t).filter (isLoose group) <:+: seats t ↔
        ∀ s ∈ seats t, ∀ v ∈ seats t, isLoose group s = true → isLoose group v = true →
          ∀ u ∈ seats t, s.number < u.number → u.number < v.number →
            isLoose group u = true ∨ ∃ w ∈ seats t, Joined tab u w ∧ w.number < u.number) := by
  exact ⟨pairwise_number_loose, pairwise_loose, isInfix_loose_iff⟩

end Derivation

namespace Compilation

/-! Three properties without a tab, of which the first and the last are of one group. -/

namespace Interrupted

def grouped : Json := .obj [("type", .str "string"), ("group", .str "g")]

def single : Json := .obj [("type", .str "string")]

def raw : Json :=
  .obj [("type", .str "object"), ("properties", .obj [("a", grouped), ("b", single), ("c", grouped)])]

def known (name : String) (raw : Json) : Attributes :=
  typedAs .string ⟨[.property name], raw, false⟩

def seats : List Seat :=
  [⟨"a", 0, none, some 0, none, some "g"⟩, ⟨"b", 1, none, none, none, none⟩,
    ⟨"c", 2, none, some 0, none, some "g"⟩]

def shown (name : String) (raw : Json) : Attributes := { known name raw with widget := "string" }

def schema : Schema :=
  .node { typedAs .object ⟨[], raw, false⟩ with widget := "object", seats := seats }
    [(.property "a", .node (shown "a" grouped) []), (.property "b", .node (shown "b" single) []),
      (.property "c", .node (shown "c" grouped) [])]

theorem run_eq : run {} raw none = .ok ⟨schema, [], .null⟩ := by
  have inline_eq : Definitions.inline .draft7 raw = .ok (raw, []) := by cbv
  have derive_eq : derive none (schema.map underived) = .ok (schema, []) := by cbv
  have wire_eq : Wiring.wire schema = (schema, []) := by cbv
  exact run_eq_of_derived inline_eq (by cbv) (by decide +kernel) rfl derive_eq wire_eq (by cbv)

theorem seats_eq : Derivation.seats schema = seats := by cbv

end Interrupted

/-- The properties of a group outside all tabs need not stand together. -/
theorem exists_loose_group_apart : ∃ c, run {} Interrupted.raw none = .ok c ∧ c.problems = [] ∧
    c.schema.label.seats = Derivation.seats c.schema ∧
      ∃ group, ¬ (Derivation.seats c.schema).filter (Seat.isLoose group) <:+:
        Derivation.seats c.schema := by
  refine ⟨_, Interrupted.run_eq, rfl, Interrupted.seats_eq.symm, "g", ?_⟩
  rw [Interrupted.seats_eq]
  decide

end Compilation

end FormSchema
