import FormSchema.Proofs.Document.Path
import FormSchema.Proofs.Document.Identity
import FormSchema.Schema.Reference

/-!
References and pointers.  What a schema refers to in a plain value is the value of the node that the
same pointer leads to in a document, provided that the pointer is the node's own: to refer to an item,
its index has to be spelled in the only way.
-/

namespace FormSchema

namespace Number

variable {digits text : List Char} {i : Nat}

theorem digitChar_digitValue {c : Char} (h : Text.isPlainDigit c = true) :
    digitValue c < 10 ∧ Nat.digitChar (digitValue c) = c := by
  have hrange : 48 ≤ c.toNat ∧ c.toNat ≤ 57 := by
    simpa [Text.isPlainDigit, Char.le_def, UInt32.le_iff_toNat_le] using h
  have hvalue : digitValue c = c.toNat - 48 := rfl
  have hlt : digitValue c < 10 := by omega
  refine ⟨hlt, Char.toNat_inj.1 ?_⟩
  rw [Nat.toNat_digitChar_of_lt_ten hlt]
  omega

/-- Digits after those of a positive number are the last digits of a larger one. -/
theorem toDigits_append (plain : ∀ c ∈ digits, Text.isPlainDigit c = true) {n : Nat} (h : 0 < n) :
    Nat.toDigits 10 n ++ digits =
      Nat.toDigits 10 (digits.foldl (fun n c => 10 * n + digitValue c) n) := by
  induction digits generalizing n with
  | nil => exact List.append_nil _
  | cons c digits ih =>
    obtain ⟨hlt, hchar⟩ := digitChar_digitValue (plain c List.mem_cons_self)
    have hnext : Nat.toDigits 10 n ++ [c] = Nat.toDigits 10 (10 * n + digitValue c) := by
      rw [← Nat.toDigits_append_toDigits (by decide) h hlt, Nat.toDigits_of_lt_base hlt, hchar]
    calc Nat.toDigits 10 n ++ c :: digits
      _ = (Nat.toDigits 10 n ++ [c]) ++ digits := by rw [List.append_assoc]; rfl
      _ = Nat.toDigits 10 (10 * n + digitValue c) ++ digits := by rw [hnext]
      _ = _ := ih (fun d hd => plain d (List.mem_cons_of_mem _ hd)) (by omega)

/-- Digits that do not start with a zero are those that their value is written with. -/
theorem repr_digitsValue {c : Char} (plain : ∀ d ∈ c :: digits, Text.isPlainDigit d = true)
    (hc : c ≠ '0') : (digitsValue (c :: digits)).repr.toList = c :: digits := by
  obtain ⟨hlt, hchar⟩ := digitChar_digitValue (plain c List.mem_cons_self)
  have hpos : 0 < digitValue c := by
    rcases Nat.eq_zero_or_pos (digitValue c) with hzero | hpos
    · rw [hzero] at hchar
      exact absurd hchar.symm hc
    · exact hpos
  have hfirst : Nat.toDigits 10 (digitValue c) = [c] := by
    rw [Nat.toDigits_of_lt_base hlt, hchar]
  have happend := toDigits_append (fun d hd => plain d (List.mem_cons_of_mem _ hd)) hpos
  rw [hfirst] at happend
  rw [Nat.toList_repr, digitsValue, List.foldl_cons, Nat.mul_zero, Nat.zero_add, ← happend]
  rfl

theorem head?_toDigits_ne {n : Nat} (h : 0 < n) : (Nat.toDigits 10 n).head? ≠ some '0' := by
  induction n using Nat.strongRecOn with
  | ind n ih =>
    rw [Nat.toDigits_eq_if (by decide)]
    split
    · rename_i hlt
      intro hhead
      have hchar := congrArg Char.toNat (Option.some.inj hhead)
      rw [Nat.toNat_digitChar_of_lt_ten hlt] at hchar
      exact Nat.ne_of_gt h (Nat.add_left_cancel hchar)
    · have hquotient := ih (n / 10) (by omega) (by omega)
      rw [List.head?_append_of_ne_nil _ Nat.toDigits_ne_nil]
      exact hquotient

/-- No number is written with a zero before its other digits. -/
theorem repr_ne_of_zero (n : Nat) (c : Char) (rest : List Char) :
    n.repr.toList ≠ '0' :: c :: rest := by
  intro h
  rw [Nat.toList_repr] at h
  rcases Nat.eq_zero_or_pos n with rfl | hpos
  · cases h
  · exact head?_toDigits_ne hpos (by rw [h]; rfl)

/-- An index without a sign consists of the digits of its value. -/
theorem plain_of_index? (sign : text.head? ≠ some '+') (h : index? text = some i) :
    text ≠ [] ∧ (∀ c ∈ text, Text.isPlainDigit c = true) ∧ digitsValue text = i := by
  unfold index? at h
  dsimp only at h
  split at h
  · exact absurd rfl sign
  · split at h
    · cases h
    · rename_i hdigits
      simp only [Bool.or_eq_true, Bool.not_eq_true', not_or, Bool.not_eq_false, List.isEmpty_iff,
        List.all_eq_true] at hdigits
      split at h
      · exact ⟨hdigits.1, hdigits.2, Option.some.inj h⟩
      · cases h

end Number

namespace Reference

/-- An index is spelled in the only way if it is spelled as it is written. -/
theorem strictIndex?_eq_some_iff {token : List Char} {i : Nat} :
    strictIndex? token = some i ↔ Number.index? token = some i ∧ i.repr.toList = token := by
  unfold strictIndex?
  split
  · rename_i rest
    refine ⟨nofun, fun ⟨_, h⟩ => ?_⟩
    have hplus := Number.isPlainDigit_of_mem_repr (h ▸ List.mem_cons_self : '+' ∈ i.repr.toList)
    exact absurd hplus (by decide)
  · exact ⟨nofun, fun ⟨_, h⟩ => absurd h (Number.repr_ne_of_zero _ _ _)⟩
  · rename_i hplus hzero
    refine (and_iff_left_of_imp fun h => ?_).symm
    have hhead : token.head? ≠ some '+' := by
      intro hhead
      obtain ⟨rest, rfl⟩ := List.head?_eq_some_iff.1 hhead
      exact hplus rest rfl
    obtain ⟨hne, plain, rfl⟩ := Number.plain_of_index? hhead h
    obtain ⟨c, digits, rfl⟩ := List.exists_cons_of_ne_nil hne
    by_cases hc : c = '0'
    · subst hc
      cases digits with
      | nil => rfl
      | cons d digits => exact absurd rfl (hzero d digits)
    · exact Number.repr_digitsValue plain hc

theorem strictIndex?_eq (token : String) :
    strictIndex? token.toList =
      (Number.index? token.toList).bind fun i =>
        if (Key.index i).token = token then some i else none := by
  refine Option.ext fun i => ?_
  rw [strictIndex?_eq_some_iff, String.toList_inj, Option.bind_eq_some_iff]
  constructor
  · rintro ⟨hindex, hspelled⟩
    exact ⟨i, hindex, if_pos hspelled⟩
  · rintro ⟨j, hindex, h⟩
    split at h
    · obtain rfl := Option.some.inj h
      exact ⟨hindex, ‹_›⟩
    · cases h

/-- What a schema refers to by a token is what the token names, if it is the one of its key. -/
theorem child?_value (n : Node) (token : String) :
    child? n.value token =
      (n.child? token).bind fun part =>
        if part.1.token = token then some part.2.value else none := by
  cases n with
  | leaf tag v => cases v <;> rfl
  | list tag items =>
    rw [Node.value, child?, Node.child?, Node.valueItems_eq, strictIndex?_eq]
    cases Number.index? token.toList with
    | none => rfl
    | some i =>
      by_cases htoken : (Key.index i).token = token
      · cases hitem : items[i]? <;> simp [hitem, htoken]
      · cases hitem : items[i]? <;> simp [hitem, htoken]
  | record tag fields =>
    rw [Node.value, child?, Node.child?, Node.valueFields_eq, Key.lookup_map_snd (fun _ => Node.value)]
    cases fields.lookup token <;> simp [Key.token]

end Reference

namespace Document

variable {d : Document} {p q : Place}

theorem tokens_prefix_of_descend {tokens : List String}
    (h : Pointer.descend d.navigation p tokens = some q) : p.tokens <+: q.tokens := by
  induction tokens generalizing p with
  | nil =>
    obtain rfl := Option.some.inj h
    exact List.prefix_refl _
  | cons token tokens ih =>
    obtain ⟨next, hnext, h⟩ := Option.bind_eq_some_iff.1 h
    obtain ⟨part, -, rfl⟩ := Option.map_eq_some_iff.1 hnext
    exact List.IsPrefix.trans ⟨_, (Place.tokens_down p part).symm⟩ (ih h)

/-- What a schema refers to by tokens is the value of the node that they lead to, if they are the
tokens on the way to it. -/
theorem at?_value_eq_some_iff (d : Document) (p : Place) (tokens : List String) (w : Json) :
    Reference.at? p.value tokens = some w ↔
      ∃ q, Pointer.descend d.navigation p tokens = some q ∧ q.value = w ∧
        q.tokens = p.tokens ++ tokens := by
  induction tokens generalizing p with
  | nil => simp [Reference.at?]
  | cons token tokens ih =>
    have hcons : Reference.at? p.value (token :: tokens) =
        (Reference.child? p.node.value token).bind (Reference.at? · tokens) := rfl
    have hchild : d.navigation.child? p token = (p.node.child? token).map p.down := rfl
    rw [hcons, Reference.child?_value, Pointer.descend_cons, hchild]
    cases p.node.child? token with
    | none => simp
    | some part =>
      rw [Option.bind_some, Option.map_some, Option.bind_some]
      by_cases htoken : part.1.token = token
      · have htokens : (p.down part).tokens ++ tokens = p.tokens ++ token :: tokens := by
          rw [Place.tokens_down, htoken, List.append_assoc]
          rfl
        rw [if_pos htoken, Option.bind_some, ← htokens]
        exact ih (p.down part)
      · rw [if_neg htoken]
        refine ⟨nofun, ?_⟩
        -- The way to a node below the child starts with the token of the child.
        rintro ⟨q, hdescend, -, hq⟩
        have hprefix := tokens_prefix_of_descend hdescend
        rw [hq, Place.tokens_down, List.prefix_append_right_inj, List.cons_prefix_cons] at hprefix
        exact absurd hprefix.1 htoken

theorem byPointer?_of_parseAbsolute (d : Document) {source : String} {tokens : List String}
    (h : Pointer.parseAbsolute source = .ok tokens) :
    d.byPointer? source = Pointer.descend d.navigation d.rootPlace tokens := by
  obtain ⟨pointer, hparse, h⟩ := bind_eq_ok.1 h
  cases pointer with
  | relative up more => cases h
  | absolute more =>
    obtain rfl := Except.ok.inj h
    rw [byPointer?, resolve, Pointer.resolveText, hparse]
    rfl

/-- What a schema refers to in a value by an absolute pointer is the value of the node that the
pointer leads to, and there is nothing if the pointer leads nowhere or is not the pointer of that
node, since it spells an index in another way.  Writing the pointer out and taking it apart again
makes no difference. -/
theorem referred_iff_byPointer {source : String} {tokens : List String}
    (absolute : Pointer.parseAbsolute source = .ok tokens) (v : Json) :
    Reference.at? v (Pointer.splitTokens (Pointer.join tokens).toList) = Reference.at? v tokens ∧
      ∀ w, Reference.at? v tokens = some w ↔
        ∃ p, (ofJson v).byPointer? source = some p ∧ p.value = w ∧
          p.pointer = Pointer.join tokens := by
  refine ⟨?_, fun w => ?_⟩
  · rw [Pointer.join, String.toList_ofList, Pointer.splitTokens_flatMap_tokenText]
  · have hvalue : (ofJson v).rootPlace.value = v := Node.value_ofJson _ _ _
    have hroot : (ofJson v).rootPlace.tokens = [] := rfl
    have hiff := at?_value_eq_some_iff (ofJson v) (ofJson v).rootPlace tokens w
    rw [hvalue, hroot, List.nil_append] at hiff
    rw [hiff, byPointer?_of_parseAbsolute (ofJson v) absolute]
    simp only [Place.pointer, Pointer.join_injective.eq_iff]

namespace Referred

def people : Json := .obj [("people", .arr [.str "ann", .str "bob"])]

end Referred

/-- The second item is referred to, and the pointer leads to it. -/
theorem referred_iff_byPointer_item :
    Reference.at? Referred.people ["people", "1"] = some (.str "bob") ∧
      ∃ p, (ofJson Referred.people).byPointer? "#/people/1" = some p ∧ p.value = .str "bob" ∧
        p.pointer = "/people/1" := by
  have habsolute : Pointer.parseAbsolute "#/people/1" = .ok ["people", "1"] := by decide +kernel
  have hreferred : Reference.at? Referred.people ["people", "1"] = some (.str "bob") := rfl
  obtain ⟨p, hp, hvalue, hpointer⟩ :=
    ((referred_iff_byPointer habsolute Referred.people).2 _).1 hreferred
  exact ⟨hreferred, p, hp, hvalue, hpointer.trans (by decide +kernel)⟩

/-- With a needless zero in it, the pointer still leads to the item, but nothing is referred to. -/
theorem byPointer_without_reference :
    Pointer.parseAbsolute "/people/01" = .ok ["people", "01"] ∧
      ((ofJson Referred.people).byPointer? "/people/01").map Place.pointer = some "/people/1" ∧
      Reference.at? Referred.people ["people", "01"] = none :=
  ⟨by decide +kernel, by decide +kernel, rfl⟩

end Document

end FormSchema
