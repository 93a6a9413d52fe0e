import Marketplace.Stringify
import Mathlib.Data.List.Sort

/-!
# Documents that are stored and read back

What Postgres gives back of a document stored as `jsonb` is another text: the members are in
an order of its own, and there are blanks after commas and colons. The value is the same
(`KeepsDocuments`), and that is all that is said of it. When the value is written again, its
members come in some order; whichever it is, the text is read as the value (`Stringified.parse`).

A store that sorts the members by the lengths of their names keeps documents
(`sorts_keepsDocuments`).
-/

namespace Marketplace.Json

/-- What is taken as `jsonb` is given back with the same value. -/
def KeepsDocuments (jsonb : List Char → Option (List Char)) : Prop :=
  ∀ t : Tree Units, t.Plain → t.Distinct → ∀ out, jsonb (stringify t) = some out →
    jsonParse out = some t.value

/-- The text is what `JSON.stringify` makes of the value, with the members in some order. -/
def Stringified (v : Value) (text : List Char) : Prop :=
  ∃ t : Tree Units, t.Distinct ∧ t.value = v ∧ text = stringify t

/-! ## Values of plain trees -/

section Values

variable {members : List (Units × Value)} {key : Units} {v : Value}

/-- What is found was put in. -/
theorem mem_of_fields (h : fields members key = some v) : (key, v) ∈ members := by
  induction members using List.reverseRecOn with
  | nil => cases h
  | append_singleton ms m ih =>
    rw [fields_append] at h
    rcases Slots.found_cases_some h with ⟨rfl, rfl⟩ | ⟨-, hold⟩
    · exact List.mem_append_right _ (List.mem_singleton_self _)
    · exact List.mem_append_left _ (ih hold)

/-- Without repeated names the order of the members does not matter. -/
theorem fields_perm {members' : List (Units × Value)} (hnodup : (members.map Prod.fst).Nodup)
    (hperm : members.Perm members') : fields members = fields members' := by
  have hnodup' : (members'.map Prod.fst).Nodup := (hperm.map Prod.fst).nodup_iff.mp hnodup
  funext key
  rcases h : fields members key with _ | v
  · rw [fields_eq_none_iff] at h
    exact (fields_eq_none_iff.mpr fun hmem => h ((hperm.map Prod.fst).mem_iff.mpr hmem)).symm
  · exact (fields_of_mem hnodup' (hperm.mem_iff.mp (mem_of_fields h))).symm

/-- **Of a plain value every tree is plain.** -/
theorem plain_of_value_eq {t u : Tree Units} (ht : t.Distinct) (hu : u.Plain)
    (h : t.value = u.value) : t.Plain := by
  induction t using Tree.induct generalizing u with
  | scalar a =>
    cases u with
    | scalar b =>
      obtain rfl := Value.scalar.inj h
      exact hu
    | string s | array items | object members => cases h
  | string s => trivial
  | array items ih =>
    cases u with
    | array items' =>
      have hvalues : items.map Tree.value = items'.map Tree.value := by
        rw [← itemValues_eq, ← itemValues_eq]
        exact Value.array.inj h
      refine plainItems_iff.mpr fun t hmem => ?_
      have hvalue : t.value ∈ items'.map Tree.value := hvalues ▸ List.mem_map_of_mem hmem
      obtain ⟨u, hu', huv⟩ := List.mem_map.mp hvalue
      exact ih t hmem (distinctItems_iff.mp ht t hmem) (plainItems_iff.mp hu u hu') huv.symm
    | scalar b | string s | object members => cases h
  | object members ih =>
    cases u with
    | object members' =>
      have hvalues : fields (memberValues members) = fields (memberValues members') :=
        Value.object.inj h
      obtain ⟨hnodup, hdistinct⟩ := ht
      refine plainMembers_iff.mpr fun m hmem => ?_
      have hfound := fields_memberValues hnodup hmem
      rw [hvalues] at hfound
      have hmem' := mem_of_fields hfound
      rw [memberValues_eq] at hmem'
      obtain ⟨m', hm', heq⟩ := List.mem_map.mp hmem'
      exact ih m hmem (distinctMembers_iff.mp hdistinct m hmem) (plainMembers_iff.mp hu m' hm')
        (Prod.mk.inj heq).2.symm
    | scalar b | string s | array items => cases h

/-- **A value that is written again is read again.** -/
theorem Stringified.parse {u : Tree Units} {text : List Char} (h : Stringified u.value text)
    (hu : u.Plain) : jsonParse text = some u.value := by
  obtain ⟨t, hdistinct, hvalue, rfl⟩ := h
  rw [jsonParse, parse_stringify (plain_of_value_eq hdistinct hu hvalue), Option.map_some, hvalue]

end Values

/-! ## A store that sorts -/

section Sorts

/-- Shorter names come first; names of one length come by their bytes. -/
def Before (m m' : Units × Tree Units) : Prop :=
  let a := Utf8.encode (Utf16.decode m.1)
  let b := Utf8.encode (Utf16.decode m'.1)
  a.length < b.length ∨ a.length = b.length ∧ a ≤ b

instance (m m' : Units × Tree Units) : Decidable (Before m m') :=
  inferInstanceAs (Decidable (_ ∨ _ ∧ _))

mutual

/-- The tree with sorted members. -/
def Tree.sorted : Tree Units → Tree Units
  | .scalar a => .scalar a
  | .string s => .string s
  | .array items => .array (sortedItems items)
  | .object members => .object ((sortedMembers members).insertionSort Before)

def sortedItems : List (Tree Units) → List (Tree Units)
  | [] => []
  | t :: ts => t.sorted :: sortedItems ts

def sortedMembers : List (Units × Tree Units) → List (Units × Tree Units)
  | [] => []
  | (key, t) :: ms => (key, t.sorted) :: sortedMembers ms

end

theorem sortedItems_eq (items : List (Tree Units)) : sortedItems items = items.map Tree.sorted := by
  induction items with
  | nil => rfl
  | cons t ts ih => rw [sortedItems, ih, List.map_cons]

theorem sortedMembers_eq (members : List (Units × Tree Units)) :
    sortedMembers members = members.map fun m => (m.1, m.2.sorted) := by
  induction members with
  | nil => rfl
  | cons m ms ih => rw [sortedMembers, ih, List.map_cons]

theorem plain_sorted {t : Tree Units} (h : t.Plain) : t.sorted.Plain := by
  induction t using Tree.induct with
  | scalar a => exact h
  | string s => trivial
  | array items ih =>
    rw [Tree.sorted, sortedItems_eq]
    refine plainItems_iff.mpr (List.forall_mem_map.mpr fun t ht => ?_)
    exact ih t ht (plainItems_iff.mp h t ht)
  | object members ih =>
    rw [Tree.sorted, sortedMembers_eq]
    refine plainMembers_iff.mpr fun m hm => ?_
    obtain ⟨n, hn, rfl⟩ := List.mem_map.mp ((List.mem_insertionSort _).mp hm)
    exact ih n hn (plainMembers_iff.mp h n hn)

theorem value_sorted {t : Tree Units} (h : t.Distinct) : t.sorted.value = t.value := by
  induction t using Tree.induct with
  | scalar a => rfl
  | string s => rfl
  | array items ih =>
    rw [Tree.sorted, Tree.value, Tree.value, itemValues_eq, itemValues_eq, sortedItems_eq,
      List.map_map]
    congr 1
    exact List.map_congr_left fun t ht => ih t ht (distinctItems_iff.mp h t ht)
  | object members ih =>
    obtain ⟨hnodup, hdistinct⟩ := h
    have hsame : memberValues (sortedMembers members) = memberValues members := by
      rw [memberValues_eq, memberValues_eq, sortedMembers_eq, List.map_map]
      refine List.map_congr_left fun m hm => ?_
      exact congrArg (m.1, ·) (ih m hm (distinctMembers_iff.mp hdistinct m hm))
    have hperm : (memberValues members).Perm
        (memberValues ((sortedMembers members).insertionSort Before)) := by
      rw [← hsame, memberValues_eq, memberValues_eq]
      exact ((List.perm_insertionSort _ _).map _).symm
    have hnames := map_fst_memberValues members ▸ hnodup
    rw [Tree.sorted, Tree.value, Tree.value, ← fields_perm hnames hperm]

/-- Read the document, and write it with sorted members and blanks. -/
def sorts (text : List Char) : Option (List Char) := (parse text).map fun t => t.sorted.write [' ']

theorem sorts_keepsDocuments : KeepsDocuments sorts := by
  intro t hplain hdistinct out hout
  rw [sorts, parse_stringify hplain] at hout
  obtain rfl := Option.some.inj hout
  have hspace : ∀ c ∈ [' '], isSpace c = true := by
    intro c hc
    obtain rfl := List.mem_singleton.mp hc
    rfl
  rw [jsonParse, parse_write hspace (plain_sorted hplain), Option.map_some, value_sorted hdistinct]

end Sorts

end Marketplace.Json
