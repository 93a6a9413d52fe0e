import Marketplace.Json
import Marketplace.Slots
import Mathlib.Algebra.Order.BigOperators.Group.List

/-!
# Trees that differ in their strings

A tree of pairs of strings is two trees of one shape. This is how two texts are compared
here that say the same but for their strings: the machine that builds trees is run once, on
pairs, and its two halves are what it builds of the two texts (`parseFrom_map`).

If the second of two strings always weighs at least as much as the first, and as much only
if it is the first, then values can agree only where all the strings do
(`strings_eq_of_value_eq`). For the names of members this takes an argument. Of a name that
has become another one the value would have to find the old one elsewhere; but names that
weigh as much together as they did before have all stayed.
-/

namespace Marketplace.Json

/-! ## Induction on trees -/

section Induction

variable {σ : Type} {motive : Tree σ → Prop}

/-- What holds of a tree if it holds of its items and members. -/
structure Hereditary (motive : Tree σ → Prop) : Prop where
  scalar : ∀ a, motive (.scalar a)
  string : ∀ s, motive (.string s)
  array : ∀ items, (∀ t ∈ items, motive t) → motive (.array items)
  object : ∀ members, (∀ m ∈ members, motive m.2) → motive (.object members)

mutual

theorem Hereditary.tree (h : Hereditary motive) : ∀ t, motive t
  | .scalar a => h.scalar a
  | .string s => h.string s
  | .array items => h.array items (h.items items)
  | .object members => h.object members (h.members members)

theorem Hereditary.items (h : Hereditary motive) : ∀ items : List (Tree σ), ∀ t ∈ items, motive t
  | [], _, ht => by cases ht
  | u :: us, t, ht => by
    rcases List.mem_cons.mp ht with heq | ht
    · rw [heq]
      exact h.tree u
    · exact h.items us t ht

theorem Hereditary.members (h : Hereditary motive) :
    ∀ members : List (σ × Tree σ), ∀ m ∈ members, motive m.2
  | [], _, hm => by cases hm
  | (k, u) :: us, m, hm => by
    rcases List.mem_cons.mp hm with heq | hm
    · rw [heq]
      exact h.tree u
    · exact h.members us m hm

end

/-- To prove something of a tree, prove it of the items and of the members. -/
@[elab_as_elim]
theorem Tree.induct (t : Tree σ) (scalar : ∀ a, motive (.scalar a))
    (string : ∀ s, motive (.string s))
    (array : ∀ items, (∀ t ∈ items, motive t) → motive (.array items))
    (object : ∀ members, (∀ m ∈ members, motive m.2) → motive (.object members)) : motive t :=
  Hereditary.tree ⟨scalar, string, array, object⟩ t

end Induction

/-! ## Other strings -/

section Map

variable {σ τ : Type} (f : σ → τ)

mutual

/-- The tree with other strings. -/
def Tree.map : Tree σ → Tree τ
  | .scalar a => .scalar a
  | .string s => .string (f s)
  | .array items => .array (mapItems items)
  | .object members => .object (mapMembers members)

def mapItems : List (Tree σ) → List (Tree τ)
  | [] => []
  | t :: ts => t.map :: mapItems ts

def mapMembers : List (σ × Tree σ) → List (τ × Tree τ)
  | [] => []
  | (key, t) :: ms => (f key, t.map) :: mapMembers ms

end

theorem mapItems_eq (items : List (Tree σ)) : mapItems f items = items.map (Tree.map f) := by
  induction items with
  | nil => rfl
  | cons t ts ih => rw [mapItems, ih, List.map_cons]

theorem mapMembers_eq (members : List (σ × Tree σ)) :
    mapMembers f members = members.map fun m => (f m.1, m.2.map f) := by
  induction members with
  | nil => rfl
  | cons m ms ih => rw [mapMembers, ih, List.map_cons]

def Token.map : Token σ → Token τ
  | .string s => .string (f s)
  | .scalar a => .scalar a
  | .openArray => .openArray
  | .closeArray => .closeArray
  | .openObject => .openObject
  | .closeObject => .closeObject
  | .comma => .comma
  | .colon => .colon

def Frame.map : Frame σ → Frame τ
  | .items done => .items (mapItems f done)
  | .members done key => .members (mapMembers f done) (f key)

def State.map : State σ → State τ
  | .value stack => .value (stack.map (Frame.map f))
  | .firstItem stack => .firstItem (stack.map (Frame.map f))
  | .firstMember stack => .firstMember (stack.map (Frame.map f))
  | .member done stack => .member (mapMembers f done) (stack.map (Frame.map f))
  | .named done key stack => .named (mapMembers f done) (f key) (stack.map (Frame.map f))
  | .after t stack => .after (t.map f) (stack.map (Frame.map f))

theorem mapItems_append (done : List (Tree σ)) (t : Tree σ) :
    mapItems f (done ++ [t]) = mapItems f done ++ [t.map f] := by
  rw [mapItems_eq, mapItems_eq, List.map_append]
  rfl

theorem mapMembers_append (done : List (σ × Tree σ)) (key : σ) (t : Tree σ) :
    mapMembers f (done ++ [(key, t)]) = mapMembers f done ++ [(f key, t.map f)] := by
  rw [mapMembers_eq, mapMembers_eq, List.map_append]
  rfl

theorem begin_map (stack : List (Frame σ)) (token : Token σ) :
    begin (stack.map (Frame.map f)) (token.map f) = (begin stack token).map (State.map f) := by
  cases token <;> rfl

/-- **One token**: the machine does not look into strings. -/
theorem step_map (s : State σ) (token : Token σ) :
    (s.map f).step (token.map f) = (s.step token).map (State.map f) := by
  cases s with
  | value stack => exact begin_map f stack token
  | firstItem stack => cases token <;> rfl
  | firstMember stack => cases token <;> rfl
  | member done stack => cases token <;> rfl
  | named done key stack => cases token <;> rfl
  | after t stack =>
    rcases stack with _ | ⟨done | ⟨done, key⟩, stack⟩
    · cases token <;> rfl
    · cases token with
      | comma =>
        simp only [State.step, Option.map_some, State.map, List.map_cons, Frame.map,
          mapItems_append, Token.map]
      | closeArray =>
        simp only [State.step, Option.map_some, State.map, List.map_cons, Frame.map, Tree.map,
          mapItems_append, Token.map]
      | _ => rfl
    · cases token with
      | comma =>
        simp only [State.step, Option.map_some, State.map, List.map_cons, Frame.map,
          mapMembers_append, Token.map]
      | closeObject =>
        simp only [State.step, Option.map_some, State.map, List.map_cons, Frame.map, Tree.map,
          mapMembers_append, Token.map]
      | _ => rfl

theorem parseFrom_cons (s : State σ) (token : Token σ) (rest : List (Token σ)) :
    parseFrom s (token :: rest) = (s.step token).bind fun s' => parseFrom s' rest := by
  rcases s with _ | _ | _ | _ | _ | ⟨t, _ | ⟨frame, stack⟩⟩ <;> rfl

/-- **The tree of a text with other strings** is the tree with other strings. -/
theorem parseFrom_map (s : State σ) (tokens : List (Token σ)) :
    parseFrom (s.map f) (tokens.map (Token.map f)) = (parseFrom s tokens).map (Tree.map f) := by
  induction tokens generalizing s with
  | nil => rcases s with _ | _ | _ | _ | _ | ⟨t, _ | ⟨frame, stack⟩⟩ <;> rfl
  | cons token rest ih =>
    rw [List.map_cons, parseFrom_cons, parseFrom_cons, step_map]
    rcases s.step token with _ | s'
    · rfl
    · exact ih s'

end Map

/-! ## The strings of a tree -/

section Strings

variable {σ τ : Type}

mutual

/-- The strings of a tree and the names in it, in the order of the text. -/
def Tree.strings : Tree σ → List σ
  | .scalar _ => []
  | .string s => [s]
  | .array items => itemStrings items
  | .object members => memberStrings members

def itemStrings : List (Tree σ) → List σ
  | [] => []
  | t :: ts => t.strings ++ itemStrings ts

def memberStrings : List (σ × Tree σ) → List σ
  | [] => []
  | (key, t) :: ms => key :: (t.strings ++ memberStrings ms)

end

theorem itemStrings_eq (items : List (Tree σ)) :
    itemStrings items = items.flatMap Tree.strings := by
  induction items with
  | nil => rfl
  | cons t ts ih => rw [itemStrings, ih, List.flatMap_cons]

theorem memberStrings_eq (members : List (σ × Tree σ)) :
    memberStrings members = members.flatMap fun m => m.1 :: m.2.strings := by
  induction members with
  | nil => rfl
  | cons m ms ih =>
    rw [memberStrings, ih, List.flatMap_cons]
    rfl

theorem itemStrings_append (done : List (Tree σ)) (t : Tree σ) :
    itemStrings (done ++ [t]) = itemStrings done ++ t.strings := by
  rw [itemStrings_eq, itemStrings_eq, List.flatMap_append, List.flatMap_singleton]

theorem memberStrings_append (done : List (σ × Tree σ)) (key : σ) (t : Tree σ) :
    memberStrings (done ++ [(key, t)]) = memberStrings done ++ key :: t.strings := by
  rw [memberStrings_eq, memberStrings_eq, List.flatMap_append, List.flatMap_singleton]

def Token.strings : Token σ → List σ
  | .string s => [s]
  | _ => []

def Frame.strings : Frame σ → List σ
  | .items done => itemStrings done
  | .members done key => memberStrings done ++ [key]

/-- The strings on a stack, the innermost container last. -/
def stackStrings : List (Frame σ) → List σ
  | [] => []
  | frame :: stack => stackStrings stack ++ frame.strings

def State.strings : State σ → List σ
  | .value stack => stackStrings stack
  | .firstItem stack => stackStrings stack
  | .firstMember stack => stackStrings stack
  | .member done stack => stackStrings stack ++ memberStrings done
  | .named done key stack => stackStrings stack ++ (memberStrings done ++ [key])
  | .after t stack => stackStrings stack ++ t.strings

theorem begin_strings {stack : List (Frame σ)} {token : Token σ} {s : State σ}
    (h : begin stack token = some s) : s.strings = stackStrings stack ++ token.strings := by
  cases token with
  | scalar a | string s =>
    obtain rfl := Option.some.inj h
    rfl
  | openArray | openObject =>
    obtain rfl := Option.some.inj h
    exact (List.append_nil _).symm
  | _ => cases h

/-- **One token**: its string is kept. -/
theorem step_strings {s s' : State σ} {token : Token σ} (h : s.step token = some s') :
    s'.strings = s.strings ++ token.strings := by
  cases s with
  | value stack => exact begin_strings h
  | firstItem stack =>
    cases token with
    | closeArray =>
      obtain rfl := Option.some.inj h
      rfl
    | scalar a | string s | openArray | openObject =>
      obtain rfl := Option.some.inj h
      simp only [State.strings, stackStrings, Frame.strings, itemStrings, Tree.strings,
        Token.strings, List.append_nil]
    | _ => cases h
  | firstMember stack =>
    cases token with
    | closeObject | string key =>
      obtain rfl := Option.some.inj h
      rfl
    | _ => cases h
  | member done stack =>
    cases token with
    | string key =>
      obtain rfl := Option.some.inj h
      exact (List.append_assoc ..).symm
    | _ => cases h
  | named done key stack =>
    cases token with
    | colon =>
      obtain rfl := Option.some.inj h
      exact (List.append_nil _).symm
    | _ => cases h
  | after t stack =>
    rcases stack with _ | ⟨done | ⟨done, key⟩, stack⟩
    · cases token <;> cases h
    · cases token with
      | comma | closeArray =>
        obtain rfl := Option.some.inj h
        simp only [State.strings, stackStrings, Frame.strings, Tree.strings, itemStrings_append,
          Token.strings, List.append_nil, List.append_assoc]
      | _ => cases h
    · cases token with
      | comma | closeObject =>
        obtain rfl := Option.some.inj h
        simp only [State.strings, stackStrings, Frame.strings, Tree.strings, memberStrings_append,
          Token.strings, List.append_nil, List.append_assoc, List.cons_append, List.nil_append]
      | _ => cases h

/-- **The strings of the tree** are those of the tokens. -/
theorem parseFrom_strings {s : State σ} {tokens : List (Token σ)} {t : Tree σ}
    (h : parseFrom s tokens = some t) : t.strings = s.strings ++ tokens.flatMap Token.strings := by
  induction tokens generalizing s with
  | nil =>
    rcases s with _ | _ | _ | _ | _ | ⟨u, _ | ⟨frame, stack⟩⟩
    all_goals first | (obtain rfl := Option.some.inj h; exact (List.append_nil _).symm) | cases h
  | cons token rest ih =>
    rw [parseFrom_cons] at h
    obtain ⟨s', hs, hrest⟩ := Option.bind_eq_some_iff.mp h
    rw [ih hrest, step_strings hs, List.flatMap_cons, List.append_assoc]

end Strings

/-! ## Values of trees -/

section Values

theorem itemValues_eq (items : List (Tree Units)) : itemValues items = items.map Tree.value := by
  induction items with
  | nil => rfl
  | cons t ts ih => rw [itemValues, ih, List.map_cons]

theorem memberValues_eq (members : List (Units × Tree Units)) :
    memberValues members = members.map fun m => (m.1, m.2.value) := by
  induction members with
  | nil => rfl
  | cons m ms ih => rw [memberValues, ih, List.map_cons]

mutual

/-- No object of the tree has two members with one name. -/
def Tree.Distinct : Tree Units → Prop
  | .scalar _ => True
  | .string _ => True
  | .array items => DistinctItems items
  | .object members => (members.map Prod.fst).Nodup ∧ DistinctMembers members

def DistinctItems : List (Tree Units) → Prop
  | [] => True
  | t :: ts => t.Distinct ∧ DistinctItems ts

def DistinctMembers : List (Units × Tree Units) → Prop
  | [] => True
  | (_, t) :: ms => t.Distinct ∧ DistinctMembers ms

end

theorem distinctItems_iff {items : List (Tree Units)} :
    DistinctItems items ↔ ∀ t ∈ items, t.Distinct := by
  induction items with
  | nil => exact iff_of_true trivial fun t ht => by cases ht
  | cons t ts ih => rw [DistinctItems, ih, List.forall_mem_cons]

theorem distinctMembers_iff {members : List (Units × Tree Units)} :
    DistinctMembers members ↔ ∀ m ∈ members, m.2.Distinct := by
  induction members with
  | nil => exact iff_of_true trivial fun t ht => by cases ht
  | cons m ms ih => rw [DistinctMembers, ih, List.forall_mem_cons]

/-- The member that was put in last. -/
theorem fields_append (members : List (Units × Value)) (key : Units) (v : Value) :
    fields (members ++ [(key, v)]) = Function.update (fields members) key (some v) := by
  rw [fields, List.foldl_append]
  rfl

/-- An object has the members that were put into it. -/
theorem fields_eq_none_iff {members : List (Units × Value)} {key : Units} :
    fields members key = none ↔ key ∉ members.map Prod.fst := by
  induction members using List.reverseRecOn with
  | nil => exact iff_of_true rfl List.not_mem_nil
  | append_singleton ms m ih =>
    obtain ⟨k, v⟩ := m
    rw [fields_append, List.map_append, List.mem_append, not_or, ← ih, List.map_singleton,
      List.mem_singleton]
    by_cases hk : key = k
    · subst hk
      rw [Function.update_self]
      exact iff_of_false (fun h => by cases h) fun h => h.2 rfl
    · rw [Function.update_of_ne hk]
      exact (and_iff_left hk).symm

/-- If no name is repeated, each member is found. -/
theorem fields_of_mem {members : List (Units × Value)} (hnodup : (members.map Prod.fst).Nodup)
    {m : Units × Value} (hm : m ∈ members) : fields members m.1 = some m.2 := by
  induction members using List.reverseRecOn with
  | nil => cases hm
  | append_singleton ms n ih =>
    obtain ⟨k, v⟩ := n
    rw [List.map_append, List.map_singleton] at hnodup
    rw [fields_append]
    rcases List.mem_append.mp hm with hm | hm
    · have hne : m.1 ≠ k := fun hk => (List.nodup_append.mp hnodup).2.2 m.1
        (List.mem_map_of_mem hm) k (List.mem_singleton_self k) hk
      rw [Function.update_of_ne hne]
      exact ih (List.nodup_append.mp hnodup).1 hm
    · obtain rfl := List.mem_singleton.mp hm
      exact Function.update_self ..

theorem map_fst_memberValues (members : List (Units × Tree Units)) :
    (memberValues members).map Prod.fst = members.map Prod.fst := by
  rw [memberValues_eq, List.map_map]
  rfl

/-- If no name is repeated, the value of each member is found. -/
theorem fields_memberValues {members : List (Units × Tree Units)}
    (hnodup : (members.map Prod.fst).Nodup) {m : Units × Tree Units} (hm : m ∈ members) :
    fields (memberValues members) m.1 = some m.2.value := by
  refine fields_of_mem (m := (m.1, m.2.value)) (map_fst_memberValues members ▸ hnodup) ?_
  rw [memberValues_eq]
  exact List.mem_map_of_mem (f := fun m : Units × Tree Units => (m.1, m.2.value)) hm

/-- Objects with the same members have the same names, if one of them repeats none. -/
theorem perm_of_fields_eq {a b : List (Units × Value)} (hnodup : (a.map Prod.fst).Nodup)
    (hlength : a.length = b.length) (h : fields a = fields b) :
    (a.map Prod.fst).Perm (b.map Prod.fst) := by
  have hsubset : a.map Prod.fst ⊆ b.map Prod.fst := by
    intro key hkey
    by_contra hnot
    -- a name that the second object has not is none of the first either
    have hnone := fields_eq_none_iff.mpr hnot
    rw [← h] at hnone
    exact fields_eq_none_iff.mp hnone hkey
  refine (List.subperm_of_subset hnodup hsubset).perm_of_length_le ?_
  rw [List.length_map, List.length_map, hlength]

variable {μ : Units → ℕ}

/-- The second string weighs at least as much as the first, and as much only if it is the first. -/
def Heavier (μ : Units → ℕ) (p : Units × Units) : Prop :=
  μ p.1 ≤ μ p.2 ∧ (μ p.1 = μ p.2 → p.1 = p.2)

/-- **Names that weigh as much together as before have all stayed.** -/
theorem names_eq {α : Type} {names : α → Units × Units} {members : List α}
    (hheavier : ∀ m ∈ members, Heavier μ (names m))
    (hperm : (members.map fun m => (names m).1).Perm (members.map fun m => (names m).2)) :
    ∀ m ∈ members, (names m).1 = (names m).2 := by
  have hsum := (hperm.map μ).sum_eq
  rw [List.map_map, List.map_map] at hsum
  intro m hm
  by_contra hne
  have hlt : μ (names m).1 < μ (names m).2 :=
    lt_of_le_of_ne (hheavier m hm).1 fun heq => hne ((hheavier m hm).2 heq)
  exact hsum.not_lt (List.sum_lt_sum _ _ (fun n hn => (hheavier n hn).1) ⟨m, hm, hlt⟩)

/-- **Values that agree have agreeing strings.** -/
theorem strings_eq_of_value_eq {z : Tree (Units × Units)} (hz : ∀ p ∈ z.strings, Heavier μ p)
    (hdistinct : (z.map Prod.fst).Distinct)
    (hvalue : (z.map Prod.fst).value = (z.map Prod.snd).value) : ∀ p ∈ z.strings, p.1 = p.2 := by
  induction z using Tree.induct with
  | scalar a => exact fun p hp => by cases hp
  | string s =>
    intro p hp
    obtain rfl := List.mem_singleton.mp hp
    exact Value.string.inj hvalue
  | array items ih =>
    simp only [Tree.map, Tree.value, Tree.Distinct, itemValues_eq, mapItems_eq, List.map_map,
      distinctItems_iff, List.forall_mem_map, Value.array.injEq,
      List.map_inj_left] at hdistinct hvalue
    rw [Tree.strings, itemStrings_eq] at hz ⊢
    intro p hp
    obtain ⟨t, ht, hpt⟩ := List.mem_flatMap.mp hp
    exact ih t ht (fun q hq => hz q (List.mem_flatMap.mpr ⟨t, ht, hq⟩)) (hdistinct t ht)
      (hvalue t ht) p hpt
  | object members ih =>
    simp only [Tree.map, Tree.value, Tree.Distinct, memberValues_eq, mapMembers_eq, List.map_map,
      distinctMembers_iff, List.forall_mem_map, Value.object.injEq] at hdistinct hvalue
    rw [Tree.strings, memberStrings_eq] at hz ⊢
    obtain ⟨hnodup, hdistinct⟩ := hdistinct
    have hheavier : ∀ m ∈ members, Heavier μ m.1 := fun m hm =>
      hz m.1 (List.mem_flatMap.mpr ⟨m, hm, List.mem_cons_self ..⟩)
    generalize ha : members.map ((fun m : Units × Tree Units => (m.1, m.2.value)) ∘
      fun m : (Units × Units) × Tree (Units × Units) => (m.1.1, m.2.map Prod.fst)) = a at hvalue
    generalize hb : members.map ((fun m : Units × Tree Units => (m.1, m.2.value)) ∘
      fun m : (Units × Units) × Tree (Units × Units) => (m.1.2, m.2.map Prod.snd)) = b at hvalue
    have hkeys : a.map Prod.fst = members.map fun m => m.1.1 := by rw [← ha, List.map_map]; rfl
    have hkeys' : b.map Prod.fst = members.map fun m => m.1.2 := by rw [← hb, List.map_map]; rfl
    have hnodup' : (a.map Prod.fst).Nodup := by rw [hkeys]; exact hnodup
    -- the names of both objects are the same as a whole, so each has stayed by its weight
    have hperm := perm_of_fields_eq hnodup' (by rw [← ha, ← hb, List.length_map, List.length_map])
      hvalue
    rw [hkeys, hkeys'] at hperm
    have hnames := names_eq hheavier hperm
    have hsame : b.map Prod.fst = a.map Prod.fst := by
      rw [hkeys, hkeys']
      exact List.map_inj_left.mpr fun m hm => (hnames m hm).symm
    intro p hp
    obtain ⟨m, hm, hpm⟩ := List.mem_flatMap.mp hp
    rcases List.mem_cons.mp hpm with rfl | hpm
    · exact hnames m hm
    · -- the member with this name is this member in both
      have hfirst := fields_of_mem hnodup' (m := (m.1.1, (m.2.map Prod.fst).value))
        (ha ▸ List.mem_map_of_mem hm)
      have hsecond := fields_of_mem (hsame ▸ hnodup') (m := (m.1.2, (m.2.map Prod.snd).value))
        (hb ▸ List.mem_map_of_mem hm)
      rw [← hvalue, ← hnames m hm, hfirst] at hsecond
      exact ih m hm (fun q hq => hz q (List.mem_flatMap.mpr ⟨m, hm, List.mem_cons_of_mem _ hq⟩))
        (hdistinct m hm) (Option.some.inj hsecond) p hpm

end Values

end Marketplace.Json
