import Marketplace.Auth

/-!
# What a transaction makes of the refresh tokens

The abstract side of `login`, `refresh` and `logout`: a committed transaction
starts a family, exchanges the unused row of a family for a new one, or revokes
rows of a family (`TokenStep`). Each keeps the chains: a family has one row that
is not used. What is used stays used, and what is revoked stays revoked.
-/

namespace Marketplace

/-- Set `revoked_at` on the rows with these ids. -/
def revokeAll (ids : List ℕ) (now : ℤ) (rows : List RefreshToken) : List RefreshToken :=
  rows.map fun r => if r.id ∈ ids then r.revoke now else r

/-- Exchange a row for its successor. -/
def exchange (id : ℕ) (now : ℤ) (next : RefreshToken) (rows : List RefreshToken) :
    List RefreshToken :=
  Table.modify RefreshToken.id id (RefreshToken.use now) rows ++ [next]

/-- The row can be inserted: it is not used, and its keys are new. -/
structure RefreshToken.New (next : RefreshToken) (rows : List RefreshToken) : Prop where
  unused : next.usedAt = none
  id : ∀ r ∈ rows, r.id ≠ next.id
  hash : ∀ r ∈ rows, r.tokenHash ≠ next.tokenHash

/-- What one committed transaction makes of the rows. -/
inductive TokenStep (rows : List RefreshToken) : List RefreshToken → Prop
  | same : TokenStep rows rows
  | login {next : RefreshToken} (hnew : next.New rows)
    (hfamily : ∀ r ∈ rows, r.familyId ≠ next.familyId) : TokenStep rows (rows ++ [next])
  | rotate {row next : RefreshToken} {now : ℤ} (hrow : row ∈ rows) (hunused : row.usedAt = none)
    (hlive : row.revokedAt = none) (hnew : next.New rows)
    (hfamily : next.familyId = row.familyId) : TokenStep rows (exchange row.id now next rows)
  | revoke {familyId : String} {ids : List ℕ} {now : ℤ}
    (hids : ∀ id ∈ ids, ∃ r ∈ rows, r.id = id ∧ r.familyId = familyId ∧ r.revokedAt = none) :
    TokenStep rows (revokeAll ids now rows)

/-! ## Keys -/

section Keys

variable {rows rows' : List RefreshToken} {ids : List ℕ} {id : ℕ} {now : ℤ} {next : RefreshToken}

theorem map_revokeAll {γ : Type} {g : RefreshToken → γ} (hg : ∀ r, g (r.revoke now) = g r) :
    (revokeAll ids now rows).map g = rows.map g := by
  rw [revokeAll, List.map_map]
  refine List.map_congr_left fun r _ => ?_
  simp only [Function.comp_apply]
  split_ifs
  · exact hg r
  · rfl

theorem map_exchange {γ : Type} {g : RefreshToken → γ} (hg : ∀ r, g (r.use now) = g r) :
    (exchange id now next rows).map g = rows.map g ++ [g next] := by
  rw [exchange, List.map_append, Table.map_modify hg, List.map_singleton]

theorem nodup_append_new {γ : Type} {xs : List γ} {a : γ} (h : xs.Nodup) (ha : a ∉ xs) :
    (xs ++ [a]).Nodup := by
  refine List.Nodup.append h (List.nodup_singleton _) ?_
  rwa [List.disjoint_singleton]

/-- Every step keeps a key distinct that neither use nor revocation changes. -/
theorem TokenStep.nodup {γ : Type} {g : RefreshToken → γ} (h : TokenStep rows rows')
    (huse : ∀ now r, g (RefreshToken.use now r) = g r)
    (hrevoke : ∀ now r, g (RefreshToken.revoke now r) = g r)
    (hnew : ∀ next : RefreshToken, next.New rows → ∀ r ∈ rows, g r ≠ g next)
    (hnodup : (rows.map g).Nodup) : (rows'.map g).Nodup := by
  have hfresh : ∀ next : RefreshToken, next.New rows → g next ∉ rows.map g := by
    intro next hn hmem
    obtain ⟨r, hr, heq⟩ := List.mem_map.mp hmem
    exact hnew next hn r hr heq
  cases h with
  | same => exact hnodup
  | @login next hn hfamily =>
    rw [List.map_append]
    exact nodup_append_new hnodup (hfresh next hn)
  | @rotate row next now hrow hunused hlive hn hfamily =>
    rw [map_exchange (huse now)]
    exact nodup_append_new hnodup (hfresh next hn)
  | @revoke familyId ids now hids =>
    rw [map_revokeAll (hrevoke now)]
    exact hnodup

end Keys

/-! ## Chains -/

section Chains

variable {rows rows' : List RefreshToken} {familyId : String}

theorem mem_unused {r : RefreshToken} :
    r ∈ unused familyId rows ↔ r ∈ rows ∧ r.familyId = familyId ∧ r.usedAt = none := by
  simp [unused]

/-- Revocation changes the rows of a chain, not their number. -/
theorem unused_revokeAll {ids : List ℕ} {now : ℤ} :
    unused familyId (revokeAll ids now rows) = revokeAll ids now (unused familyId rows) := by
  unfold unused revokeAll
  rw [List.filter_map]
  congr 1
  refine List.filter_congr fun r _ => ?_
  simp only [Function.comp_apply]
  split_ifs
  · rfl
  · rfl

theorem unused_append_of_ne {next : RefreshToken} (h : next.familyId ≠ familyId) :
    unused familyId (rows ++ [next]) = unused familyId rows := by
  rw [unused, List.filter_append, List.filter_cons_of_neg (by simp [h]), List.filter_nil,
    List.append_nil]
  rfl

theorem unused_append_of_eq {next : RefreshToken} (h : next.familyId = familyId)
    (hunused : next.usedAt = none) :
    unused familyId (rows ++ [next]) = unused familyId rows ++ [next] := by
  rw [unused, List.filter_append, List.filter_cons_of_pos (by simp [h, hunused]),
    List.filter_nil]
  rfl

/-- Using a row takes it out of its chain. -/
theorem unused_modify {id : ℕ} {now : ℤ} :
    unused familyId (Table.modify RefreshToken.id id (RefreshToken.use now) rows)
      = (unused familyId rows).filter fun r => r.id ≠ id := by
  unfold unused Table.modify
  induction rows with
  | nil => rfl
  | cons r rs ih =>
    rw [List.map_cons]
    by_cases hid : r.id = id
    · rw [if_pos hid, List.filter_cons_of_neg (by simp [RefreshToken.use]), ih]
      by_cases hr : r.familyId = familyId ∧ r.usedAt = none
      · rw [List.filter_cons_of_pos (by simpa using hr), List.filter_cons_of_neg (by simp [hid])]
      · rw [List.filter_cons_of_neg (by simpa using hr)]
    · rw [if_neg hid]
      by_cases hr : r.familyId = familyId ∧ r.usedAt = none
      · rw [List.filter_cons_of_pos (by simpa using hr),
          List.filter_cons_of_pos (by simpa using hr),
          List.filter_cons_of_pos (by simpa using hid), ih]
      · rw [List.filter_cons_of_neg (by simpa using hr),
          List.filter_cons_of_neg (by simpa using hr), ih]

/-- **Every step keeps the chains**: a family with rows has one that is not used. -/
theorem TokenStep.chains (h : TokenStep rows rows')
    (hids : (rows.map RefreshToken.id).Nodup)
    (hchains : ∀ r ∈ rows, ∃ last, unused r.familyId rows = [last]) :
    ∀ r ∈ rows', ∃ last, unused r.familyId rows' = [last] := by
  cases h with
  | same => exact hchains
  | @login next hnew hfamily =>
    intro r hr
    by_cases hf : next.familyId = r.familyId
    · -- the family is new, so its row is the only one
      have hnil : unused r.familyId rows = [] := by
        rw [List.eq_nil_iff_forall_not_mem]
        intro r' hr'
        obtain ⟨hmem, hfam, _⟩ := mem_unused.mp hr'
        exact hfamily r' hmem (hfam.trans hf.symm)
      exact ⟨next, by rw [unused_append_of_eq hf hnew.unused, hnil, List.nil_append]⟩
    · rw [unused_append_of_ne hf]
      rcases List.mem_append.mp hr with hr | hr
      · exact hchains r hr
      · obtain rfl := List.mem_singleton.mp hr
        exact absurd rfl hf
  | @rotate row next now hrow hunused hlive hnew hfamily =>
    -- the last row of its family is the one exchanged
    have hlast : unused row.familyId rows = [row] := by
      obtain ⟨last, hlast⟩ := hchains row hrow
      have hmem : row ∈ unused row.familyId rows := mem_unused.mpr ⟨hrow, rfl, hunused⟩
      rw [hlast] at hmem ⊢
      rw [List.mem_singleton.mp hmem]
    intro r hr
    rw [exchange] at hr ⊢
    by_cases hf : next.familyId = r.familyId
    · refine ⟨next, ?_⟩
      rw [unused_append_of_eq hf hnew.unused, unused_modify, ← hf, hfamily, hlast,
        List.filter_cons_of_neg (by simp), List.filter_nil, List.nil_append]
    · rw [unused_append_of_ne hf, unused_modify]
      have hr' : ∃ r₀ ∈ rows, r₀.familyId = r.familyId := by
        rcases List.mem_append.mp hr with hr | hr
        · obtain ⟨r₀, hr₀, rfl⟩ := Table.mem_modify.mp hr
          refine ⟨r₀, hr₀, ?_⟩
          split_ifs
          · rfl
          · rfl
        · obtain rfl := List.mem_singleton.mp hr
          exact absurd rfl hf
      obtain ⟨r₀, hr₀, hfam⟩ := hr'
      obtain ⟨last, hone⟩ := hchains r₀ hr₀
      rw [hfam] at hone
      refine ⟨last, ?_⟩
      have hmem : last ∈ unused r.familyId rows := by
        rw [hone]
        exact List.mem_singleton_self _
      obtain ⟨hmem, hlf, _⟩ := mem_unused.mp hmem
      have hne : last.id ≠ row.id := by
        intro hid
        obtain rfl := List.inj_on_of_nodup_map hids hmem hrow hid
        exact hf (hfamily.trans hlf)
      rw [hone, List.filter_cons_of_pos (by simpa using hne), List.filter_nil]
  | @revoke f ids now hrows =>
    intro r hr
    obtain ⟨r₀, hr₀, rfl⟩ := List.mem_map.mp hr
    obtain ⟨last, hlast⟩ := hchains r₀ hr₀
    have hfam : (if r₀.id ∈ ids then r₀.revoke now else r₀).familyId = r₀.familyId := by
      split_ifs
      · rfl
      · rfl
    rw [hfam, unused_revokeAll, hlast]
    exact ⟨_, rfl⟩

end Chains

/-- **A committed transaction keeps the tables well formed.** -/
theorem AuthDatabase.WellFormed.tokenStep {db db' : AuthDatabase} (h : db.WellFormed)
    (hstep : TokenStep db.refreshTokens db'.refreshTokens) : db'.WellFormed where
  ids := hstep.nodup (fun _ _ => rfl) (fun _ _ => rfl) (fun _ hn => hn.id) h.ids
  hashes := hstep.nodup (fun _ _ => rfl) (fun _ _ => rfl) (fun _ hn => hn.hash) h.hashes
  chains := hstep.chains h.ids h.chains

/-! ## What is never taken back -/

/-- The rows stay, with their hash, family, use and revocation. -/
def TokensGrow (rows rows' : List RefreshToken) : Prop :=
  ∀ r ∈ rows, ∃ r' ∈ rows', r'.id = r.id ∧ r'.tokenHash = r.tokenHash ∧
    r'.familyId = r.familyId ∧ (r.usedAt ≠ none → r'.usedAt ≠ none) ∧
    (r.revokedAt ≠ none → r'.revokedAt ≠ none)

theorem TokensGrow.refl (rows : List RefreshToken) : TokensGrow rows rows :=
  fun r hr => ⟨r, hr, rfl, rfl, rfl, id, id⟩

theorem TokensGrow.trans {a b c : List RefreshToken} (h₁ : TokensGrow a b)
    (h₂ : TokensGrow b c) : TokensGrow a c := by
  intro r hr
  obtain ⟨r₁, hr₁, hid₁, hh₁, hf₁, hu₁, hv₁⟩ := h₁ r hr
  obtain ⟨r₂, hr₂, hid₂, hh₂, hf₂, hu₂, hv₂⟩ := h₂ r₁ hr₁
  exact ⟨r₂, hr₂, hid₂.trans hid₁, hh₂.trans hh₁, hf₂.trans hf₁, hu₂ ∘ hu₁, hv₂ ∘ hv₁⟩

theorem TokenStep.grow {rows rows' : List RefreshToken} (h : TokenStep rows rows') :
    TokensGrow rows rows' := by
  intro r hr
  cases h with
  | same => exact TokensGrow.refl rows r hr
  | @login next hnew hfamily =>
    exact ⟨r, List.mem_append_left _ hr, rfl, rfl, rfl, id, id⟩
  | @rotate row next now hrow hunused hlive hnew hfamily =>
    refine ⟨if r.id = row.id then r.use now else r,
      List.mem_append_left _ (Table.mem_modify.mpr ⟨r, hr, rfl⟩), ?_⟩
    split_ifs
    · exact ⟨rfl, rfl, rfl, fun _ => Option.some_ne_none _, id⟩
    · exact ⟨rfl, rfl, rfl, id, id⟩
  | @revoke familyId ids now hids =>
    refine ⟨if r.id ∈ ids then r.revoke now else r, List.mem_map.mpr ⟨r, hr, rfl⟩, ?_⟩
    split_ifs
    · exact ⟨rfl, rfl, rfl, id, fun _ => Option.some_ne_none _⟩
    · exact ⟨rfl, rfl, rfl, id, id⟩

end Marketplace
