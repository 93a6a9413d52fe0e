import Mathlib.Data.Int.Notation
import Marketplace.ReadCommitted
import Marketplace.Table

/-!
# The schema of authentication

`users` as the login reads it, `refresh_tokens` and `access_denylist`. Times are
in microseconds, as Postgres keeps them. Ids of users and families are texts,
as the code receives them.

`token_hash` has a unique index, so an `INSERT` can wait for an uncommitted row
with the same hash: that entry is a lock of its own.
-/

namespace Marketplace

/-- `ROLES` -/
inductive Role where
  | customer
  | seller
  | admin
  deriving DecidableEq

/-- A row of `users`. -/
structure Account where
  id : String
  email : String
  role : Role
  passwordHash : Option String
  deriving DecidableEq

/-- A row of `refresh_tokens`. -/
structure RefreshToken where
  id : ℕ
  tokenHash : String
  familyId : String
  userId : String
  usedAt : Option ℤ
  revokedAt : Option ℤ
  expiresAt : ℤ
  deriving DecidableEq

/-- A row of `access_denylist`. -/
structure DeniedToken where
  jti : String
  expiresAt : ℤ
  deriving DecidableEq

/-- One version of the tables. -/
structure AuthDatabase where
  users : List Account
  refreshTokens : List RefreshToken
  accessDenylist : List DeniedToken

/-- One row written. -/
inductive AuthChange where
  | insertToken (row : RefreshToken)
  | setUsed (id : ℕ) (now : ℤ)
  | setRevoked (id : ℕ) (now : ℤ)
  | insertDenied (row : DeniedToken)
  | deleteDenied (jti : String)
  deriving DecidableEq

/-- What a statement can wait for. -/
inductive AuthLock where
  | token (id : ℕ)
  | tokenHash (hash : String)
  | denied (jti : String)
  deriving DecidableEq

/-- `SET used_at = now()` -/
def RefreshToken.use (now : ℤ) (r : RefreshToken) : RefreshToken := { r with usedAt := some now }

/-- `SET revoked_at = now()` -/
def RefreshToken.revoke (now : ℤ) (r : RefreshToken) : RefreshToken :=
  { r with revokedAt := some now }

namespace AuthDatabase

/-- Carry a change out. -/
def redo (db : AuthDatabase) : AuthChange → AuthDatabase
  | .insertToken row => { db with refreshTokens := db.refreshTokens ++ [row] }
  | .setUsed id now =>
    { db with
      refreshTokens := Table.modify RefreshToken.id id (RefreshToken.use now) db.refreshTokens }
  | .setRevoked id now =>
    { db with
      refreshTokens := Table.modify RefreshToken.id id (RefreshToken.revoke now) db.refreshTokens }
  | .insertDenied row => { db with accessDenylist := db.accessDenylist ++ [row] }
  | .deleteDenied jti =>
    { db with accessDenylist := Table.remove DeniedToken.jti jti db.accessDenylist }

/-- The contents of the row a lock guards. -/
def Row : AuthLock → Type
  | .token _ => Option RefreshToken
  | .tokenHash _ => Bool
  | .denied _ => Option DeniedToken

/-- Read the row a lock guards. -/
def row (db : AuthDatabase) : (l : AuthLock) → Row l
  | .token id => Table.lookup RefreshToken.id id db.refreshTokens
  | .tokenHash hash => decide (hash ∈ db.refreshTokens.map RefreshToken.tokenHash)
  | .denied jti => Table.lookup DeniedToken.jti jti db.accessDenylist

end AuthDatabase

/-- The rows a change writes. -/
def AuthChange.Touches : AuthChange → AuthLock → Prop
  | .insertToken row, l => l = .token row.id ∨ l = .tokenHash row.tokenHash
  | .setUsed id _, l => l = .token id
  | .setRevoked id _, l => l = .token id
  | .insertDenied row, l => l = .denied row.jti
  | .deleteDenied jti, l => l = .denied jti

/-- A change leaves the rows alone that it does not touch. -/
theorem AuthDatabase.row_redo (db : AuthDatabase) (c : AuthChange) (l : AuthLock)
    (h : ¬ c.Touches l) : (db.redo c).row l = db.row l := by
  cases c with
  | insertToken row =>
    cases l with
    | token id => exact Table.lookup_append_ne fun hk => h (.inl (by rw [← hk]))
    | tokenHash hash =>
      have hne : hash ≠ row.tokenHash := fun hk => h (.inr (by rw [hk]))
      refine decide_eq_decide.mpr ?_
      change hash ∈ (db.refreshTokens ++ [row]).map RefreshToken.tokenHash ↔ _
      rw [List.map_append, List.mem_append, List.map_singleton, List.mem_singleton]
      exact or_iff_left hne
    | denied jti => rfl
  | setUsed id now =>
    cases l with
    | token id' => exact Table.lookup_modify_ne (fun _ => rfl) fun hk => h (by rw [hk]; rfl)
    | tokenHash hash =>
      have hsame : (db.redo (.setUsed id now)).refreshTokens.map RefreshToken.tokenHash
          = db.refreshTokens.map RefreshToken.tokenHash := Table.map_modify fun _ => rfl
      exact decide_eq_decide.mpr (by rw [hsame])
    | denied jti => rfl
  | setRevoked id now =>
    cases l with
    | token id' => exact Table.lookup_modify_ne (fun _ => rfl) fun hk => h (by rw [hk]; rfl)
    | tokenHash hash =>
      have hsame : (db.redo (.setRevoked id now)).refreshTokens.map RefreshToken.tokenHash
          = db.refreshTokens.map RefreshToken.tokenHash := Table.map_modify fun _ => rfl
      exact decide_eq_decide.mpr (by rw [hsame])
    | denied jti => rfl
  | insertDenied row =>
    cases l with
    | denied jti => exact Table.lookup_append_ne fun hk => h (by rw [← hk]; rfl)
    | _ => rfl
  | deleteDenied jti =>
    cases l with
    | denied jti' => exact Table.lookup_remove_ne fun hk => h (by rw [hk]; rfl)
    | _ => rfl

instance : Redo AuthDatabase AuthChange AuthLock where
  redo := AuthDatabase.redo
  Row := AuthDatabase.Row
  row := AuthDatabase.row
  Touches := AuthChange.Touches
  row_redo := AuthDatabase.row_redo

end Marketplace
