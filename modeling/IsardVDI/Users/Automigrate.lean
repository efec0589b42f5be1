import IsardVDI.Lib.Fallible
import IsardVDI.Lib.Machine

/-!
# Users — the automatic migration of a user

`process_automigrate_user` gives what a user owns to another one, and then deletes or disables the
first if the provider is configured so. Each of the four changes of owner is an input: it returns
or it raises.

The errors are written to the row of the migration, and the verdict is taken from the dictionary
`automigrate_user` returns, which never has one (`automigrateUser_progress`). So a migration ends
as `migrated` whatever the changes did, and **`automigrate_safe_iff`** says when that is right.

The target, the times of the row and the notices to the user are left out: nothing here reads them.
-/

namespace IsardVDI.Users

open Function

/-- The keys of `get_user_resources`. -/
inductive Resource where
  | desktops
  | templates
  | media
  | deployments
  deriving DecidableEq, Repr

/-- How a change of owner ends: an `Error` has a text, any other exception is not looked at. -/
inductive Outcome where
  | returned
  | error (text : String)
  | raised
  deriving DecidableEq, Repr

inductive MigrationStatus where
  | imported
  | migrating
  | migrated
  | failed
  deriving DecidableEq, Repr

structure MigrationRow where
  status : MigrationStatus
  items : Option (Resource → List String)
  migrated : Resource → Option Bool
  error : Resource → Option String

inductive AfterMigrate where
  | delete
  | disable
  deriving DecidableEq, Repr

/-- What the functions read: the items of the origin user, how the changes of owner end, the
entries of the recycle bin, and `action_after_migrate` of the provider. -/
structure Origin where
  userId : String
  resources : Resource → List String
  changeOwner : Resource → Outcome
  recycled : List String
  actionAfterMigrate : String

/-- `description_code` of the error `update_user_migration` raises. -/
inductive MigrationError where
  | multipleMigrationsFoundToken
  deriving DecidableEq, Repr

def updateUserMigration (rows : List MigrationRow) (data : MigrationRow → MigrationRow) :
    Except MigrationError (List MigrationRow) :=
  if rows.length > 1 then .error .multipleMigrationsFoundToken else .ok (rows.map data)

def Outcome.record (k : Resource) : Outcome → MigrationRow → MigrationRow
  | .returned, row => { row with migrated := update row.migrated k (some true) }
  | .error text, row =>
    { row with
      migrated := update row.migrated k (some false)
      error := update row.error k (some text) }
  | .raised, row =>
    { row with
      migrated := update row.migrated k (some false)
      error := update row.error k (some "unknown") }

variable (origin : Origin) (rows : List MigrationRow)

/-- One of the four blocks of `automigrate_user`. -/
def migrateResource (k : Resource) : Except MigrationError (List MigrationRow) :=
  if origin.resources k = [] then .ok rows
  else updateUserMigration rows ((origin.changeOwner k).record k)

/-- What `automigrate_user` leaves: the rows, the entries put in the queue of deletions, and the
dictionary it returns. -/
structure Automigrated where
  rows : List MigrationRow
  deletions : List String
  progress : List (String × Bool)

def automigrateUser : Except MigrationError Automigrated := do
  let rows ← updateUserMigration rows ({ · with items := some origin.resources })
  let rows ← [.desktops, .templates, .media, .deployments].foldlM (migrateResource origin) rows
  return ⟨rows, origin.recycled, [("rb_deleted", true)]⟩

def defaultAdminId : String := "local-default-admin-admin"

def Origin.afterMigrate : Option AfterMigrate :=
  if origin.actionAfterMigrate ≠ "" ∧ origin.userId = defaultAdminId then none
  else if origin.actionAfterMigrate = "delete" then some .delete
  else if origin.actionAfterMigrate = "disable" then some .disable
  else none

/-- `process_automigrate_user`: the rows of the token at the end, and what was done to the origin
user. -/
def processAutomigrateUser : Except MigrationError (List MigrationRow × Option AfterMigrate) := do
  let rows ← updateUserMigration rows ({ · with status := .migrating })
  let result ← automigrateUser origin rows
  if ["desktops_error", "templates_error", "media_error", "deployments_error"].any fun s =>
      result.progress.any fun entry => entry.1 = s then
    return (← updateUserMigration result.rows ({ · with status := .failed }), none)
  else
    return (← updateUserMigration result.rows ({ · with status := .migrated }),
      origin.afterMigrate)

/-! ## The verdict -/

section Verdict

variable (origin : Origin) {rows : List MigrationRow}

theorem updateUserMigration_ok (h : rows.length ≤ 1) (data : MigrationRow → MigrationRow) :
    updateUserMigration rows data = .ok (rows.map data) :=
  if_neg (Nat.not_lt.2 h)

theorem automigrateUser_progress (h : rows.length ≤ 1) :
    ∃ rows', rows'.length = rows.length ∧
      automigrateUser origin rows = .ok ⟨rows', origin.recycled, [("rb_deleted", true)]⟩ := by
  have hblock : ∀ rows' k, rows'.length = rows.length →
      EndsIn (·.length = rows.length) (fun _ => False) (migrateResource origin rows' k) := by
    intro rows' k hlen
    rw [migrateResource]
    split
    · exact hlen
    · rw [updateUserMigration_ok (hlen ▸ h)]
      exact (List.length_map _).trans hlen
  have hblocks := foldlM_invariant (b := rows.map ({ · with items := some origin.resources }))
    (l := [.desktops, .templates, .media, .deployments]) (fun rows' k _ => hblock rows' k)
    (List.length_map _)
  simp only [automigrateUser, updateUserMigration_ok h, bind, Except.bind]
  split
  · rename_i e herror
    rw [herror] at hblocks
    exact hblocks.elim
  · rename_i rows' hok
    rw [hok] at hblocks
    exact ⟨rows', hblocks, rfl⟩

/-- **A migration ends as migrated**, whatever the changes of owner did. -/
theorem processAutomigrateUser_migrates (h : rows.length ≤ 1) :
    ∃ rows', rows'.length = rows.length ∧ (∀ row ∈ rows', row.status = .migrated) ∧
      processAutomigrateUser origin rows = .ok (rows', origin.afterMigrate) := by
  have hstart : (rows.map ({ · with status := .migrating })).length ≤ 1 := by simpa using h
  obtain ⟨rows', hlen, hrun⟩ := automigrateUser_progress origin hstart
  rw [List.length_map] at hlen
  refine ⟨rows'.map ({ · with status := .migrated }), by simpa using hlen, by simp, ?_⟩
  simp [processAutomigrateUser, updateUserMigration_ok h, hrun, bind, Except.bind,
    updateUserMigration_ok (hlen ▸ h), pure, Except.pure]

/-- The migration is recorded as done, or the origin user is deleted or disabled. -/
def Settled (final : List MigrationRow × Option AfterMigrate) : Prop :=
  (∃ row ∈ final.1, row.status = .migrated) ∨ final.2 ≠ none

def Origin.AllMoved : Prop :=
  ∀ k, origin.resources k ≠ [] → origin.changeOwner k = .returned

/-- **A migration is settled only when everything moved** exactly if everything moved, or nothing
is settled at all: several rows have the token, or none has and the origin user is left alone. -/
theorem automigrate_safe_iff (rows : List MigrationRow) :
    (∀ final, processAutomigrateUser origin rows = .ok final → Settled final → origin.AllMoved) ↔
      origin.AllMoved ∨ 1 < rows.length ∨ rows = [] ∧ origin.afterMigrate = none := by
  by_cases hlen : 1 < rows.length
  · have hfails : ∀ final, processAutomigrateUser origin rows ≠ .ok final := by
      simp [processAutomigrateUser, updateUserMigration, hlen, bind, Except.bind]
    exact iff_of_true (fun final h => absurd h (hfails final)) (.inr (.inl hlen))
  · obtain ⟨rows', hlen', hstatus, hrun⟩ :=
      processAutomigrateUser_migrates origin (Nat.not_lt.1 hlen)
    have hsettled : Settled (rows', origin.afterMigrate) ↔
        ¬(rows = [] ∧ origin.afterMigrate = none) := by
      cases rows' with
      | nil =>
        have hnil : rows = [] := List.eq_nil_of_length_eq_zero hlen'.symm
        simp [Settled, hnil]
      | cons row rows' =>
        have hne : rows ≠ [] := List.ne_nil_of_length_eq_add_one hlen'.symm
        exact iff_of_true (.inl ⟨row, .head _, hstatus row (.head _)⟩)
          fun h => hne h.1
    simp only [hrun, Except.ok.injEq, forall_eq', hsettled, hlen, false_or]
    tauto

end Verdict

/-- The desktops of `ana` do not fit in the quota of the target. -/
def overQuota : Origin where
  userId := "ana"
  resources
    | .desktops => ["atlas"]
    | _ => []
  changeOwner
    | .desktops => .error "Quota exceeded"
    | _ => .returned
  recycled := []
  actionAfterMigrate := "delete"

/-- The row says that the desktops did not move, and the origin user is deleted with them. -/
theorem overQuota_deleted :
    (processAutomigrateUser overQuota [⟨.imported, none, fun _ => none, fun _ => none⟩]).map
        (fun final => (final.1.map fun row => (row.status, row.migrated .desktops,
          row.error .desktops), final.2)) =
      .ok ([(.migrated, some false, some "Quota exceeded")], some .delete) := by
  decide

/-! ## Revoking a migration that runs -/

/-- The migration itself writes neither `exported` nor `revoked`. -/
inductive RowStatus where
  | exported
  | revoked
  | of (status : MigrationStatus)
  deriving DecidableEq, Repr

/-- The row of a migration between two operations of the database. `revoking` says that
`revoke_user_migration` has read a status it accepts, and `updates` are the statuses that
`process_automigrate_user` has still to write: `migrating`, and `migrated` or `failed`. -/
structure Revocation where
  status : RowStatus
  revoking : Bool
  updates : List MigrationStatus
  deriving DecidableEq, Repr

inductive Operation where
  | read
  | revoke
  | update
  deriving DecidableEq, Repr

/-- `update_user_migration` counts the rows of the token in an operation of its own. None of the
others changes that number, so it is a parameter. -/
def Revocation.next (total : Nat) (s : Revocation) : Operation → Option Revocation
  | .read =>
    if s.revoking then none
    else some { s with revoking := s.status ∈ [.exported, .of .imported, .of .migrating] }
  | .revoke => if s.revoking then some { s with status := .revoked, revoking := false } else none
  | .update =>
    match s.updates with
    | [] => none
    | status :: updates =>
      -- the error ends `process_automigrate_user`
      if total > 1 then some { s with updates := [] }
      else if 0 < total then some { s with status := .of status, updates := updates }
      else some { s with updates := updates }

def revocations (total : Nat) : Machine Revocation Operation where
  next := Revocation.next total

/-- Nothing will be written over the revocation. -/
def Revocation.Final (total : Nat) (s : Revocation) : Prop :=
  s.status = .revoked ∧ (s.updates = [] ∨ total ≠ 1)

theorem Revocation.Final.next {total : Nat} {s s' : Revocation} {op : Operation}
    (hs : s.Final total) (h : s.next total op = some s') : s'.Final total := by
  obtain ⟨hstatus, hfinal⟩ := hs
  cases op with
  | read =>
    obtain ⟨-, h⟩ := Option.ite_none_left_eq_some.1 h
    cases h
    exact ⟨hstatus, hfinal⟩
  | revoke =>
    obtain ⟨-, h⟩ := Option.ite_none_right_eq_some.1 h
    cases h
    exact ⟨rfl, hfinal⟩
  | update =>
    simp only [Revocation.next] at h
    split at h
    · cases h
    · have htotal : total ≠ 1 := by simp_all
      split_ifs at h
      · cases h
        exact ⟨hstatus, .inr htotal⟩
      · omega
      · cases h
        exact ⟨hstatus, .inr htotal⟩

/-- **A revoked migration stays revoked** exactly if `process_automigrate_user` had made its
updates when the revocation was written, or not exactly one row has its token: with several of
them an update fails. -/
theorem revoked_stays_iff (total : Nat) {s s' : Revocation}
    (hrevoke : s.next total .revoke = some s') :
    (∀ rest s'', (revocations total).run s' rest = some s'' → s''.status = .revoked) ↔
      s'.updates = [] ∨ total ≠ 1 := by
  constructor
  · intro hstays
    by_contra hleft
    obtain ⟨hne, htotal⟩ := not_or.1 hleft
    obtain rfl := not_not.1 htotal
    obtain ⟨status, updates, hupdates⟩ := List.exists_cons_of_ne_nil hne
    have hwritten := hstays [.update] { s' with status := .of status, updates := updates }
      (by simp [Machine.run, revocations, Revocation.next, hupdates])
    cases hwritten
  · intro hfinal rest s'' hrun
    obtain ⟨-, h⟩ := Option.ite_none_right_eq_some.1 hrevoke
    have hrevoked : s'.status = .revoked := by
      cases h
      rfl
    exact ((revocations total).run_preserves (Revocation.Final total) (fun _ _ _ hs h => hs.next h)
      ⟨hrevoked, hfinal⟩ hrun).1

theorem revoked_after_migrated :
    Revocation.next 1 ⟨.of .migrated, true, []⟩ .revoke = some ⟨.revoked, false, []⟩ ∧
      ∀ rest s, (revocations 1).run ⟨.revoked, false, []⟩ rest = some s → s.status = .revoked :=
  ⟨rfl, (revoked_stays_iff 1 (s := ⟨.of .migrated, true, []⟩) rfl).2 (.inl rfl)⟩

/-- The revocation is accepted while the migration runs, and the end of it is written over it. -/
theorem migrated_after_revoked :
    ((revocations 1).run ⟨.of .imported, false, [.migrating, .migrated]⟩
      [.update, .read, .revoke, .update]).map (·.status) = some (.of .migrated) := by
  decide

end IsardVDI.Users
