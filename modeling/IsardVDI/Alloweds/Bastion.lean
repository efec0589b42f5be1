import Mathlib.Data.List.Dedup

/-!
# Who may use the bastion

The `allowed` map of an item has four axes (roles, categories, groups, users), each `False`, empty
or a list. Two functions read it: `is_allowed` for one user at a time, with the secondary and linked
groups of the user, and `get_users_allowed` for all users at once, through the indexes of the
table. A third, `build_shared_items_filter`, is the predicate of a listing.
-/

namespace IsardVDI.Alloweds

open List Option

/-! ## The tables -/

inductive Role where
  | admin
  | manager
  | advanced
  | user
  deriving DecidableEq, Repr

/-- An axis of a map: `none` is `False`. -/
abbrev Axis (α : Type) := Option (List α)

structure Allowed (U C G : Type) where
  roles : Axis Role := none
  categories : Axis C := none
  groups : Axis G := none
  users : Axis U := none

structure User (U C G : Type) where
  id : U
  role : Role
  category : C
  group : G
  secondaryGroups : List G := []

structure Target (T U : Type) where
  id : T
  userId : U

structure Db (U C G : Type) where
  users : List (User U C G)
  linkedGroups : G → List G

structure Payload (U C G : Type) where
  userId : Option U
  roleId : Role
  categoryId : C
  groupId : G

structure Item (U C G : Type) where
  allowed : Option (Allowed U C G)
  user : Option U := none
  category : Option C := none

/-- The kind of item. An empty axis of groups or users means the category of the item for domains
and media, and everybody for the others. -/
inductive Table where
  | domains
  | media
  | config
  | other
  deriving DecidableEq, Repr

def Table.ofCategory : Table → Bool
  | .domains | .media => true
  | _ => false

section Decisions

variable {T U C G α : Type} [DecidableEq U] [DecidableEq C] [DecidableEq G]

def User.payload (u : User U C G) : Payload U C G where
  userId := some u.id
  roleId := u.role
  categoryId := u.category
  groupId := u.group

variable (db : Db U C G)

def Db.getUser (id : U) : Option (User U C G) := db.users.find? (·.id = id)

/-! ## One user -/

def Db.getAllLinkedGroups (groups : List G) : List G :=
  (groups ++ groups.flatMap db.linkedGroups).dedup

def Db.checkSecondaryGroups (userId : U) (groupId : G) (allowed : List G) : Option Bool :=
  (db.getUser userId).map fun user =>
    (db.getAllLinkedGroups (groupId :: user.secondaryGroups)).any (· ∈ allowed)

/-- The axes for roles and categories: an empty list is everybody. -/
def Axis.grants {α : Type} [DecidableEq α] (axis : Axis α) (x : α) : Bool :=
  axis.elim false fun values => values.isEmpty || decide (x ∈ values)

def usersGrant (item : Item U C G) (table : Table) (payload : Payload U C G) (userId : U)
    (axis : Axis U) : Bool :=
  match axis with
  | none => false
  | some [] => !table.ofCategory || item.category = some payload.categoryId
  | some users => decide (userId ∈ users)

/-- `is_allowed`. It raises for a user that is gone, if it comes to the secondary groups. -/
def Db.isAllowed (payload : Payload U C G) (item : Item U C G) (table : Table)
    (ignoreRole : Bool) : Option Bool :=
  match payload.userId with
  | none => some false
  | some userId =>
    if !ignoreRole && (payload.roleId = .admin || item.user = some userId
        || (payload.roleId = .manager && item.category = some payload.categoryId)) then some true
    else
      let allowed := item.allowed.getD {}
      if allowed.roles.grants payload.roleId then some true
      else if allowed.categories.grants payload.categoryId then some true
      else
        let last := usersGrant item table payload userId allowed.users
        match allowed.groups with
        | none => some last
        | some [] =>
          if !table.ofCategory || item.category = some payload.categoryId then some true
          else some last
        | some groups =>
          (db.checkSecondaryGroups userId payload.groupId groups).map fun found => found || last

structure Bastion (U C G : Type) where
  /-- `BASTION_ENABLED` and the flag of the document. -/
  enabled : Bool
  allowed : Allowed U C G

def Db.canUseBastion (bastion : Bastion U C G) (payload : Payload U C G) : Option Bool :=
  if !bastion.enabled then some false
  else db.isAllowed payload { allowed := some bastion.allowed } .config true

/-! ## All users -/

def Db.indexed {α : Type} [DecidableEq α] (field : User U C G → α) (axis : Axis α) : List U :=
  match axis with
  | none => []
  | some [] => db.users.map (·.id)
  | some values => (db.users.filter (field · ∈ values)).map (·.id)

variable (allowed : Allowed U C G)

def Db.getUsersAllowed : List U :=
  db.indexed (·.role) allowed.roles ++ db.indexed (·.category) allowed.categories
    ++ db.indexed (·.group) allowed.groups ++ db.indexed (·.id) allowed.users

/-- `remove_disallowed_bastion_targets`: the targets that are deleted. The flag of the bastion is
not read. -/
def Db.removeDisallowedBastionTargets (bastion : Bastion U C G)
    (targets : List (Target T U)) : List (Target T U) :=
  targets.filter (·.userId ∉ db.getUsersAllowed bastion.allowed)

/-! ## The two readings of a map -/

def Direct (u : User U C G) : Prop :=
  allowed.roles.grants u.role ∨ allowed.categories.grants u.category
    ∨ allowed.groups.grants u.group ∨ allowed.users.grants u.id

def Db.Linked (u : User U C G) : Prop :=
  ∃ groups, allowed.groups = some groups ∧ ∃ g ∈ groups, g ∈ u.secondaryGroups
    ∨ ∃ own ∈ u.group :: u.secondaryGroups, g ∈ db.linkedGroups own

@[simp] theorem Axis.grants_none [DecidableEq α] (x : α) :
    grants (none : Axis α) x = false := rfl

@[simp] theorem Axis.grants_nil [DecidableEq α] (x : α) : grants (some []) x = true := rfl

@[simp] theorem Axis.grants_cons [DecidableEq α] (value x : α) (values : List α) :
    grants (some (value :: values)) x = decide (x ∈ value :: values) := rfl

variable {db : Db U C G} {u : User U C G}

section

variable (hids : (db.users.map (·.id)).Nodup) (hu : u ∈ db.users)

include hids hu

omit [DecidableEq U] [DecidableEq C] [DecidableEq G] in
theorem Db.mem_indexed [DecidableEq α] {field : User U C G → α} {axis : Axis α} :
    u.id ∈ db.indexed field axis ↔ axis.grants (field u) := by
  have hall : u.id ∈ db.users.map (·.id) := mem_map_of_mem hu
  match axis with
  | none => simp [indexed]
  | some [] => simp [indexed, hall]
  | some (value :: values) =>
    show u.id ∈ (db.users.filter (field · ∈ value :: values)).map (·.id) ↔ _
    constructor
    · intro hmem
      obtain ⟨v, hv, hid⟩ := mem_map.mp hmem
      obtain ⟨hv, hin⟩ := mem_filter.mp hv
      -- the id has one row
      rw [← inj_on_of_nodup_map hids hv hu hid]
      simpa using hin
    · intro hin
      exact mem_map_of_mem (mem_filter.mpr ⟨hu, by simpa using hin⟩)

theorem Db.mem_getUsersAllowed (allowed : Allowed U C G) :
    u.id ∈ db.getUsersAllowed allowed ↔ Direct allowed u := by
  simp only [getUsersAllowed, append_assoc, mem_append, mem_indexed hids hu, Direct]

omit [DecidableEq C] [DecidableEq G] in
theorem Db.getUser_eq : db.getUser u.id = some u := by
  unfold getUser
  cases hfind : db.users.find? (·.id = u.id) with
  | none =>
    have hnone := find?_eq_none.mp hfind u hu
    simp at hnone
  | some v =>
    have hid : v.id = u.id := by simpa using find?_some hfind
    rw [inj_on_of_nodup_map hids (mem_of_find?_eq_some hfind) hu hid]

omit [DecidableEq C] in
theorem Db.checkSecondaryGroups_eq (groups : List G) :
    ∃ found, db.checkSecondaryGroups u.id u.group groups = some found
      ∧ (found ↔ u.group ∈ groups ∨ ∃ g ∈ groups, g ∈ u.secondaryGroups
        ∨ ∃ own ∈ u.group :: u.secondaryGroups, g ∈ db.linkedGroups own) := by
  refine ⟨_, by rw [checkSecondaryGroups, db.getUser_eq hids hu]; rfl, ?_⟩
  simp only [List.any_eq_true, decide_eq_true_eq, getAllLinkedGroups, mem_dedup, mem_append,
    mem_flatMap]
  constructor
  · rintro ⟨g, (hg | ⟨own, hown, hg⟩), hin⟩
    · rcases mem_cons.mp hg with rfl | hg
      · exact .inl hin
      · exact .inr ⟨g, hin, .inl hg⟩
    · exact .inr ⟨g, hin, .inr ⟨own, hown, hg⟩⟩
  · rintro (hin | ⟨g, hin, hg | ⟨own, hown, hg⟩⟩)
    · exact ⟨u.group, .inl (.head _), hin⟩
    · exact ⟨g, .inl (.tail _ hg), hin⟩
    · exact ⟨g, .inr ⟨own, hown, hg⟩, hin⟩

omit hids hu [DecidableEq G] in
theorem usersGrant_config {item : Item U C G} {payload : Payload U C G} {userId : U}
    {axis : Axis U} : usersGrant item .config payload userId axis = axis.grants userId := by
  match axis with
  | none | some [] | some (_ :: _) => rfl

theorem Db.isAllowed_config (allowed : Allowed U C G) :
    ∃ answer, db.isAllowed u.payload { allowed := some allowed } .config true = some answer
      ∧ (answer ↔ Direct allowed u ∨ db.Linked allowed u) := by
  simp only [isAllowed, User.payload, Bool.not_true, Bool.false_and, Bool.false_eq_true, if_false,
    getD_some, usersGrant_config]
  by_cases hroles : allowed.roles.grants u.role
  · exact ⟨true, if_pos hroles, by simp [Direct, hroles]⟩
  rw [if_neg hroles]
  by_cases hcategories : allowed.categories.grants u.category
  · exact ⟨true, if_pos hcategories, by simp [Direct, hcategories]⟩
  rw [if_neg hcategories]
  -- what is left are the groups and the users
  match hgroups : allowed.groups with
  | none => exact ⟨_, rfl, by simp [Direct, Linked, hroles, hcategories, hgroups]⟩
  | some [] => exact ⟨true, rfl, by simp [Direct, hgroups]⟩
  | some (group :: groups) =>
    obtain ⟨found, hfound, hiff⟩ := db.checkSecondaryGroups_eq hids hu (group :: groups)
    refine ⟨found || allowed.users.grants u.id, by simp only [hfound, map_some], ?_⟩
    have hlinked : db.Linked allowed u ↔ ∃ g ∈ group :: groups, g ∈ u.secondaryGroups
        ∨ ∃ own ∈ u.group :: u.secondaryGroups, g ∈ db.linkedGroups own := by
      simp [Linked, hgroups]
    have hdirect : Direct allowed u
        ↔ u.group ∈ group :: groups ∨ allowed.users.grants u.id := by
      simp only [Direct, hroles, hcategories, hgroups, Axis.grants_cons, decide_eq_true_iff,
        Bool.false_eq_true, false_or]
    rw [Bool.or_eq_true, hiff, ← hlinked, hdirect]
    exact or_right_comm

end

/-- **Revoking agrees with granting just for the users that need no other group.** A target is
removed if and only if its user is refused, exactly when the user is not let in by a secondary or
linked group alone, or, with the bastion off, when the map has not the user. -/
theorem revoked_iff_refused (db : Db U C G) (hids : (db.users.map (·.id)).Nodup)
    (bastion : Bastion U C G) (targets : List (Target T U)) {u : User U C G} (hu : u ∈ db.users)
    {target : Target T U} (htarget : target ∈ targets) (huser : target.userId = u.id) :
    (target ∈ db.removeDisallowedBastionTargets bastion targets
        ↔ db.canUseBastion bastion u.payload = some false)
      ↔ if bastion.enabled then db.Linked bastion.allowed u → Direct bastion.allowed u
        else ¬ Direct bastion.allowed u := by
  have hremoved : target ∈ db.removeDisallowedBastionTargets bastion targets
      ↔ ¬ Direct bastion.allowed u := by
    simp [Db.removeDisallowedBastionTargets, htarget, huser, db.mem_getUsersAllowed hids hu]
  rw [hremoved, Db.canUseBastion]
  cases henabled : bastion.enabled with
  | false => simp
  | true =>
    obtain ⟨answer, hanswer, hiff⟩ := db.isAllowed_config hids hu bastion.allowed
    have hrefused : db.isAllowed u.payload { allowed := some bastion.allowed } .config true
        = some false ↔ ¬ (Direct bastion.allowed u ∨ db.Linked bastion.allowed u) := by
      rw [hanswer, ← hiff]
      simp
    tauto

/-! ## Listings -/

/-- The axes for groups and users: an empty list is the category of the item. -/
def Axis.shared [DecidableEq α] (axis : Axis α) (sameCategory : Bool) (ids : List α) : Bool :=
  axis.elim false fun values => values.isEmpty && sameCategory || ids.any (· ∈ values)

/-- `build_shared_items_filter` on the row of an item. A user that is gone has no secondary groups,
and a group without an id is left out. -/
def Db.buildSharedItemsFilter (db : Db U C String) (payload : Payload U C String)
    (includeOwn considerUserRole : Bool) (item : Item U C String) : Bool :=
  let allowed := item.allowed.getD {}
  let sameCategory : Bool := item.category = some payload.categoryId
  let secondary := (payload.userId.bind db.getUser).elim [] (·.secondaryGroups)
  let userGroups :=
    db.getAllLinkedGroups ((payload.groupId :: secondary).filter fun g => !g.isEmpty)
  considerUserRole && payload.roleId = .admin
    || considerUserRole && payload.roleId = .manager && sameCategory
    || allowed.roles.grants payload.roleId || allowed.categories.grants payload.categoryId
    || allowed.groups.shared sameCategory userGroups
    || allowed.users.shared sameCategory payload.userId.toList
    || includeOwn && item.user.isSome && item.user = payload.userId

omit [DecidableEq G] in
theorem usersGrant_domains {item : Item U C G} {payload : Payload U C G} {userId : U}
    {axis : Axis U} : usersGrant item .domains payload userId axis
      = axis.shared (item.category = some payload.categoryId) [userId] := by
  match axis with
  | none => rfl
  | some [] | some (_ :: _) => simp [usersGrant, Axis.shared, Table.ofCategory]

/-- **A listing shows what may be used.** For a user that exists and whose groups have ids. -/
theorem isAllowed_eq_listing (db : Db U C String) {payload : Payload U C String} {userId : U}
    {u : User U C String} (hid : payload.userId = some userId) (hu : db.getUser userId = some u)
    (hgroups : ∀ g ∈ payload.groupId :: u.secondaryGroups, g ≠ "") (allowed : Allowed U C String)
    (user : U) (category : C) :
    let item : Item U C String := ⟨some allowed, some user, some category⟩
    db.isAllowed payload item .domains false
      = some (db.buildSharedItemsFilter payload true true item) := by
  intro item
  have hkept : ((payload.groupId :: u.secondaryGroups).filter fun g => !g.isEmpty)
      = payload.groupId :: u.secondaryGroups :=
    filter_eq_self.mpr fun g hg => by simpa using hgroups g hg
  simp only [Db.buildSharedItemsFilter, Db.isAllowed, usersGrant_domains, hid, bind_some, hu,
    elim_some, hkept, toList_some, Db.checkSecondaryGroups, map_some, item,
    getD_some]
  match allowed.groups with
  | none | some [] | some (_ :: _) => grind [Axis.shared, Table.ofCategory]

end Decisions

/-! ## A template of a group -/

def lab : Db Nat Nat String where
  users := [{ id := 7, role := .user, category := 0, group := "staff", secondaryGroups := ["lab"] }]
  linkedGroups _ := []

def member (id : Nat) (group : String) : Payload Nat Nat String := ⟨some id, .user, 0, group⟩

def groupTemplate (group : String) : Item Nat Nat String :=
  ⟨some { groups := some [group] }, some 1, some 3⟩

theorem labTemplate_listed :
    lab.isAllowed (member 7 "staff") (groupTemplate "lab") .domains false = some true :=
  (isAllowed_eq_listing lab rfl rfl (by decide) _ _ _).trans (by decide)

/-- The listing shows a user that is gone what the primary group has, where `is_allowed` raises. A
group without an id counts for `is_allowed` alone. -/
theorem goneUser_listed :
    (lab.buildSharedItemsFilter (member 8 "staff") true true (groupTemplate "staff")
        ∧ lab.isAllowed (member 8 "staff") (groupTemplate "staff") .domains false = none)
      ∧ ¬ lab.buildSharedItemsFilter (member 7 "") true true (groupTemplate "")
      ∧ lab.isAllowed (member 7 "") (groupTemplate "") .domains false = some true := by
  decide

/-! ## A user of two groups -/

def twoGroups : Db Nat Nat Nat where
  users := [{ id := 7, role := .user, category := 0, group := 1, secondaryGroups := [2] }]
  linkedGroups _ := []

/-- The map has the group of the user, who keeps the target. -/
theorem primaryGroup_agrees :
    ({ id := 0, userId := 7 } : Target Nat Nat) ∈ twoGroups.removeDisallowedBastionTargets
        { enabled := true, allowed := { groups := some [1] } } [{ id := 0, userId := 7 }]
      ↔ twoGroups.canUseBastion { enabled := true, allowed := { groups := some [1] } }
        { userId := some 7, roleId := .user, categoryId := 0, groupId := 1 } = some false := by
  refine (revoked_iff_refused twoGroups (by decide)
    { enabled := true, allowed := { groups := some [1] } } [{ id := 0, userId := 7 }]
    (mem_singleton_self _) (mem_singleton_self _) rfl).mpr ?_
  exact fun _ => .inr (.inr (.inl rfl))

/-- The map has the other group of the user, who may use the bastion and loses the target. -/
theorem secondaryGroup_revoked :
    twoGroups.canUseBastion { enabled := true, allowed := { groups := some [2] } }
        { userId := some 7, roleId := .user, categoryId := 0, groupId := 1 } = some true
      ∧ (twoGroups.removeDisallowedBastionTargets
          { enabled := true, allowed := { groups := some [2] } }
          [({ id := 0, userId := 7 } : Target Nat Nat)]).map (·.id) = [0] := by
  decide

end IsardVDI.Alloweds
