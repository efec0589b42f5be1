import IsardVDI.Lib.Fallible
import IsardVDI.Lib.Grouping

/-!
# Quotas and limits

`quotas.py`: a user has the quota of the user, of the group or of the category, the first there is;
groups and categories have limits as well. Before an item is created what is used is read, the
quantity is added and the sum is compared.

* **`desktopCreate_quota`**, **`templateCreate_quota`** — what a check that passes says of the
  reading it was given.
-/

namespace IsardVDI.Quotas

inductive QuotaKey
  | desktops
  | templates
  | deploymentsTotal
  | deploymentDesktops
  | deploymentUsers
  deriving DecidableEq, Repr

abbrev Quota := QuotaKey → Int

abbrev Limits := QuotaKey → Option Int

/-- `quota` is `False` or empty for `none`. -/
structure User where
  id : String
  name : String
  category : String
  group : String
  secondaryGroups : List String
  active : Bool
  quota : Option Quota

structure Holder where
  id : String
  name : String
  quota : Option Quota
  limits : Option Limits

inductive Kind
  | desktop
  | template
  deriving DecidableEq, Repr

structure Domain where
  id : String
  kind : Kind
  name : String
  user : String
  group : String
  category : String
  /-- The deployment, `none` for `False`. -/
  tag : Option String
  persistent : Bool
  enabled : Bool
  deriving DecidableEq, Repr

structure Deployment where
  id : String
  name : String
  user : String
  deriving DecidableEq, Repr

/-- The tables that are read; `id` is the primary key of the documents. -/
structure Db where
  users : List User
  groups : List Holder
  categories : List Holder
  domains : List Domain
  deployments : List Deployment
  users_nodup : (users.map User.id).Nodup
  groups_nodup : (groups.map Holder.id).Nodup
  categories_nodup : (categories.map Holder.id).Nodup

structure Error where
  description : String
  descriptionCode : String
  deriving DecidableEq, Repr

/-- What a check raises: an `Error`, or what Python raises for a missing row or key. -/
inductive Exc
  | error (e : Error)
  | internal
  deriving DecidableEq, Repr

/-! ## What is used -/

namespace Db

def user (db : Db) (id : String) : Except Exc User :=
  (db.users.find? (·.id = id)).elim (.error .internal) .ok

def group (db : Db) (id : String) : Except Exc Holder :=
  (db.groups.find? (·.id = id)).elim (.error .internal) .ok

def category (db : Db) (id : String) : Except Exc Holder :=
  (db.categories.find? (·.id = id)).elim (.error .internal) .ok

def appliedQuota (db : Db) (user : User) : Except Exc (Option Quota) := do
  if user.quota.isSome then
    return user.quota
  let group ← db.group user.group
  if group.quota.isSome then
    return group.quota
  let category ← db.category user.category
  return category.quota

end Db

/-- `kind_user_tag` at `[kind, user, False]`, with the filter of the kind. -/
def Domain.counts (kind : Kind) (userId : String) (domain : Domain) : Bool :=
  domain.kind = kind && domain.user = userId && domain.tag = none
    && match kind with
      | .desktop => domain.persistent
      | .template => domain.enabled

variable (db : Db)

def Db.used (userId : String) : QuotaKey → Int
  | .desktops => db.domains.countP (Domain.counts .desktop userId)
  | .templates => db.domains.countP (Domain.counts .template userId)
  | .deploymentsTotal => db.deployments.countP (·.user = userId)
  | .deploymentDesktops => 0
  | .deploymentUsers => 0

structure Reading where
  quota : Option Quota
  used : QuotaKey → Int

variable (user : User)

/-- `Quotas.Get(user_id, started_info=False)`, not memoised. -/
def Db.get : Except Exc Reading := do
  let quota ← db.appliedQuota user
  return { quota, used := db.used user.id }

/-! ## The checks -/

structure Refusals where
  quota : Error
  group : Error
  category : Error

variable (reading : Reading)

def checkFieldQuotas (key : QuotaKey) (quantity : Int) (quotaError : Error) : Except Exc Unit :=
  match reading.quota with
  | none => .ok ()
  | some quota =>
    if reading.used key + quantity > quota key then .error (.error quotaError) else .ok ()

def checkLimits (item : Holder) (key : QuotaKey) (quantity : Int) (limitsError : Error) :
    Except Exc Unit :=
  match item.limits.bind (· key) with
  | none => .ok ()
  | some limit => if quantity > limit then .error (.error limitsError) else .ok ()

def Db.checkFieldQuotasAndLimits (key : QuotaKey)
    (quantity groupQuantity categoryQuantity : Int) (refusals : Refusals) : Except Exc Unit := do
  checkFieldQuotas reading key quantity refusals.quota
  let group ← db.group user.group
  checkLimits group key (groupQuantity + quantity) refusals.group
  let category ← db.category user.category
  checkLimits category key (categoryQuantity + quantity) refusals.category

def desktopRefusals (group : Holder) : Refusals where
  quota :=
    { description := user.name ++ " quota exceeded for creating new desktop"
      descriptionCode := "desktop_new_user_quota_exceeded" }
  group :=
    { description := group.name ++ " group limits exceeded for creating new desktop"
      descriptionCode := "desktop_new_group_limit_exceeded" }
  category :=
    { description := user.name ++ " category limits exceeded for creating new desktop"
      descriptionCode := "desktop_new_category_limit_exceeded" }

def templateRefusals (group : Holder) : Refusals where
  quota :=
    { description := user.name ++ " quota exceeded for creating new template"
      descriptionCode := "template_new_user_quota_exceeded" }
  group :=
    { description := group.name ++ " group limits exceeded for creating new template"
      descriptionCode := "template_new_group_limit_exceeded" }
  category :=
    { description := user.name ++ " category limits exceeded for creating new template"
      descriptionCode := "template_new_category_limit_exceeded" }

def deploymentRefusals (group : Holder) : Refusals where
  quota :=
    { description := user.name ++ " quota exceeded for creating new deployments"
      descriptionCode := "deployment_new_user_quota_exceeded" }
  group :=
    { description := group.name ++ " group limits exceeded for creating new deployments"
      descriptionCode := "deployments_new_group_limit_exceeded" }
  category :=
    { description := user.name ++ " category limits exceeded for creating new deployments"
      descriptionCode := "deployments_new_category_limit_exceeded" }

def Domain.inGroup (groupId : String) (domain : Domain) : Bool :=
  domain.kind = .desktop && domain.group = groupId

variable (categoryId : String)

def Domain.inCategory (domain : Domain) : Bool :=
  domain.kind = .desktop && domain.category = categoryId

def Db.desktopCreate (user : User) (quantity : Int) : Except Exc Unit := do
  let group ← db.group user.group
  db.checkFieldQuotasAndLimits user reading .desktops quantity
    (db.domains.countP fun d => d.inGroup user.group && d.persistent)
    (db.domains.countP fun d => d.inCategory user.category && d.persistent)
    (desktopRefusals user group)

def Db.templateCreate (user : User) (quantity : Int) : Except Exc Unit := do
  let group ← db.group user.group
  db.checkFieldQuotasAndLimits user reading .templates quantity
    (db.domains.countP fun d => d.kind = .template && d.group = user.group)
    (db.domains.countP fun d => d.kind = .template && d.category = user.category)
    (templateRefusals user group)

/-- The whole of `desktop_create` and `template_create`, with a reading of their own. -/
def Db.desktopCreateNow (userId : String) : Except Exc Unit := do
  let user ← db.user userId
  let reading ← db.get user
  db.desktopCreate reading user 1

def Db.templateCreateNow (userId : String) : Except Exc Unit := do
  let user ← db.user userId
  let reading ← db.get user
  db.templateCreate reading user 1

/-! ## Deployments -/

structure Member where
  id : String
  category : String
  group : String
  deriving DecidableEq, Repr

/-- `limits.get("desktops")` is compared as it is: with no such key Python raises. -/
def checkDesktopsLimit (item : Holder) (desktops : Int) (error : Error) : Except Exc Unit :=
  match item.limits with
  | none => .ok ()
  | some limits =>
    match limits .desktops with
    | none => .error .internal
    | some limit => if desktops > limit then .error (.error error) else .ok ()

def Db.groupDesktops (groupId : String) : Nat :=
  db.domains.countP (Domain.inGroup groupId)

def Db.categoryDesktops : Nat :=
  db.domains.countP (Domain.inCategory categoryId)

def Db.checkGroupLimit (groupId : String) (members : List Member) : Except Exc Unit := do
  let group ← db.group groupId
  checkDesktopsLimit group (db.groupDesktops groupId + members.length)
    { description := "Group " ++ group.name ++ " limit exceeded for creating new desktop."
      descriptionCode := "deployment_desktop_new_group_limit_exceeded" }

def Db.checkCategoryLimit (members : List Member) : Except Exc Unit := do
  let category ← db.category categoryId
  checkDesktopsLimit category (db.categoryDesktops categoryId + members.length)
    { description := "Category " ++ categoryId ++ " limit exceeded for creating new desktops"
      descriptionCode := "deployment_desktop_new_category_limit_exceeded" }

def Db.deploymentsOf (p : User → Bool) : Int :=
  db.deployments.countP fun d => (db.users.find? (·.id = d.user)).any p

/-- Only the users that get a desktop count towards the limits: all of them. -/
def Db.checkMembersLimits (users : List Member) : Except Exc Unit := do
  (Grouping.group Member.group users).forM fun (groupId, members) =>
    db.checkGroupLimit groupId members
  (Grouping.group Member.category users).forM fun (categoryId, members) =>
    db.checkCategoryLimit categoryId members

def Db.deploymentCreate (ownerId : String) (quantity : Int) (desktopsLen : Nat)
    (users : List Member) : Except Exc Unit := do
  let owner ← db.user ownerId
  let group ← db.group owner.group
  let reading ← db.get owner
  db.checkFieldQuotasAndLimits owner reading .deploymentsTotal quantity
    (db.deploymentsOf (·.group = owner.group)) (db.deploymentsOf (·.category = owner.category))
    (deploymentRefusals owner group)
  (if desktopsLen = 0 then .ok ()
    else checkFieldQuotas reading .deploymentDesktops desktopsLen
      { description := owner.name ++ " quota exceeded for desktops in deployment"
        descriptionCode := "deployment_desktop_new_user_quota_exceeded" })
  (if users = [] then .ok ()
    else checkFieldQuotas reading .deploymentUsers users.length
      { description := owner.name ++ " quota exceeded for users in deployment"
        descriptionCode := "deployment_users_new_user_quota_exceeded" })
  db.checkMembersLimits users

/-! ## What a check that passes says -/

variable {reading : Reading} {quantity : Int} {db : Db} {user : User} {key : QuotaKey} {e : Error}

theorem checkFieldQuotas_ok :
    checkFieldQuotas reading key quantity e = .ok ()
      ↔ ∀ quota ∈ reading.quota, reading.used key + quantity ≤ quota key := by
  unfold checkFieldQuotas
  cases reading.quota with
  | none => simp
  | some quota =>
    by_cases h : reading.used key + quantity > quota key
    · simp [if_pos h, not_le.mpr h]
    · simp [if_neg h, not_lt.mp h]

theorem quota_of_checkFieldQuotasAndLimits {groupQuantity categoryQuantity : Int}
    {refusals : Refusals}
    (h : db.checkFieldQuotasAndLimits user reading key quantity groupQuantity categoryQuantity
      refusals = .ok ()) : ∀ quota ∈ reading.quota, reading.used key + quantity ≤ quota key := by
  obtain ⟨_, hquota, -⟩ := bind_eq_ok.mp h
  exact checkFieldQuotas_ok.mp hquota

theorem desktopCreate_quota (h : db.desktopCreate reading user quantity = .ok ()) :
    ∀ quota ∈ reading.quota, reading.used .desktops + quantity ≤ quota .desktops := by
  obtain ⟨_, -, hchecks⟩ := bind_eq_ok.mp h
  exact quota_of_checkFieldQuotasAndLimits hchecks

theorem templateCreate_quota (h : db.templateCreate reading user quantity = .ok ()) :
    ∀ quota ∈ reading.quota, reading.used .templates + quantity ≤ quota .templates := by
  obtain ⟨_, -, hchecks⟩ := bind_eq_ok.mp h
  exact quota_of_checkFieldQuotasAndLimits hchecks

theorem checkDesktopsLimit_ok {item : Holder} {desktops : Int}
    (h : checkDesktopsLimit item desktops e = .ok ()) :
    ∀ limits ∈ item.limits, ∀ limit ∈ limits .desktops, desktops ≤ limit := by
  intro limits hlimits limit hlimit
  simp only [checkDesktopsLimit, Option.mem_def.mp hlimits, Option.mem_def.mp hlimit] at h
  split at h
  · cases h
  · next hle => exact not_lt.mp hle

theorem find_eq_some {holders : List Holder} (hnodup : (holders.map Holder.id).Nodup)
    {holder : Holder} (hin : holder ∈ holders) :
    holders.find? (·.id = holder.id) = some holder := by
  cases hfind : holders.find? (·.id = holder.id) with
  | none => exact absurd (List.find?_eq_none.mp hfind holder hin) (by simp)
  | some found =>
    have hid : found.id = holder.id := by simpa using List.find?_some hfind
    rw [List.inj_on_of_nodup_map hnodup (List.mem_of_find?_eq_some hfind) hin hid]

theorem Db.group_eq (db : Db) {group : Holder} (hin : group ∈ db.groups) :
    db.group group.id = .ok group := by
  rw [Db.group, find_eq_some db.groups_nodup hin]
  rfl

theorem Db.category_eq (db : Db) {category : Holder} (hin : category ∈ db.categories) :
    db.category category.id = .ok category := by
  rw [Db.category, find_eq_some db.categories_nodup hin]
  rfl

variable {users : List Member}

theorem mem_group_countP {key : Member → String} {id : String} (h : ∃ user ∈ users, key user = id) :
    ∃ members, (id, members) ∈ Grouping.group key users
      ∧ members.length = users.countP (key · = id) :=
  ⟨_, Grouping.mem_group.mpr ⟨rfl, h⟩, List.countP_eq_length_filter.symm⟩

/-- **The limits of a deployment's users.** The groups and categories of the users have room for one
desktop per user. -/
theorem deploymentCreate_limits {ownerId : String} {desktopsLen : Nat}
    (h : db.deploymentCreate ownerId quantity desktopsLen users = .ok ()) :
    (∀ group ∈ db.groups, (∃ user ∈ users, user.group = group.id) →
        ∀ limits ∈ group.limits, ∀ limit ∈ limits .desktops,
          (db.groupDesktops group.id + users.countP (·.group = group.id) : Int) ≤ limit)
      ∧ ∀ category ∈ db.categories, (∃ user ∈ users, user.category = category.id) →
        ∀ limits ∈ category.limits, ∀ limit ∈ limits .desktops,
          (db.categoryDesktops category.id + users.countP (·.category = category.id) : Int)
            ≤ limit := by
  iterate 6 obtain ⟨_, -, h⟩ := bind_eq_ok.mp h
  obtain ⟨_, hgroups, hcategories⟩ := bind_eq_ok.mp h
  constructor
  · intro group hin huser
    obtain ⟨members, hmembers, hlength⟩ := mem_group_countP huser
    obtain ⟨found, hfound, hcheck⟩ := bind_eq_ok.mp (forM_eq_ok.mp hgroups _ hmembers)
    rw [db.group_eq hin] at hfound
    cases hfound
    rw [← hlength]
    exact checkDesktopsLimit_ok hcheck
  · intro category hin huser
    obtain ⟨members, hmembers, hlength⟩ := mem_group_countP huser
    obtain ⟨found, hfound, hcheck⟩ := bind_eq_ok.mp (forM_eq_ok.mp hcategories _ hmembers)
    rw [db.category_eq hin] at hfound
    cases hfound
    rw [← hlength]
    exact checkDesktopsLimit_ok hcheck

end IsardVDI.Quotas
