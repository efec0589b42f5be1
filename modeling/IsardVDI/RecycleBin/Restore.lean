import IsardVDI.Quotas.Checks

/-!
# Restoring an entry of the recycle bin

`RecycleBin.restore` checks whether the items of the entry can come back, takes the entry, and
inserts all of them. The quotas are checked item by item.
-/

namespace IsardVDI.RecycleBin

open Quotas
open List

inductive ItemType
  | desktop
  | template
  | deployment
  | storage
  | bulk
  | deploymentUsersDelete
  | user
  | group
  | category
  deriving DecidableEq, Repr

inductive Status
  | recycled
  | queued
  | deleting
  | deleted
  | restored
  deriving DecidableEq, Repr

def Status.value : Status → String
  | .recycled => "recycled"
  | .queued => "queued"
  | .deleting => "deleting"
  | .deleted => "deleted"
  | .restored => "restored"

structure RecycledDomain where
  domain : Domain
  username : String
  /-- A parent may be null. -/
  parents : Option (List (Option String))
  duplicateParentTemplate : Option String
  deriving DecidableEq, Repr

structure RecycledDeployment where
  deployment : Deployment
  createDict : List String
  deriving DecidableEq, Repr

structure RecycledGroup where
  group : Holder
  parentCategory : String

structure Entry where
  itemType : ItemType
  status : Status
  ownerId : String
  ownerName : String
  agentId : String
  desktops : List RecycledDomain
  templates : List RecycledDomain
  deployments : List RecycledDeployment
  users : List User
  groups : List RecycledGroup
  categories : List Holder
  desktops_kind : ∀ d ∈ desktops, d.domain.kind = .desktop
  templates_kind : ∀ t ∈ templates, t.domain.kind = .template

/-! ## The checks -/

def fail (description code : String) : Except Exc Unit :=
  .error (.error { description, descriptionCode := code })

variable (db : Db) (entry : Entry)

/-- The owners of the items are there, in the entry or in the table. -/
def checkOwners : Except Exc Unit :=
  let owners := (entry.desktops ++ entry.templates).map (fun d => (d.domain.user, d.username))
    ++ entry.deployments.map fun d => (d.deployment.user, d.deployment.user)
  owners.forM fun (user, username) =>
    if entry.users.any (·.id = user) || db.users.any (·.id = user) then .ok ()
    else fail ("Can't restore. User \"" ++ username
      ++ "\" has been deleted and owns items in this entry.") "unable_to_restore_user"

def checkCategories : Except Exc Unit :=
  (entry.users.map (·.category) ++ entry.groups.map (·.parentCategory)).forM fun category =>
    if entry.categories.any (·.id = category) || db.categories.any (·.id = category) then .ok ()
    else fail ("Can't restore. Category \"" ++ category
      ++ "\" has been deleted is associated to items in this entry.") "unable_to_restore_category"

def checkGroups : Except Exc Unit :=
  (entry.users.map (·.group)).forM fun group =>
    if entry.groups.any (·.group.id = group) || db.groups.any (·.id = group) then .ok ()
    else fail ("Can't restore. Group \"" ++ group
      ++ "\" has been deleted and is associated to items in this entry.") "unable_to_restore_group"

/-- Each item is checked against the same database. -/
def checkQuotas : Except Exc Unit := do
  entry.desktops.forM fun d =>
    if d.domain.tag = none then db.desktopCreateNow d.domain.user else .ok ()
  entry.templates.forM fun t => db.templateCreateNow t.domain.user
  entry.deployments.forM fun d =>
    let users := (entry.desktops.filter (·.domain.tag = some d.deployment.id)).map fun desktop =>
      { id := desktop.domain.user
        category := desktop.domain.category
        group := desktop.domain.group }
    db.deploymentCreate d.deployment.user 1 d.createDict.length users

def validateParents (message : String) (parents : List (Option String)) : Except Exc Unit :=
  parents.forM fun
    | none => .ok ()
    | some parent =>
      if db.domains.any (·.id = parent) || entry.templates.any (·.domain.id = parent) then .ok ()
      else fail (message ++ parent) "parent_template_not_found"

def checkParents : Except Exc Unit := do
  entry.desktops.forM fun d => validateParents db entry
    "Cannot restore desktop without parent template " (d.parents.getD [])
  entry.deployments.forM fun d => d.createDict.forM fun template =>
    if entry.templates.any (·.domain.id = template) || db.domains.any (·.id = template) then .ok ()
    else fail ("Cannot restore deployment without template " ++ template) "template_not_found"
  entry.templates.forM fun t =>
    match t.duplicateParentTemplate with
    | some parent =>
      if entry.templates.any (·.domain.id = parent) || db.domains.any (·.id = parent) then .ok ()
      else fail "Cannot restore duplicated template without parent template"
        "parent_template_not_found"
    | none => validateParents db entry "Cannot restore template without parent template "
        (t.parents.getD [])

def ItemType.isAccount : ItemType → Bool
  | .user | .group | .category => true
  | _ => false

def checkCanRestore : Except Exc Unit := do
  (if entry.itemType = .user ∧ entry.ownerId = entry.agentId then
      fail ("Cannot restore user " ++ entry.ownerName ++ " by itself") ""
    else .ok ())
  checkOwners db entry
  checkCategories db entry
  checkGroups db entry
  (if entry.itemType.isAccount then .ok () else checkQuotas db entry)
  checkParents db entry

/-! ## The call -/

/-- `insert(docs)`: a row whose key is taken is left out. -/
def freshOf {α : Type} (key : α → String) : List α → List α → List α
  | _, [] => []
  | rows, doc :: docs =>
    if key doc ∈ rows.map key then freshOf key rows docs
    else doc :: freshOf key (rows ++ [doc]) docs

def insertAll {α : Type} (key : α → String) (rows docs : List α) : List α :=
  rows ++ freshOf key rows docs

theorem nodup_insertAll {α : Type} {key : α → String} {rows : List α} (docs : List α)
    (h : (rows.map key).Nodup) : ((insertAll key rows docs).map key).Nodup := by
  unfold insertAll
  induction docs generalizing rows with
  | nil => simpa [freshOf] using h
  | cons doc docs ih =>
    unfold freshOf
    split_ifs with hin
    · exact ih h
    · have hnext : ((rows ++ [doc]).map key).Nodup := by
        rw [map_append, map_singleton]
        exact h.append (nodup_singleton _) (disjoint_singleton.mpr hin)
      have := ih hnext
      rwa [append_assoc, singleton_append] at this

/-- The rows that are inserted into `domains`; `restored_domain` leaves what is counted alone. -/
def Entry.domains : List Domain :=
  (entry.desktops ++ entry.templates).map (·.domain)

def insertEntry : Db where
  users := insertAll User.id db.users entry.users
  groups := insertAll Holder.id db.groups (entry.groups.map (·.group))
  categories := insertAll Holder.id db.categories entry.categories
  domains := insertAll Domain.id db.domains entry.domains
  deployments := insertAll Deployment.id db.deployments (entry.deployments.map (·.deployment))
  users_nodup := nodup_insertAll _ db.users_nodup
  groups_nodup := nodup_insertAll _ db.groups_nodup
  categories_nodup := nodup_insertAll _ db.categories_nodup

def restorable : Except Exc Unit := do
  (if entry.status = .recycled then .ok ()
    else fail ("Cannot restore entry with status " ++ entry.status.value) "")
  (if entry.itemType = .user ∨ db.users.any (·.id = entry.ownerId) then .ok ()
    else fail ("Can't restore entry. User " ++ entry.ownerName ++ " has been deleted.")
      "unable_to_restore_user")
  checkCanRestore db entry

/-- `restore` with nobody else at work, so that the entry is still there to be taken. -/
def restore : Except Exc Db := do
  restorable db entry
  return insertEntry db entry

/-! ## The quotas afterwards -/

/-- What counts for a quota: persistent desktops and enabled templates without a tag. -/
def Kind.key : Kind → QuotaKey
  | .desktop => .desktops
  | .template => .templates

theorem used_eq (owner : String) (kind : Kind) :
    db.used owner (Kind.key kind) = db.domains.countP (Domain.counts kind owner) := by
  cases kind <;> rfl

def restored (kind : Kind) (owner : String) : Nat :=
  (freshOf Domain.id db.domains entry.domains).countP (Domain.counts kind owner)

theorem used_insertEntry (owner : String) (kind : Kind) :
    (insertEntry db entry).used owner (Kind.key kind)
      = db.used owner (Kind.key kind) + restored db entry kind owner := by
  rw [used_eq, used_eq, restored, ← Int.natCast_add, ← countP_append]
  rfl

theorem mem_of_mem_freshOf {α : Type} {key : α → String} {rows docs : List α} {x : α}
    (h : x ∈ freshOf key rows docs) : x ∈ docs := by
  induction docs generalizing rows with
  | nil => cases h
  | cons doc docs ih =>
    unfold freshOf at h
    split_ifs at h
    · exact .tail _ (ih h)
    · rcases mem_cons.mp h with rfl | h
      · exact .head _
      · exact .tail _ (ih h)

variable {db : Db} {user : User} {entry : Entry}

theorem id_of_user {id : String} (h : db.user id = .ok user) : user.id = id := by
  unfold Db.user at h
  cases hfind : db.users.find? (·.id = id) with
  | none =>
    rw [hfind] at h
    cases h
  | some found =>
    rw [hfind] at h
    cases h
    simpa using find?_some hfind

theorem get_ok {reading : Reading} (h : db.get user = .ok reading) :
    db.appliedQuota user = .ok reading.quota ∧ reading.used = db.used user.id := by
  obtain ⟨quota, hquota, h⟩ := bind_eq_ok.mp h
  cases h
  exact ⟨hquota, rfl⟩

theorem room_for_one (hchecks : checkQuotas db entry = .ok ()) {kind : Kind} {owner : String}
    (hrestored : 0 < restored db entry kind owner) (huser : db.user owner = .ok user)
    {quota : Quota} (hquota : db.appliedQuota user = .ok (some quota)) :
    db.used owner (Kind.key kind) + 1 ≤ quota (Kind.key kind) := by
  obtain ⟨x, hx, hcounts⟩ := countP_pos_iff.mp hrestored
  obtain ⟨d, hd, rfl⟩ := mem_map.mp (mem_of_mem_freshOf hx)
  simp only [Domain.counts, Bool.and_eq_true, decide_eq_true_eq] at hcounts
  obtain ⟨⟨⟨hkind, rfl⟩, htag⟩, -⟩ := hcounts
  -- the check of this item read the quota and the use of its owner
  have hreading {reading : Reading} (h : db.get user = .ok reading) :
      quota ∈ reading.quota ∧ reading.used = db.used d.domain.user := by
    obtain ⟨happlied, hused⟩ := get_ok h
    rw [hquota] at happlied
    rw [id_of_user huser] at hused
    exact ⟨(Except.ok.inj happlied).symm, hused⟩
  obtain ⟨_, hdesktops, h⟩ := bind_eq_ok.mp hchecks
  obtain ⟨_, htemplates, -⟩ := bind_eq_ok.mp h
  cases kind with
  | desktop =>
    have hin : d ∈ entry.desktops := by
      refine (mem_append.mp hd).resolve_right fun ht => ?_
      rw [entry.templates_kind d ht] at hkind
      cases hkind
    have hcheck := forM_eq_ok.mp hdesktops d hin
    rw [if_pos htag] at hcheck
    obtain ⟨found, hfound, hcheck⟩ := bind_eq_ok.mp hcheck
    rw [huser] at hfound
    cases hfound
    obtain ⟨reading, hget, hcheck⟩ := bind_eq_ok.mp hcheck
    obtain ⟨hin, hused⟩ := hreading hget
    rw [← hused]
    exact desktopCreate_quota hcheck quota hin
  | template =>
    have hin : d ∈ entry.templates := by
      refine (mem_append.mp hd).resolve_left fun ht => ?_
      rw [entry.desktops_kind d ht] at hkind
      cases hkind
    have hcheck := forM_eq_ok.mp htemplates d hin
    obtain ⟨found, hfound, hcheck⟩ := bind_eq_ok.mp hcheck
    rw [huser] at hfound
    cases hfound
    obtain ⟨reading, hget, hcheck⟩ := bind_eq_ok.mp hcheck
    obtain ⟨hin, hused⟩ := hreading hget
    rw [← hused]
    exact templateCreate_quota hcheck quota hin

theorem checkQuotas_of_restorable (haccount : entry.itemType.isAccount = false)
    (h : restorable db entry = .ok ()) : checkQuotas db entry = .ok () := by
  iterate 6 obtain ⟨_, -, h⟩ := bind_eq_ok.mp h
  obtain ⟨_, hquotas, -⟩ := bind_eq_ok.mp h
  rwa [haccount] at hquotas

theorem restore_ok {db' : Db} :
    restore db entry = .ok db' ↔ restorable db entry = .ok () ∧ db' = insertEntry db entry := by
  rw [restore, bind_eq_ok]
  constructor
  · rintro ⟨_, hchecks, h⟩
    exact ⟨hchecks, (Except.ok.inj h).symm⟩
  · rintro ⟨hchecks, rfl⟩
    exact ⟨(), hchecks, rfl⟩

/-- **The quotas of the owners.** For every database and every entry that is not that of a user, a
group or a category: each owner in the entry to whom a quota applies is within it after a restore
that succeeds, for desktops and for templates, exactly when for an entry that can be restored those
owners are for whom not just one item comes back. -/
theorem restore_within_quota_iff (db : Db) (entry : Entry)
    (haccount : entry.itemType.isAccount = false) :
    (∀ db', restore db entry = .ok db' → ∀ item ∈ entry.domains, ∀ user quota,
        db.user item.user = .ok user → db.appliedQuota user = .ok (some quota) →
          ∀ kind, db'.used item.user (Kind.key kind) ≤ quota (Kind.key kind))
      ↔ (restorable db entry = .ok () → ∀ item ∈ entry.domains, ∀ user quota,
        db.user item.user = .ok user → db.appliedQuota user = .ok (some quota) →
          ∀ kind, restored db entry kind item.user ≠ 1 →
            db.used item.user (Kind.key kind) + restored db entry kind item.user
              ≤ quota (Kind.key kind)) := by
  constructor
  · intro h hchecks item hitem user quota huser hquota kind _
    rw [← used_insertEntry]
    exact h _ (restore_ok.mpr ⟨hchecks, rfl⟩) item hitem user quota huser hquota kind
  · intro h db' hrestore item hitem user quota huser hquota kind
    obtain ⟨hchecks, rfl⟩ := restore_ok.mp hrestore
    rw [used_insertEntry]
    by_cases hone : restored db entry kind item.user = 1
    · have hrestored : 0 < restored db entry kind item.user := hone ▸ Nat.one_pos
      rw [hone]
      exact room_for_one (checkQuotas_of_restorable haccount hchecks) hrestored huser hquota
    · exact h hchecks item hitem user quota huser hquota kind hone

def owners (quota : Int) : Db where
  users := ["u", "v"].map fun id =>
    { id, name := id, category := "home", group := "family", secondaryGroups := [], active := true,
      quota := some fun _ => quota }
  groups := [{ id := "family", name := "family", quota := none, limits := none }]
  categories := [{ id := "home", name := "home", quota := none, limits := none }]
  domains := []
  deployments := []
  users_nodup := by simp
  groups_nodup := by decide
  categories_nodup := by decide

def binned (id user : String) : RecycledDomain where
  domain :=
    { id, kind := .desktop, name := id, user, group := "family", category := "home", tag := none,
      persistent := true, enabled := false }
  username := user
  parents := none
  duplicateParentTemplate := none

def bulk (desktops : List (String × String)) : Entry where
  itemType := .bulk
  status := .recycled
  ownerId := "u"
  ownerName := "u"
  agentId := "u"
  desktops := desktops.map fun (id, user) => binned id user
  templates := []
  deployments := []
  users := []
  groups := []
  categories := []
  desktops_kind := forall_mem_map.mpr fun _ _ => rfl
  templates_kind := nofun

/-- Two desktops of one user and one of another, who may both have two. -/
theorem threeDesktops_restored :
    ∃ db', restore (owners 2) (bulk [("a", "u"), ("b", "u"), ("c", "v")]) = .ok db'
      ∧ db'.domains.map (·.id) = ["a", "b", "c"]
      ∧ db'.used "u" .desktops ≤ 2 ∧ db'.used "v" .desktops ≤ 2 := by
  have hwithin := (restore_within_quota_iff (owners 2) (bulk [("a", "u"), ("b", "u"), ("c", "v")])
    rfl).mpr fun _ item hitem user quota huser hquota kind _ => by
      simp only [Entry.domains, bulk, map_cons, map_nil, append_nil, mem_cons, not_mem_nil,
        or_false] at hitem
      rcases hitem with rfl | rfl | rfl <;> cases huser <;> cases hquota <;> cases kind <;> decide
  have hall := hwithin _ rfl
  exact ⟨_, rfl, by decide, hall (binned "a" "u").domain (.head _) _ _ rfl rfl .desktop,
    hall (binned "c" "v").domain (.tail _ (.tail _ (.head _))) _ _ rfl rfl .desktop⟩

/-- With two desktops in the entry each is found to fit, and both come back. -/
theorem twoDesktops_restored :
    (restore (owners 1) (bulk [("a", "u"), ("b", "u")])).toOption.map (·.used "u" .desktops)
        = some 2
      ∧ (((owners 1).user "u").bind (owners 1).appliedQuota).toOption.bind (·.map (· .desktops))
        = some 1 := by
  decide

end IsardVDI.RecycleBin
