import IsardVDI.Lib.Keyed
import IsardVDI.Quotas.Checks

/-!
# Creating a deployment

`DeploymentsProcessed.create` selects the users, checks the quotas and limits for them, and then
makes every desktop of the recipe for every user.
-/

namespace IsardVDI.Quotas

open List

structure Payload where
  userId : String
  categoryId : String
  /-- `role_id == "admin"` -/
  admin : Bool

/-- `none` for `False`. -/
structure Selected where
  groups : Option (List String)
  users : Option (List String)

structure Recipe where
  name : String
  templateId : String

structure Request where
  payload : Payload
  name : String
  selected : Selected
  desktops : List Recipe
  createOwnerDesktop : Bool

def Selected.withOwner (selected : Selected) (ownerId : String) : Selected where
  groups := selected.groups
  users :=
    match selected.users with
    | none | some [] => some [ownerId]
    | some users => if ownerId ∈ users then some users else some (users ++ [ownerId])

/-! ## The users -/

def User.member (user : User) : Member where
  id := user.id
  category := user.category
  group := user.group

variable (db : Db)

/-- The active users an index finds; those of the own category, except for an admin. -/
def Db.pick (payload : Payload) (found : User → Bool) : List Member :=
  (db.users.filter fun u =>
    found u && u.active && (payload.admin || u.category = payload.categoryId)).map User.member

def Db.selectedMembers (payload : Payload) (selected : Selected) : List Member :=
  let groupUsers := (selected.groups.getD []).flatMap fun g => db.pick payload (·.group = g)
  let userUsers := (selected.users.getD []).flatMap fun id => db.pick payload (·.id = id)
  let secondaryGroupsUsers := (selected.groups.getD []).flatMap fun g =>
    db.pick payload (g ∈ ·.secondaryGroups)
  (groupUsers ++ userUsers ++ secondaryGroupsUsers).foldl (Keyed.upsert Member.id) []

/-- `get_selected_users(…, existing_desktops_error=True)`, for its error. -/
def Db.checkDesktopName (users : List Member) (name : String) : Except Exc Unit :=
  let existing := db.domains.filter fun d =>
    d.kind = .desktop && d.name = name && users.any (·.id = d.user)
  if existing = [] then .ok ()
  else .error (.error
    { description := "This users already have a desktop with this name: ['"
        ++ String.intercalate "', '" (existing.map (·.user)) ++ "']"
      descriptionCode := "new_desktop_name_exists" })

def Db.checkDuplicate (name userId : String) : Except Exc Unit :=
  if db.deployments.any fun d => d.name = name && d.user = userId then
    .error (.error
      { description := "Item with this name: " ++ name ++ " already exists in deployments"
        descriptionCode := "duplicated_name" })
  else .ok ()

/-! ## The call -/

def Request.users (request : Request) (db : Db) : List Member :=
  db.selectedMembers request.payload
    (if request.createOwnerDesktop then request.selected.withOwner request.payload.userId
      else request.selected)

/-- What the call checks before it writes. `parse` stands for the templates, the hardware and the
reservables of the recipe, which are checked without a look at the counts. -/
def Db.createChecks (parse : Request → Except Exc Unit) (request : Request) : Except Exc Unit := do
  db.deploymentCreate request.payload.userId 1 request.desktops.length (request.users db)
  db.checkDuplicate request.name request.payload.userId
  parse request
  request.desktops.forM fun d => db.checkDesktopName (request.users db) d.name

/-- The row `new_from_template` inserts. -/
def deploymentDesktop (deploymentId : String) (recipe : Recipe) (user : Member) (id : String) :
    Domain where
  id := id
  kind := .desktop
  name := recipe.name
  user := user.id
  group := user.group
  category := user.category
  tag := some deploymentId
  persistent := true
  enabled := false

/-- `create_deployment_desktops` and `new_from_templateTh`: every desktop for every user. `build` is
the id of the new row, or `none` for a desktop that could not be built, which is logged. -/
def newDesktops (deploymentId : String) (build : Recipe → Member → Option String)
    (recipes : List Recipe) (users : List Member) : List Domain :=
  recipes.flatMap fun recipe => users.filterMap fun user =>
    (build recipe user).map (deploymentDesktop deploymentId recipe user)

def Db.create (parse : Request → Except Exc Unit) (request : Request)
    (deploymentId : String) (build : Recipe → Member → Option String) : Except Exc Db := do
  db.createChecks parse request
  return { db with
    deployments :=
      { id := deploymentId, name := request.name, user := request.payload.userId }
        :: db.deployments
    domains :=
      newDesktops deploymentId build request.desktops (request.users db) ++ db.domains }

/-! ## What is made -/

def Within (holders : List Holder) (desktops : String → Int) : Prop :=
  ∀ holder ∈ holders, ∀ limits ∈ holder.limits, ∀ limit ∈ limits .desktops,
    desktops holder.id ≤ limit

def Db.WithinLimits : Prop :=
  Within db.groups (fun id => db.groupDesktops id)
    ∧ Within db.categories (fun id => db.categoryDesktops id)

def Db.HasRoom (users : List Member) (n : Nat) : Prop :=
  Within db.groups (fun id => db.groupDesktops id + n * users.countP (·.group = id))
    ∧ Within db.categories (fun id => db.categoryDesktops id + n * users.countP (·.category = id))

variable {holders : List Holder}

theorem Within.mono {desktops desktops' : String → Int} (h : Within holders desktops)
    (hle : ∀ holder ∈ holders, desktops' holder.id ≤ desktops holder.id) :
    Within holders desktops' :=
  fun holder hin limits hlimits limit hlimit =>
    (hle holder hin).trans (h holder hin limits hlimits limit hlimit)

variable {p : Domain → Bool} {q : Member → Bool}

theorem countP_newDesktops_le (deploymentId : String)
    (hpq : ∀ recipe user id, p (deploymentDesktop deploymentId recipe user id) = q user)
    (build : Recipe → Member → Option String) (recipes : List Recipe) (users : List Member) :
    (newDesktops deploymentId build recipes users).countP p ≤ recipes.length * users.countP q := by
  have hrow (recipe : Recipe) : (users.filterMap fun user =>
      (build recipe user).map (deploymentDesktop deploymentId recipe user)).countP p
        ≤ users.countP q := by
    induction users with
    | nil => exact le_rfl
    | cons user users ih =>
      rw [filterMap_cons, countP_cons]
      cases build recipe user with
      | none => exact ih.trans (Nat.le_add_right _ _)
      | some id =>
        rw [Option.map_some, countP_cons, hpq]
        exact Nat.add_le_add_right ih _
  induction recipes with
  | nil => simp [newDesktops]
  | cons recipe recipes ih =>
    rw [newDesktops, flatMap_cons, countP_append, length_cons, Nat.succ_mul, Nat.add_comm]
    exact Nat.add_le_add ih (hrow recipe)

variable {deploymentId : String}

theorem countP_newDesktops_all
    (hpq : ∀ recipe user id, p (deploymentDesktop deploymentId recipe user id) = q user)
    (recipes : List Recipe) (users : List Member) :
    (newDesktops deploymentId (fun _ _ => some "") recipes users).countP p
      = recipes.length * users.countP q := by
  have hrow (recipe : Recipe) : (users.filterMap fun user =>
      (some "").map (deploymentDesktop deploymentId recipe user)).countP p = users.countP q := by
    simp only [Option.map_some, filterMap_eq_map', countP_map]
    exact countP_congr fun user _ => by simp [hpq]
  induction recipes with
  | nil => simp [newDesktops]
  | cons recipe recipes ih =>
    rw [newDesktops, flatMap_cons, countP_append, length_cons, Nat.succ_mul, Nat.add_comm, hrow]
    exact congrArg (· + _) ih

/-! ## The limits afterwards -/

variable {parse : Request → Except Exc Unit} {request : Request}

theorem Db.create_ok {db db' : Db} {build : Recipe → Member → Option String} :
    db.create parse request deploymentId build = .ok db'
      ↔ db.createChecks parse request = .ok () ∧ db' = { db with
        deployments :=
          { id := deploymentId, name := request.name, user := request.payload.userId }
            :: db.deployments
        domains :=
          newDesktops deploymentId build request.desktops (request.users db) ++ db.domains } := by
  rw [Db.create, bind_eq_ok]
  constructor
  · rintro ⟨_, hchecks, h⟩
    exact ⟨hchecks, (Except.ok.inj h).symm⟩
  · rintro ⟨hchecks, rfl⟩
    exact ⟨(), hchecks, rfl⟩

theorem within_room {desktops : String → Nat} {key : Member → String} {users : List Member}
    {n : Nat} (hn : n ≤ 1) (hlimits : Within holders fun id => desktops id)
    (hroom : ∀ holder ∈ holders, (∃ user ∈ users, key user = holder.id) →
      ∀ limits ∈ holder.limits, ∀ limit ∈ limits .desktops,
        (desktops holder.id + users.countP (key · = holder.id) : Int) ≤ limit) :
    Within holders fun id => desktops id + n * users.countP (key · = id) := by
  intro holder hin limits hl limit hlimit
  show (desktops holder.id + n * users.countP (key · = holder.id) : Int) ≤ limit
  by_cases huser : ∃ user ∈ users, key user = holder.id
  · have := hroom holder hin huser limits hl limit hlimit
    have : (n * users.countP (key · = holder.id) : Int) ≤ users.countP (key · = holder.id) := by
      exact_mod_cast (Nat.mul_le_mul_right _ hn).trans (Nat.one_mul _).le
    omega
  · -- without a user of theirs they stay as they are
    have hnone : users.countP (key · = holder.id) = 0 := by
      rw [countP_eq_zero]
      intro user hin hkey
      exact huser ⟨user, hin, of_decide_eq_true hkey⟩
    rw [hnone]
    simpa using hlimits holder hin limits hl limit hlimit

theorem hasRoom_of_checks {db : Db} (hlimits : db.WithinLimits)
    (hchecks : db.createChecks parse request = .ok ()) (hone : request.desktops.length ≤ 1) :
    db.HasRoom (request.users db) request.desktops.length := by
  obtain ⟨_, hcheck, -⟩ := bind_eq_ok.mp hchecks
  obtain ⟨hgroups, hcategories⟩ := deploymentCreate_limits hcheck
  exact ⟨within_room hone hlimits.1 hgroups, within_room hone hlimits.2 hcategories⟩

/-- **The limits of groups and categories.** For every database in which they hold and every
request, they hold once the deployment is created, whichever of its desktops could be built, exactly
when a request that passes the checks with two or more desktops finds room for all of them. -/
theorem create_within_limits_iff (db : Db) (hlimits : db.WithinLimits)
    (parse : Request → Except Exc Unit) (request : Request) :
    (∀ deploymentId build db', db.create parse request deploymentId build = .ok db' →
        db'.WithinLimits)
      ↔ (db.createChecks parse request = .ok () → 2 ≤ request.desktops.length →
        db.HasRoom (request.users db) request.desktops.length) := by
  constructor
  · intro h hchecks _
    -- the run in which every desktop is built
    obtain ⟨hgroups, hcategories⟩ := h "" (fun _ _ => some "") _ (Db.create_ok.mpr ⟨hchecks, rfl⟩)
    constructor
    · refine hgroups.mono fun group _ => ?_
      rw [Db.groupDesktops, Db.groupDesktops, countP_append,
        countP_newDesktops_all (p := Domain.inGroup group.id) (q := (·.group = group.id))
          fun _ _ _ => rfl]
      omega
    · refine hcategories.mono fun category _ => ?_
      rw [Db.categoryDesktops, Db.categoryDesktops, countP_append,
        countP_newDesktops_all (p := Domain.inCategory category.id)
          (q := (·.category = category.id)) fun _ _ _ => rfl]
      omega
  · intro h deploymentId build db' hcreate
    obtain ⟨hchecks, rfl⟩ := Db.create_ok.mp hcreate
    have hroom : db.HasRoom (request.users db) request.desktops.length := by
      rcases Nat.lt_or_ge 1 request.desktops.length with hmany | hone
      · exact h hchecks hmany
      · exact hasRoom_of_checks hlimits hchecks hone
    constructor
    · refine hroom.1.mono fun group _ => ?_
      have := countP_newDesktops_le (p := Domain.inGroup group.id) (q := (·.group = group.id))
        deploymentId (fun _ _ _ => rfl) build request.desktops (request.users db)
      rw [Db.groupDesktops, Db.groupDesktops, countP_append]
      omega
    · refine hroom.2.mono fun category _ => ?_
      have := countP_newDesktops_le (p := Domain.inCategory category.id)
        (q := (·.category = category.id)) deploymentId (fun _ _ _ => rfl) build request.desktops
        (request.users db)
      rw [Db.categoryDesktops, Db.categoryDesktops, countP_append]
      omega

def classroom (limit : Int) : Db where
  users := ["t", "s"].map fun id =>
    { id, name := id, category := "school", group := "g", secondaryGroups := [], active := true,
      quota := none }
  groups := [{ id := "g", name := "g", quota := none, limits := some fun _ => some limit }]
  categories := [{ id := "school", name := "school", quota := none, limits := none }]
  domains := []
  deployments := []
  users_nodup := by decide
  groups_nodup := by simp
  categories_nodup := by decide

def wholeClass : Selected := ⟨some ["g"], none⟩

/-- The teacher asks for a deployment of two desktops, for the group. -/
def lesson : Request where
  payload := { userId := "t", categoryId := "school", admin := false }
  name := "lesson"
  selected := wholeClass
  desktops := [{ name := "a", templateId := "a" }, { name := "b", templateId := "a" }]
  createOwnerDesktop := true

/-- Every desktop is built, with an id of its name and user. -/
def buildAll (recipe : Recipe) (user : Member) : Option String := some (recipe.name ++ user.id)

theorem fourDesktops_within :
    ∃ db', (classroom 4).create (fun _ => .ok ()) lesson "d" buildAll = .ok db'
      ∧ db'.groupDesktops "g" = 4 ∧ db'.WithinLimits := by
  have hlimits : (classroom 4).WithinLimits := by
    simp [Db.WithinLimits, Within, classroom, Db.groupDesktops]
  have hroom : (classroom 4).HasRoom (lesson.users (classroom 4)) 2 := by
    rw [show lesson.users (classroom 4) = [⟨"t", "school", "g"⟩, ⟨"s", "school", "g"⟩] by decide]
    simp [Db.HasRoom, Within, classroom, Db.groupDesktops]
  exact ⟨_, rfl, rfl, (create_within_limits_iff (classroom 4) hlimits (fun _ => .ok ()) lesson).mpr
    (fun _ _ => hroom) "d" buildAll _ rfl⟩

/-- Two users are within a limit of two, and the group has four desktops afterwards. -/
theorem fourDesktops_exceed :
    ((classroom 2).create (fun _ => .ok ()) lesson "d" buildAll).toOption.map (·.groupDesktops "g")
        = some 4
      ∧ (((classroom 2).group "g").toOption.bind fun group => group.limits.bind (· .desktops))
        = some 2 := by
  decide

/-! ## Editing the users -/

/-- `edit_deployment_users(…, recreate=False)` of a row with this `allowed`. -/
def Db.editDeploymentUsers (payload : Payload) (row : Option Selected) (nextBookingEnd : Bool)
    (deploymentId : String) (allowed : Selected) : Except Exc Db :=
  match row with
  | none => .error (.error
    { description := "Not found deployment id to edit its users: " ++ deploymentId
      descriptionCode := "not_found" })
  | some old =>
    if nextBookingEnd then .error (.error
      { description := "Can't edit a deployment with a scheduled booking"
        descriptionCode := "cant_edit_booked_deployment" })
    else
      let newUsers := db.selectedMembers payload allowed
      let removed := (db.selectedMembers payload old).filter (· ∉ newUsers)
      .ok { db with domains := db.domains.filter fun d =>
        ¬(d.kind = .desktop ∧ d.tag = some deploymentId ∧ d.user ∈ removed.map (·.id)) }

def Payload.picks (payload : Payload) (user : User) : Bool :=
  user.active && (payload.admin || user.category = payload.categoryId)

def Selected.covers (selected : Selected) (user : User) : Bool :=
  user.id ∈ selected.users.getD []
    ∨ ∃ g ∈ user.group :: user.secondaryGroups, g ∈ selected.groups.getD []

def Db.owns (deploymentId : String) (user : User) : Bool :=
  db.domains.any fun d => d.kind = .desktop ∧ d.tag = some deploymentId ∧ d.user = user.id

variable {db db' : Db} {payload : Payload} {old allowed : Selected}

theorem Db.mem_pick {m : Member} {found : User → Bool} : m ∈ db.pick payload found
    ↔ ∃ user ∈ db.users, (found user ∧ payload.picks user) ∧ user.member = m := by
  simp [pick, Payload.picks, and_assoc]

theorem Db.mem_selectedMembers {m : Member} : m ∈ db.selectedMembers payload old
    ↔ ∃ user ∈ db.users, (old.covers user ∧ payload.picks user) ∧ user.member = m := by
  rw [selectedMembers, Keyed.mem_foldl_upsert_of_inj]
  · simp only [mem_append, mem_flatMap, mem_pick, Selected.covers, decide_eq_true_eq]
    grind
  · simp only [mem_append, mem_flatMap, mem_pick]
    grind [inj_on_of_nodup_map db.users_nodup, User.member]

/-- **An edit leaves no desktop to a user who is no longer covered** exactly if all those who have
one are active and, unless an admin edits, of the editor's category. -/
theorem edit_leaves_none_iff (payload : Payload) (nextBookingEnd : Bool) (deploymentId : String)
    (hedit : db.editDeploymentUsers payload (some old) nextBookingEnd deploymentId allowed
      = .ok db') :
    (∀ user ∈ db.users, old.covers user → ¬allowed.covers user → ¬db'.owns deploymentId user)
      ↔ ∀ user ∈ db.users, old.covers user → ¬allowed.covers user →
        db.owns deploymentId user → payload.picks user := by
  simp only [Db.editDeploymentUsers] at hedit
  split_ifs at hedit
  cases hedit
  refine forall₂_congr fun user huser => forall₂_congr fun hold hnew => ?_
  have hremoved : user.id ∈ ((db.selectedMembers payload old).filter
      (· ∉ db.selectedMembers payload allowed)).map (·.id) ↔ payload.picks user := by
    have heq : ∀ u ∈ db.users, u.id = user.id → u = user := fun u hu h =>
      inj_on_of_nodup_map db.users_nodup hu huser h
    simp only [mem_map, mem_filter, decide_eq_true_eq, Db.mem_selectedMembers]
    constructor
    · rintro ⟨_, ⟨⟨u, hu, ⟨-, hpicks⟩, rfl⟩, -⟩, hid⟩
      exact heq u hu hid ▸ hpicks
    · intro hpicks
      refine ⟨user.member, ⟨⟨user, huser, ⟨hold, hpicks⟩, rfl⟩, ?_⟩, rfl⟩
      rintro ⟨u, hu, ⟨hcovers, -⟩, h⟩
      exact hnew (heq u hu (congrArg Member.id h) ▸ hcovers)
  rw [← hremoved]
  simp only [Db.owns, any_filter, any_eq_true]
  grind

/-- A pupil has a desktop of the lesson. -/
def attended (active : Bool) : Db :=
  { classroom 1 with
    users := [⟨"p", "p", "school", "g", [], active, none⟩]
    domains := [deploymentDesktop "d" ⟨"a", "a"⟩ ⟨"p", "school", "g"⟩ "1"]
    users_nodup := nodup_singleton _ }

def nobody : Selected := ⟨none, none⟩

theorem active_left_none : ∃ db', (attended true).editDeploymentUsers lesson.payload
      (some wholeClass) false "d" nobody = .ok db'
    ∧ ∀ user ∈ (attended true).users, wholeClass.covers user → ¬nobody.covers user →
      ¬db'.owns "d" user :=
  ⟨_, rfl, (edit_leaves_none_iff lesson.payload false "d" rfl).mpr (by decide)⟩

theorem inactive_left : ∃ db', (attended false).editDeploymentUsers lesson.payload
      (some wholeClass) false "d" nobody = .ok db'
    ∧ ¬∀ user ∈ (attended false).users, wholeClass.covers user → ¬nobody.covers user →
      ¬db'.owns "d" user :=
  ⟨_, rfl, by decide⟩

end IsardVDI.Quotas
