import IsardVDI.Lib.Machine
import IsardVDI.Quotas.Checks

/-!
# Creations one after the other

`Quotas.Get` is memoised for five seconds, and `desktop_create` checks the reading it returns. Times
are microseconds.
-/

namespace IsardVDI.Quotas.Cached

/-- An item of the cache; it is there until `expires`. -/
structure Entry where
  reading : Reading
  expires : Int

/-- `SynchronizedTTLCache(maxsize=200, ttl=5)` -/
def ttl : Int := 5 * 1000000

/-- `Quotas.Get` of the user: what is in the cache, or what is read and put there. -/
def cachedGet (db : Db) (user : User) (cache : Option Entry) (now : Int) :
    Except Exc (Reading × Option Entry) :=
  match cache.filter (now < ·.expires) with
  | some entry => .ok (entry.reading, some entry)
  | none => (db.get user).map fun reading => (reading, some { reading, expires := now + ttl })

structure State where
  clock : Int
  db : Db
  cache : Option Entry

/-- A creation: when, and the row that is inserted if it is let through. -/
structure Call where
  now : Int
  id : String
  name : String

variable (user : User)

def newDesktop (call : Call) : Domain where
  id := call.id
  kind := .desktop
  name := call.name
  user := user.id
  group := user.group
  category := user.category
  tag := none
  persistent := true
  enabled := false

def insertDesktop (db : Db) (user : User) (call : Call) : Db :=
  { db with domains := newDesktop user call :: db.domains }

/-- The check, then the insertion; a check that raises inserts nothing. -/
def create (s : State) (call : Call) : State :=
  match cachedGet s.db user s.cache call.now with
  | .error _ => { s with clock := call.now }
  | .ok (reading, cache) =>
    match s.db.desktopCreate reading user 1 with
    | .error _ => { s with clock := call.now, cache := cache }
    | .ok () => { clock := call.now, db := insertDesktop s.db user call, cache := cache }

def machine : Machine State Call where
  next s call := if s.clock ≤ call.now then some (create user s call) else none

/-- No reading that is still in the cache is behind the table. -/
def Current (s : State) (call : Call) : Prop :=
  ∀ entry ∈ s.cache, call.now < entry.expires →
    s.db.used user.id .desktops ≤ entry.reading.used .desktops

instance (user : User) (s : State) (call : Call) : Decidable (Current user s call) :=
  match hcache : s.cache with
  | none => isTrue (by simp [Current, hcache])
  | some entry =>
    decidable_of_iff (call.now < entry.expires →
      s.db.used user.id .desktops ≤ entry.reading.used .desktops) (by simp [Current, hcache])

/-! ## One creation -/

section Step

variable {user : User} {quota : Quota} {initial : Db}

/-- The rows of users, groups and categories stay as they are, and so does the quota of the
readings. -/
structure Inv (user : User) (quota : Quota) (initial : Db) (s : State) : Prop where
  groups : s.db.groups = initial.groups
  categories : s.db.categories = initial.categories
  reading : ∀ entry ∈ s.cache, entry.reading.quota = some quota
  within : s.db.used user.id .desktops ≤ max (initial.used user.id .desktops) (quota .desktops)

theorem used_insertDesktop (db : Db) (user : User) (call : Call) :
    (insertDesktop db user call).used user.id .desktops = db.used user.id .desktops + 1 := by
  simp [Db.used, insertDesktop, newDesktop, Domain.counts]

theorem appliedQuota_congr {db db' : Db} (hgroups : db'.groups = db.groups)
    (hcategories : db'.categories = db.categories) (user : User) :
    db'.appliedQuota user = db.appliedQuota user := by
  simp only [Db.appliedQuota, Db.group, Db.category, hgroups, hcategories]

theorem cachedGet_ok {s : State} {call : Call} {reading : Reading} {cache : Option Entry}
    (hquota : initial.appliedQuota user = .ok (some quota)) (h : Inv user quota initial s)
    (hcurrent : Current user s call)
    (hget : cachedGet s.db user s.cache call.now = .ok (reading, cache)) :
    reading.quota = some quota ∧ s.db.used user.id .desktops ≤ reading.used .desktops
      ∧ ∀ entry ∈ cache, entry.reading = reading := by
  unfold cachedGet at hget
  split at hget
  · next entry hentry =>
    obtain ⟨hin, hlive⟩ := Option.filter_eq_some_iff.mp hentry
    cases hget
    refine ⟨h.reading entry hin, hcurrent entry hin (of_decide_eq_true hlive), fun e he => ?_⟩
    cases he
    rfl
  · cases hread : s.db.get user with
    | error e =>
      rw [hread] at hget
      cases hget
    | ok fresh =>
      rw [hread] at hget
      cases hget
      obtain ⟨applied, happlied, hfresh⟩ := bind_eq_ok.mp hread
      rw [appliedQuota_congr h.groups h.categories, hquota] at happlied
      cases happlied
      cases hfresh
      refine ⟨rfl, le_rfl, fun e he => ?_⟩
      cases he
      rfl

theorem Inv.next {s : State} {call : Call}
    (hquota : initial.appliedQuota user = .ok (some quota)) (h : Inv user quota initial s)
    (hcurrent : Current user s call) : Inv user quota initial (create user s call) := by
  unfold create
  split
  · exact { h with }
  · next reading cache hget =>
    obtain ⟨hreading, hused, hcache⟩ := cachedGet_ok hquota h hcurrent hget
    have hentries : ∀ entry ∈ cache, entry.reading.quota = some quota := fun entry hentry => by
      rw [hcache entry hentry, hreading]
    split
    · exact { h with reading := hentries }
    · next hcheck =>
      have hroom := desktopCreate_quota hcheck quota hreading
      refine { h with reading := hentries, within := ?_ }
      show (insertDesktop s.db user call).used user.id .desktops ≤ _
      rw [used_insertDesktop]
      exact le_max_of_le_right (by omega)

end Step

/-! ## A run -/

/-- **The quota holds.** For every database, every user with a quota, whatever is in the cache, and
every run of creations at non-decreasing times that are all checked on a reading that is not behind
the table, the user never has more desktops than at the beginning or than the quota allows. -/
theorem run_within_quota (user : User) (quota : Quota) (s s' : State) (calls : List Call)
    (hquota : s.db.appliedQuota user = .ok (some quota))
    (hcache : ∀ entry ∈ s.cache, entry.reading.quota = some quota)
    (hrun : (machine user).run s calls = some s')
    (hcurrent : (machine user).Meets (Current user) s calls) :
    s'.db.used user.id .desktops ≤ max (s.db.used user.id .desktops) (quota .desktops) := by
  have hinv : Inv user quota s.db s' := by
    refine Machine.run_invariant _ (Current user) (Inv user quota s.db) ?_
      { groups := rfl, categories := rfl, reading := hcache, within := le_max_left _ _ } hcurrent
      hrun
    intro state call next hstate hcall hnext
    simp only [machine, Option.ite_none_right_eq_some, Option.some.injEq] at hnext
    obtain ⟨-, rfl⟩ := hnext
    exact hstate.next hquota hcall
  exact hinv.within

def single : User where
  id := "u"
  name := "u"
  category := "c"
  group := "g"
  secondaryGroups := []
  active := true
  quota := some fun _ => 1

def fresh : State where
  clock := 0
  db :=
    { users := [single]
      groups := [{ id := "g", name := "g", quota := none, limits := none }]
      categories := [{ id := "c", name := "c", quota := none, limits := none }]
      domains := []
      deployments := []
      users_nodup := by decide
      groups_nodup := by decide
      categories_nodup := by decide }
  cache := none

/-- Once the reading has expired the second desktop is refused. -/
theorem second_refused :
    ∃ s', (machine single).run fresh [{ now := 0, id := "a", name := "a" },
        { now := 5000000, id := "b", name := "b" }] = some s'
      ∧ s'.db.used "u" .desktops ≤ 1 := by
  have hrun : (machine single).run fresh [{ now := 0, id := "a", name := "a" },
      { now := 5000000, id := "b", name := "b" }] = some _ := rfl
  exact ⟨_, hrun, run_within_quota single (fun _ => 1) fresh _ _ rfl nofun hrun (by decide)⟩

/-- A second later it is let through, on the reading that has none. -/
theorem second_waved_through :
    ((machine single).run fresh [{ now := 0, id := "a", name := "a" },
        { now := 1000000, id := "b", name := "b" }]).map (·.db.used "u" .desktops) = some 2
      ∧ fresh.db.used "u" .desktops = 0
      ∧ (fresh.db.appliedQuota single).toOption.bind (·.map (· .desktops)) = some 1 := by
  decide

end IsardVDI.Quotas.Cached
