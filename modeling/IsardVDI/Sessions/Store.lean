import IsardVDI.Sessions.SessionTime

/-!
# Sessions — `New`, `Renew` and `Revoke` over Redis

The session service at the granularity of single Redis commands. Any number of calls run at
the same time; each is a program counter, and a step of the machine is one command of one
call. Commands do not fail and no lock lease expires while it is held, which is what the
lock's TTL is chosen for.

* **`Redis`** — the three key families: `session:<id>`, `user:<id>` (the id of the user's
  session) and `lock:user:<id>`.
-/

namespace IsardVDI.Sessions

open Function

/-! ## Keys -/

structure Session where
  id : String
  userId : String
  remoteAddr : String
  time : SessionTime
  deriving DecidableEq, Repr

structure Redis where
  session : String → Option Session
  user : String → Option String
  lock : String → Bool

variable (r : Redis) (u : String)

namespace Redis

def setSession (r : Redis) (sess : Session) : Redis :=
  { r with session := update r.session sess.id (some sess) }

def deleteSession (r : Redis) (id : String) : Redis :=
  { r with session := update r.session id none }

def setUser (r : Redis) (userId sessionId : String) : Redis :=
  { r with user := update r.user userId (some sessionId) }

def deleteUser (r : Redis) (userId : String) : Redis :=
  { r with user := update r.user userId none }

def setLock (r : Redis) (userId : String) (held : Bool) : Redis :=
  { r with lock := update r.lock userId held }

theorem deleteSession_self (id : String) : (r.deleteSession id).session id = none :=
  update_self ..

theorem deleteSession_ne {id i : String} (h : i ≠ id) :
    (r.deleteSession id).session i = r.session i :=
  update_of_ne h ..

theorem setSession_self (sess : Session) : (r.setSession sess).session sess.id = some sess :=
  update_self ..

theorem setSession_ne {sess : Session} {i : String} (h : i ≠ sess.id) :
    (r.setSession sess).session i = r.session i :=
  update_of_ne h ..

theorem deleteUser_self : (r.deleteUser u).user u = none :=
  update_self ..

theorem deleteUser_ne {u v : String} (h : v ≠ u) : (r.deleteUser u).user v = r.user v :=
  update_of_ne h ..

theorem setUser_self (id : String) : (r.setUser u id).user u = some id :=
  update_self ..

theorem setUser_ne {u v : String} (id : String) (h : v ≠ u) : (r.setUser u id).user v = r.user v :=
  update_of_ne h ..

theorem setLock_self (held : Bool) : (r.setLock u held).lock u = held :=
  update_self ..

theorem setLock_ne {u v : String} (held : Bool) (h : v ≠ u) :
    (r.setLock u held).lock v = r.lock v :=
  update_of_ne h ..

end Redis

/-! ## The helper `revoke` -/

/-- The next command of `revoke`. -/
inductive RevokeStage where
  | loadSession (id : String)
  | deleteSession (sess : Session)
  | loadUser (userId : String)
  | deleteUser (userId : String)
  deriving DecidableEq, Repr

inductive RevokeResult where
  | more (stage : RevokeStage)
  | done
  | notFound
  deriving DecidableEq, Repr

/-- One command of `revoke`; a `DEL` that deletes nothing is "not found", like a `GET`. -/
def revoke (r : Redis) : RevokeStage → Redis × RevokeResult
  | .loadSession id =>
    match r.session id with
    | some sess => (r, .more (.deleteSession sess))
    | none => (r, .notFound)
  | .deleteSession sess =>
    match r.session sess.id with
    | some _ => (r.deleteSession sess.id, .more (.loadUser sess.userId))
    | none => (r, .notFound)
  | .loadUser userId =>
    match r.user userId with
    | some _ => (r, .more (.deleteUser userId))
    | none => (r, .notFound)
  | .deleteUser userId =>
    match r.user userId with
    | some _ => (r.deleteUser userId, .done)
    | none => (r, .notFound)

/-! ## Calls -/

/-- A call. The remote address is what `net.ParseIP` makes of it. -/
inductive Call where
  | new (userId : String) (remoteAddr : Option String)
  | renew (id : String) (remoteAddr : Option String)
  | revoke (id : String)

/-- What `New` knows before it takes the lock. -/
structure NewCall where
  userId : String
  remoteAddr : String
  time : SessionTime
  deriving DecidableEq, Repr

inductive Pc where
  | idle
  | newLock (c : NewCall)
  | newLoadUser (c : NewCall)
  | newRevoke (c : NewCall) (stage : RevokeStage)
  | newDeleteUser (c : NewCall)
  | newSaveSession (c : NewCall)
  | newSaveUser (c : NewCall) (sessionId : String)
  | renewLoad (id remoteAddr : String)
  | renewLock (sess : Session) (now : Int)
  | renewReload (sess : Session) (now : Int)
  | renewUpdate (userId : String) (sess : Session) (now : Int)
  | revokeLoad (id : String)
  | revokeLock (userId id : String)
  | revokeRun (userId : String) (stage : RevokeStage)
  | release (userId : String)
  deriving DecidableEq, Repr

/-- The user whose lock the call holds: it has set the key and not yet deleted it. -/
def Pc.held : Pc → Option String
  | .newLoadUser c | .newRevoke c _ | .newDeleteUser c | .newSaveSession c
  | .newSaveUser c _ => some c.userId
  | .renewReload sess _ => some sess.userId
  | .renewUpdate userId _ _ | .revokeRun userId _ | .release userId => some userId
  | .idle | .newLock _ | .renewLoad _ _ | .renewLock _ _ | .revokeLoad _
  | .revokeLock _ _ => none

structure World where
  redis : Redis
  pc : Nat → Pc
  issued : String → Option String

variable (w : World) (p : Nat) (pc : Pc)

namespace World

def init : World := ⟨⟨fun _ => none, fun _ => none, fun _ => false⟩, fun _ => .idle, fun _ => none⟩

def goto (w : World) (p : Nat) (r : Redis) (pc : Pc) : World :=
  { w with redis := r, pc := update w.pc p pc }

theorem goto_pc_self : (w.goto p r pc).pc p = pc :=
  update_self ..

theorem goto_pc_ne {p q : Nat} (h : q ≠ p) : (w.goto p r pc).pc q = w.pc q :=
  update_of_ne h ..

/-- A `SETNX` on the lock: on failure the loop tries again. -/
def tryLock (w : World) (p : Nat) (userId : String) (pc : Pc) : World :=
  if w.redis.lock userId then w else w.goto p (w.redis.setLock userId true) pc

end World

/-- A call begins. Arguments that are refused before the first command leave no trace. -/
def begin (cfg : Cfg) (w : World) (p : Nat) (call : Call) (now : Int) : Option World :=
  match w.pc p with
  | .idle =>
    match call with
    | .new userId (some addr) =>
      if userId = "" then some w
      else some (w.goto p w.redis (.newLock ⟨userId, addr, newTime cfg now⟩))
    | .renew id (some addr) => some (w.goto p w.redis (.renewLoad id addr))
    | .revoke id => some (w.goto p w.redis (.revokeLoad id))
    | .new _ none | .renew _ none => some w
  | _ => none

/-- The next command of call `p`, at clock reading `now`; `uuid` is the id of a session it
may create. -/
def exec (cfg : Cfg) (w : World) (p : Nat) (now : Int) (uuid : String) : Option World :=
  match w.pc p with
  | .idle => none
  | .newLock c => some (w.tryLock p c.userId (.newLoadUser c))
  | .newLoadUser c =>
    match w.redis.user c.userId with
    | some sessionId => some (w.goto p w.redis (.newRevoke c (.loadSession sessionId)))
    | none => some (w.goto p w.redis (.newSaveSession c))
  | .newRevoke c stage =>
    match revoke w.redis stage with
    | (r, .more stage) => some (w.goto p r (.newRevoke c stage))
    | (r, .done) => some (w.goto p r (.newSaveSession c))
    | (r, .notFound) => some (w.goto p r (.newDeleteUser c))
  | .newDeleteUser c =>
    match w.redis.user c.userId with
    | some _ => some (w.goto p (w.redis.deleteUser c.userId) (.newSaveSession c))
    | none => some (w.goto p w.redis (.release c.userId))
  | .newSaveSession c =>
    match w.issued uuid with
    | some _ => none
    | none =>
      some (World.goto { w with issued := update w.issued uuid (some c.userId) } p
        (w.redis.setSession ⟨uuid, c.userId, c.remoteAddr, c.time⟩) (.newSaveUser c uuid))
  | .newSaveUser c sessionId =>
    some (w.goto p (w.redis.setUser c.userId sessionId) (.release c.userId))
  | .renewLoad id addr =>
    match w.redis.session id with
    | none => some (w.goto p w.redis .idle)
    | some sess =>
      if cfg.remoteAddrControl && decide (sess.remoteAddr ≠ addr) then
        some (w.goto p w.redis .idle)
      else
        match checkRenew now sess.time with
        | .error _ => some (w.goto p w.redis .idle)
        | .ok _ => some (w.goto p w.redis (.renewLock sess now))
  | .renewLock sess now => some (w.tryLock p sess.userId (.renewReload sess now))
  | .renewReload sess now =>
    match w.redis.session sess.id with
    | none => some (w.goto p w.redis (.release sess.userId))
    | some reloaded => some (w.goto p w.redis (.renewUpdate sess.userId reloaded now))
  | .renewUpdate userId sess now =>
    some (w.goto p (w.redis.setSession { sess with time := renewTime cfg now sess.time })
      (.release userId))
  | .revokeLoad id =>
    match w.redis.session id with
    | none => some (w.goto p w.redis .idle)
    | some sess => some (w.goto p w.redis (.revokeLock sess.userId id))
  | .revokeLock userId id => some (w.tryLock p userId (.revokeRun userId (.loadSession id)))
  | .revokeRun userId stage =>
    match revoke w.redis stage with
    | (r, .more stage) => some (w.goto p r (.revokeRun userId stage))
    | (r, .done) | (r, .notFound) => some (w.goto p r (.release userId))
  | .release userId => some (w.goto p (w.redis.setLock userId false) .idle)

/-- A call that waits for a lock gives up: `ErrUserLockBusy`, or its context is done. -/
def giveUp (w : World) (p : Nat) : Option World :=
  match w.pc p with
  | .newLock _ | .renewLock _ _ | .revokeLock _ _ => some (w.goto p w.redis .idle)
  | _ => none

inductive Action where
  | begin (p : Nat) (call : Call) (now : Int)
  | exec (p : Nat) (now : Int) (uuid : String)
  | giveUp (p : Nat)
  /-- The TTL of a session key ends. -/
  | expire (id : String)
  /-- The TTL of a user key ends. It is set to the end of the session, as that of the session key
  is, but by another `SET`, and a renewal sets the session key again. -/
  | expireUser (userId : String)

def sessionService (cfg : Cfg) : Machine World Action where
  next w
    | .begin p call now => begin cfg w p call now
    | .exec p now uuid => exec cfg w p now uuid
    | .giveUp p => giveUp w p
    | .expire id => some { w with redis := w.redis.deleteSession id }
    | .expireUser userId => some { w with redis := w.redis.deleteUser userId }

end IsardVDI.Sessions
