import IsardVDI.Engine.VgpuPool

/-!
# The protocol of one vGPU device

What the pool's operations mean for one device: `View` is the device's entry, the desktops bound to
it and, for each thread, its `Role` towards the device. `View.Step` is the protocol a device goes
through where calls about it do not cross; it has one owner at every moment.

* **`View.Owned.step`**, `View.Owned.steps` — every step keeps that.
-/

namespace IsardVDI.Engine.Vgpu

variable {n : Nat} {D U : Type}

/-! ## The protocol of one device -/

inductive Phase
  | pending
  | stopping
  | sweeping
deriving DecidableEq

/-- What a thread is doing with the device; a start is `cleared` between its two writes. -/
inductive Role (D : Type)
  | away
  | binding (dom : D)
  | starting (dom : D) (cleared : Bool)
  | releasing (dom : D) (phase : Phase)

@[ext]
structure View (n : Nat) (D : Type) where
  marks : Marks D
  held : List D
  bound : D → Prop
  roles : Fin n → Role D

namespace View

variable {v v' : View n D}

def setRole (v : View n D) (t : Fin n) (role : Role D) : View n D :=
  { v with roles := Function.update v.roles t role }

def Involves (v : View n D) (dom : D) : Prop :=
  dom ∈ v.held ∨ ∃ t phase, v.roles t = .releasing dom phase

/-- Roles that end without a write. -/
def MayLeave : Role D → Prop
  | .away | .starting _ false | .releasing _ .sweeping => True
  | _ => False

inductive Step [DecidableEq D] : View n D → View n D → Prop
  | leave {v : View n D} (t : Fin n) (h : MayLeave (v.roles t)) : Step v (v.setRole t .away)
  | reserve {v : View n D} (t : Fin n) (dom : D) (hfree : v.marks.Free)
      (hstart : ∀ t dom cleared, v.roles t ≠ .starting dom cleared)
      (hrelease : ∀ t dom phase, v.roles t ≠ .releasing dom phase) :
      Step v { v.setRole t (.binding dom) with
        marks := ⟨some dom, none⟩, held := dom :: v.held }
  | bind {v : View n D} (t : Fin n) (dom : D) (h : v.roles t = .binding dom) :
      Step v { v.setRole t .away with bound := fun d => d = dom ∨ v.bound d }
  | begin {v : View n D} (t : Fin n) (dom : D) (h : v.roles t = .away) (hheld : dom ∈ v.held) :
      Step v (v.setRole t (.starting dom false))
  | unreserve {v : View n D} (t : Fin n) (dom : D) (h : v.roles t = .starting dom false) :
      Step v { v.setRole t (.starting dom true) with marks := { v.marks with reserved := none } }
  | mark {v : View n D} (t : Fin n) (dom : D) (h : v.roles t = .starting dom true) :
      Step v { v.setRole t (.starting dom false) with
        marks := { v.marks with started := some dom } }
  | snapshot {v : View n D} (t : Fin n) (dom : D) (h : v.roles t = .away) (hbound : v.bound dom) :
      Step v (v.setRole t (.releasing dom .pending))
  | stop {v : View n D} (t : Fin n) (dom : D) (h : v.roles t = .releasing dom .pending)
      (hstart : ∀ t cleared, v.roles t ≠ .starting dom cleared) :
      Step v { v.setRole t (.releasing dom .stopping) with held := v.held.filter (· ≠ dom) }
  | clear {v : View n D} (t : Fin n) (dom : D) (phase : Phase) (marks : Marks D)
      (h : v.roles t = .releasing dom phase) (hphase : phase ≠ .pending)
      (hmarks : ∀ d, marks.Of d → v.marks.Of d) : Step v { v with marks := marks }
  | unbind {v : View n D} (t : Fin n) (dom : D) (role : Role D)
      (h : v.roles t = .releasing dom .stopping)
      (hnext : role = .away ∨ role = .releasing dom .pending) :
      Step v { v.setRole t role with bound := fun d => d ≠ dom ∧ v.bound d }
  | sweep {v : View n D} (t : Fin n) (dom : D) (h : v.roles t = .away) (hmark : v.marks.Of dom)
      (hheld : dom ∉ v.held) : Step v (v.setRole t (.releasing dom .sweeping))

structure Sole (v : View n D) : Prop where
  sole : ∀ d d', v.Involves d → v.Involves d' → d = d'
  marks : ∀ d d', v.Involves d → v.marks.Of d' → d' = d
  single : ∀ d d', v.marks.Of d → v.marks.Of d' → d = d'

structure Owned (v : View n D) : Prop extends Sole v where
  live : ∀ d ∈ v.held, v.marks.Of d ∨ ∃ t, v.roles t = .starting d true
  starting : ∀ t d cleared, v.roles t = .starting d cleared → d ∈ v.held
  /-- between the swap and the binding nothing else is on -/
  binding : ∀ t d, v.roles t = .binding d → d ∈ v.held ∧ ¬v.bound d
    ∧ (∀ t' phase, v.roles t' ≠ .releasing d phase) ∧ ∀ t', v.roles t' = .binding d → t' = t
  /-- a desktop that is bound holds the device, or is stopping -/
  bound : ∀ d, v.bound d → d ∈ v.held ∨ ∃ t, v.roles t = .releasing d .stopping
  past : ∀ t d phase, v.roles t = .releasing d phase → phase ≠ .pending → d ∉ v.held

theorem Sole.mono (h : Sole v) (hinvolves : ∀ d, v'.Involves d → v.Involves d)
    (hmarks : ∀ d, v'.marks.Of d → v.marks.Of d) : Sole v' where
  sole d d' hd hd' := h.sole d d' (hinvolves d hd) (hinvolves d' hd')
  marks d d' hd hd' := h.marks d d' (hinvolves d hd) (hmarks d' hd')
  single d d' hd hd' := h.single d d' (hmarks d hd) (hmarks d' hd')

theorem Sole.of_eq {dom : D} (hinvolves : ∀ d, v.Involves d → d = dom)
    (hmarks : ∀ d, v.marks.Of d → d = dom) : Sole v where
  sole d d' hd hd' := by rw [hinvolves d hd, hinvolves d' hd']
  marks d d' hd hd' := by rw [hinvolves d hd, hmarks d' hd']
  single d d' hd hd' := by rw [hmarks d hd, hmarks d' hd']

/-! ### The roles after a thread takes another -/

section Roles

variable {t t' : Fin n} {role other : Role D}

theorem roles_setRole : (v.setRole t role).roles t' = if t' = t then role else v.roles t' :=
  Function.update_apply ..

theorem setRole_self (h : v.roles t = role) : v.setRole t role = v := by
  ext t' <;> try rfl
  rw [roles_setRole]
  split_ifs with heq
  · rw [heq, h]
  · rfl

theorem of_roles_setRole (h : (v.setRole t role).roles t' = other) :
    t' = t ∧ role = other ∨ t' ≠ t ∧ v.roles t' = other := by
  rw [roles_setRole] at h
  split_ifs at h with heq
  · exact .inl ⟨heq, h⟩
  · exact .inr ⟨heq, h⟩

theorem roles_of_setRole (h : (v.setRole t role).roles t' = other) (hne : role ≠ other) :
    v.roles t' = other :=
  (of_roles_setRole h).elim (fun h => absurd h.2 hne) And.right

theorem exists_setRole (hne : v.roles t ≠ other) (h : ∃ t', v.roles t' = other) :
    ∃ t', (v.setRole t role).roles t' = other := by
  obtain ⟨t', ht'⟩ := h
  refine ⟨t', ?_⟩
  have hother : t' ≠ t := by
    rintro rfl
    exact hne ht'
  rw [roles_setRole, if_neg hother]
  exact ht'

theorem involves_of_setRole (hrole : ∀ d phase, role = .releasing d phase → v.Involves d) {d : D}
    (h : (v.setRole t role).Involves d) : v.Involves d := by
  rcases h with hheld | ⟨t', phase, hrel⟩
  · exact .inl hheld
  · rcases of_roles_setRole hrel with ⟨-, heq⟩ | ⟨-, hrel⟩
    · exact hrole d phase heq
    · exact .inr ⟨t', phase, hrel⟩

theorem Sole.setRole (h : Sole v) (hrole : ∀ d phase, role = .releasing d phase → v.Involves d) :
    Sole (v.setRole t role) :=
  h.mono (fun _ => involves_of_setRole hrole) fun _ hd => hd

end Roles

/-! ### The invariant -/

section Owned

variable {t : Fin n} {dom : D} (h : Owned v)
include h

theorem Owned.sole_of_held (hheld : dom ∈ v.held) {d : D} (hd : d ∈ v.held) : d = dom :=
  h.sole d dom (.inl hd) (.inl hheld)

theorem Owned.not_held (hfree : v.marks.Free)
    (hstart : ∀ t dom cleared, v.roles t ≠ .starting dom cleared) (d : D) : d ∉ v.held := by
  intro hd
  rcases h.live d hd with hmark | ⟨t, ht⟩
  · simp [Marks.Of, hfree.1, hfree.2] at hmark
  · exact hstart t d true ht

theorem Owned.binding_setRole {role : Role D} {t' : Fin n} {d : D}
    (ht' : (v.setRole t role).roles t' = .binding d) (hbinding : ∀ d, role ≠ .binding d)
    (hreleasing : ∀ d phase, role = .releasing d phase → ∀ t', v.roles t' ≠ .binding d) :
    v.roles t' = .binding d ∧ d ∈ v.held ∧ ¬v.bound d
      ∧ (∀ t'' phase, (v.setRole t role).roles t'' ≠ .releasing d phase)
      ∧ ∀ t'', (v.setRole t role).roles t'' = .binding d → t'' = t' := by
  have hold {t'' : Fin n} (ht'' : (v.setRole t role).roles t'' = .binding d) :
      v.roles t'' = .binding d := roles_of_setRole ht'' (hbinding d)
  obtain ⟨hheld, hunbound, hnone, honly⟩ := h.binding t' d (hold ht')
  refine ⟨hold ht', hheld, hunbound, fun t'' phase ht'' => ?_,
    fun t'' ht'' => honly t'' (hold ht'')⟩
  rcases of_roles_setRole ht'' with ⟨-, heq⟩ | ⟨-, hrel⟩
  · exact hreleasing d phase heq t' (hold ht')
  · exact hnone t'' phase hrel

theorem Owned.turn {role : Role D} (hlive : ∀ d, v.roles t ≠ .starting d true)
    (hbound : ∀ d, v.roles t ≠ .releasing d .stopping) (hbinding : ∀ d, role ≠ .binding d)
    (hstarting : ∀ d cleared, role = .starting d cleared → d ∈ v.held)
    (hsole : Sole (v.setRole t role))
    (hreleasing : ∀ d phase, role = .releasing d phase →
      (phase ≠ .pending → d ∉ v.held) ∧ ∀ t', v.roles t' ≠ .binding d) :
    Owned (v.setRole t role) where
  toSole := hsole
  live d hd := (h.live d hd).imp_right (exists_setRole (hlive d))
  starting t' d cleared ht' := by
    rcases of_roles_setRole ht' with ⟨-, heq⟩ | ⟨-, hold⟩
    · exact hstarting d cleared heq
    · exact h.starting t' d cleared hold
  binding t' d ht' :=
    (h.binding_setRole ht' hbinding fun d phase heq => (hreleasing d phase heq).2).2
  bound d hd := (h.bound d hd).imp_right (exists_setRole (hbound d))
  past t' d phase ht' hphase := by
    rcases of_roles_setRole ht' with ⟨-, heq⟩ | ⟨-, hold⟩
    · exact (hreleasing d phase heq).1 hphase
    · exact h.past t' d phase hold hphase

theorem Owned.leave (hleave : MayLeave (v.roles t)) : Owned (v.setRole t .away) := by
  refine h.turn (fun d heq => ?_) (fun d heq => ?_) nofun nofun ?_ nofun
  · rw [heq] at hleave
    exact hleave
  · rw [heq] at hleave
    exact hleave
  · exact h.toSole.setRole nofun

theorem Owned.begin (hrole : v.roles t = .away) (hheld : dom ∈ v.held) :
    Owned (v.setRole t (.starting dom false)) := by
  refine h.turn (by simp [hrole]) (by simp [hrole]) nofun ?_ ?_ nofun
  · rintro d cleared ⟨⟩
    exact hheld
  · exact h.toSole.setRole nofun

theorem Owned.snapshot (hrole : v.roles t = .away) (hbound : v.bound dom) :
    Owned (v.setRole t (.releasing dom .pending)) := by
  refine h.turn (by simp [hrole]) (by simp [hrole]) nofun nofun ?_ ?_
  · refine h.toSole.setRole ?_
    rintro d phase ⟨⟩
    exact (h.bound dom hbound).imp_right fun ⟨t', ht'⟩ => ⟨t', _, ht'⟩
  · rintro d phase ⟨⟩
    exact ⟨fun hne => absurd rfl hne, fun t' ht' => (h.binding t' dom ht').2.1 hbound⟩

theorem Owned.sweep (hrole : v.roles t = .away) (hmark : v.marks.Of dom)
    (hheld : dom ∉ v.held) : Owned (v.setRole t (.releasing dom .sweeping)) := by
  -- whoever is on about the device is the desktop it is marked for
  have hinvolves {d : D} (hd : (v.setRole t (.releasing dom .sweeping)).Involves d) : d = dom := by
    rcases hd with hd | ⟨t', phase, ht'⟩
    · exact (h.marks d dom (.inl hd) hmark).symm
    · rcases of_roles_setRole ht' with ⟨-, ⟨⟩⟩ | ⟨-, hold⟩
      · rfl
      · exact (h.marks d dom (.inr ⟨t', phase, hold⟩) hmark).symm
  refine h.turn (by simp [hrole]) (by simp [hrole]) nofun nofun ?_ ?_
  · exact .of_eq (fun d => hinvolves) fun d hd => h.single d dom hd hmark
  · rintro d phase ⟨⟩
    exact ⟨fun _ => hheld, fun t' ht' => hheld (h.binding t' dom ht').1⟩

theorem Owned.reserve (hfree : v.marks.Free)
    (hstart : ∀ t dom cleared, v.roles t ≠ .starting dom cleared)
    (hrelease : ∀ t dom phase, v.roles t ≠ .releasing dom phase) :
    Owned { v.setRole t (.binding dom) with marks := ⟨some dom, none⟩, held := dom :: v.held } := by
  have hnone := h.not_held hfree hstart
  have hheld {d : D} (hd : d ∈ dom :: v.held) : d = dom :=
    (List.mem_cons.mp hd).resolve_right (hnone d)
  have hmarks {d : D} (hd : (⟨some dom, none⟩ : Marks D).Of d) : d = dom := by
    simpa [Marks.Of, eq_comm] using hd
  have hrel (t' : Fin n) (d : D) (phase : Phase) :
      (v.setRole t (.binding dom)).roles t' ≠ .releasing d phase := by
    exact fun ht' => hrelease t' d phase (roles_of_setRole ht' nofun)
  have hinvolves {d : D} (hd : View.Involves { v.setRole t (.binding dom) with
      marks := ⟨some dom, none⟩, held := dom :: v.held } d) : d = dom := by
    rcases hd with hd | ⟨t', phase, ht'⟩
    · exact hheld hd
    · exact absurd ht' (hrel t' d phase)
  have hunbound (d : D) : ¬v.bound d := by
    intro hd
    rcases h.bound d hd with hd | ⟨t', ht'⟩
    · exact hnone d hd
    · exact hrelease t' d _ ht'
  constructor
  · exact .of_eq (fun d => hinvolves) fun d => hmarks
  · intro d hd
    rw [hheld hd]
    exact .inl (.inr rfl)
  · exact fun t' d cleared ht' => absurd (roles_of_setRole ht' nofun) (hstart t' d cleared)
  · intro t' d ht'
    -- another one binding would hold the device
    have hself {t'' : Fin n} {d : D}
        (ht'' : (v.setRole t (.binding dom)).roles t'' = .binding d) : t'' = t ∧ dom = d := by
      rcases of_roles_setRole ht'' with ⟨heq, ⟨⟩⟩ | ⟨-, hold⟩
      · exact ⟨heq, rfl⟩
      · exact absurd (h.binding t'' d hold).1 (hnone d)
    refine ⟨?_, hunbound d, fun t'' phase => hrel t'' d phase, fun t'' ht'' => ?_⟩
    · rw [(hself ht').2]
      exact .head _
    · rw [(hself ht'').1, (hself ht').1]
  · exact fun d hd => absurd hd (hunbound d)
  · exact fun t' d phase ht' => absurd ht' (hrel t' d phase)

theorem Owned.bind (hrole : v.roles t = .binding dom) :
    Owned { v.setRole t .away with bound := fun d => d = dom ∨ v.bound d } := by
  obtain ⟨hheld, hunbound, hnone, honly⟩ := h.binding t dom hrole
  have hturn : Owned (v.setRole t .away) :=
    h.turn (by simp [hrole]) (by simp [hrole]) nofun nofun (h.toSole.setRole nofun) nofun
  refine ⟨hturn.toSole.mono (fun d hd => hd) fun d hd => hd, hturn.live, hturn.starting, ?_, ?_,
    hturn.past⟩
  · intro t' d ht'
    obtain ⟨hd, hunbound', hrest⟩ := hturn.binding t' d ht'
    refine ⟨hd, ?_, hrest⟩
    rintro (rfl | hbound)
    · -- no other thread is binding for the same desktop
      rcases of_roles_setRole ht' with ⟨-, ⟨⟩⟩ | ⟨hne, hold⟩
      exact hne (honly t' hold)
    · exact hunbound' hbound
  · rintro d (rfl | hbound)
    · exact .inl hheld
    · exact hturn.bound d hbound

theorem Owned.unreserve (hrole : v.roles t = .starting dom false) :
    Owned { v.setRole t (.starting dom true) with marks := { v.marks with reserved := none } } := by
  have hheld := h.starting t dom false hrole
  have hmarks {d : D} (hd : ({ v.marks with reserved := none } : Marks D).Of d) : v.marks.Of d :=
    hd.imp_right nofun
  have hturn : Owned (v.setRole t (.starting dom true)) := by
    refine h.turn (by simp [hrole]) (by simp [hrole]) nofun ?_ ?_ nofun
    · rintro d cleared ⟨⟩
      exact hheld
    · exact h.toSole.setRole nofun
  refine ⟨hturn.toSole.mono (fun d hd => hd) fun d hd => hmarks hd, ?_, hturn.starting,
    hturn.binding, hturn.bound, hturn.past⟩
  -- the mark may be gone, but the thread that took it is within its start
  intro d hd
  rw [h.sole_of_held hheld hd]
  exact .inr ⟨t, by simp [roles_setRole]⟩

theorem Owned.mark (hrole : v.roles t = .starting dom true) :
    Owned { v.setRole t (.starting dom false) with
      marks := { v.marks with started := some dom } } := by
  have hheld := h.starting t dom true hrole
  have hinvolves {d : D} (hd : (v.setRole t (.starting dom false)).Involves d) : d = dom :=
    h.sole d dom (involves_of_setRole nofun hd) (.inl hheld)
  have hmarks {d : D} (hd : ({ v.marks with started := some dom } : Marks D).Of d) : d = dom := by
    rcases hd with hd | hd
    · exact (Option.some.inj hd).symm
    · exact h.marks dom d (.inl hheld) (.inr hd)
  constructor
  · exact .of_eq (fun d => hinvolves) fun d => hmarks
  · intro d hd
    rw [h.sole_of_held hheld hd]
    exact .inl (.inl rfl)
  · intro t' d cleared ht'
    rcases of_roles_setRole ht' with ⟨-, ⟨⟩⟩ | ⟨-, hold⟩
    · exact hheld
    · exact h.starting t' d cleared hold
  · exact fun t' d ht' => (h.binding_setRole ht' nofun nofun).2
  · exact fun d hd => (h.bound d hd).imp_right (exists_setRole (by simp [hrole]))
  · exact fun t' d phase ht' => h.past t' d phase (roles_of_setRole ht' nofun)

theorem Owned.clear {phase : Phase} {marks : Marks D} (hrole : v.roles t = .releasing dom phase)
    (hphase : phase ≠ .pending) (hmarks : ∀ d, marks.Of d → v.marks.Of d) :
    Owned { v with marks := marks } := by
  refine ⟨h.toSole.mono (fun d hd => hd) hmarks, ?_, h.starting, h.binding, h.bound, h.past⟩
  -- nobody holds the device: that would be the desktop that is past holding it
  intro d hd
  have hsame : d = dom := h.sole d dom (.inl hd) (.inr ⟨t, phase, hrole⟩)
  exact absurd (hsame ▸ hd) (h.past t dom phase hrole hphase)

theorem Owned.stop [DecidableEq D] (hrole : v.roles t = .releasing dom .pending)
    (hstart : ∀ t cleared, v.roles t ≠ .starting dom cleared) :
    Owned { v.setRole t (.releasing dom .stopping) with held := v.held.filter (· ≠ dom) } := by
  have hheld {d : D} (hd : d ∈ v.held.filter (· ≠ dom)) : d ∈ v.held ∧ d ≠ dom := by
    simpa using hd
  have hstays {d : D} (hd : d ∈ v.held) (hne : d ≠ dom) : d ∈ v.held.filter (· ≠ dom) := by
    simpa using ⟨hd, hne⟩
  -- a desktop that is released is not binding
  have hunreleased (t' : Fin n) : v.roles t' ≠ .binding dom := fun ht' =>
    (h.binding t' dom ht').2.2.1 t _ hrole
  have hreleasing (d : D) (phase : Phase) (heq : Role.releasing dom .stopping = .releasing d phase)
      (t' : Fin n) : v.roles t' ≠ .binding d := by
    cases heq
    exact hunreleased t'
  constructor
  · refine h.toSole.mono (fun d hd => ?_) fun d hd => hd
    rcases hd with hd | ⟨t', phase, ht'⟩
    · exact .inl (hheld hd).1
    · rcases of_roles_setRole ht' with ⟨-, ⟨⟩⟩ | ⟨-, hold⟩
      · exact .inr ⟨t, _, hrole⟩
      · exact .inr ⟨t', phase, hold⟩
  · intro d hd
    exact (h.live d (hheld hd).1).imp_right (exists_setRole (by simp [hrole]))
  · intro t' d cleared ht'
    have hold := roles_of_setRole ht' nofun
    refine hstays (h.starting t' d cleared hold) ?_
    rintro rfl
    exact hstart t' cleared hold
  · intro t' d ht'
    obtain ⟨hold, hd, hunbound, halone⟩ := h.binding_setRole ht' nofun hreleasing
    have hne : d ≠ dom := by
      rintro rfl
      exact hunreleased t' hold
    exact ⟨hstays hd hne, hunbound, halone⟩
  · intro d hd
    by_cases hne : d = dom
    · -- still bound, and held no more: it is stopping
      exact .inr ⟨t, by simp [roles_setRole, hne]⟩
    · exact (h.bound d hd).imp (fun hd => hstays hd hne) (exists_setRole (by simp [hrole]))
  · intro t' d phase ht' hphase hd
    rcases of_roles_setRole ht' with ⟨-, ⟨⟩⟩ | ⟨-, hold⟩
    · exact (hheld hd).2 rfl
    · exact h.past t' d phase hold hphase (hheld hd).1

theorem Owned.unbind (hrole : v.roles t = .releasing dom .stopping) {role : Role D}
    (hnext : role = .away ∨ role = .releasing dom .pending) :
    Owned { v.setRole t role with bound := fun d => d ≠ dom ∧ v.bound d } := by
  have hstarting (d : D) (cleared : Bool) : role ≠ .starting d cleared := by
    rcases hnext with rfl | rfl <;> nofun
  have hbinding (d : D) : role ≠ .binding d := by
    rcases hnext with rfl | rfl <;> nofun
  have hreleasing {d : D} {phase : Phase} (heq : role = .releasing d phase) :
      d = dom ∧ phase = .pending := by
    rcases hnext with rfl | rfl
    · cases heq
    · cases heq
      exact ⟨rfl, rfl⟩
  constructor
  · refine h.toSole.mono (fun d hd => involves_of_setRole (fun d phase heq => ?_) hd) fun d hd => hd
    rw [(hreleasing heq).1]
    exact .inr ⟨t, _, hrole⟩
  · exact fun d hd => (h.live d hd).imp_right (exists_setRole (by simp [hrole]))
  · exact fun t' d cleared ht' =>
      h.starting t' d cleared (roles_of_setRole ht' (hstarting d cleared))
  · intro t' d ht'
    obtain ⟨-, hd, hunbound, halone⟩ := h.binding_setRole ht' hbinding fun d phase heq t'' ht'' =>
      (h.binding t'' d ht'').2.2.1 t _ ((hreleasing heq).1 ▸ hrole)
    exact ⟨hd, fun hbound => hunbound hbound.2, halone⟩
  · rintro d ⟨hne, hbound⟩
    refine (h.bound d hbound).imp_right (exists_setRole ?_)
    rw [hrole]
    rintro ⟨⟩
    exact hne rfl
  · intro t' d phase ht' hphase
    rcases of_roles_setRole ht' with ⟨-, heq⟩ | ⟨-, hold⟩
    · exact absurd (hreleasing heq).2 hphase
    · exact h.past t' d phase hold hphase

theorem Owned.step [DecidableEq D] (hstep : Step v v') : Owned v' := by
  cases hstep with
  | leave t hrole => exact h.leave hrole
  | reserve t dom hfree hstart hrelease => exact h.reserve hfree hstart hrelease
  | bind t dom hrole => exact h.bind hrole
  | begin t dom hrole hheld => exact h.begin hrole hheld
  | unreserve t dom hrole => exact h.unreserve hrole
  | mark t dom hrole => exact h.mark hrole
  | snapshot t dom hrole hbound => exact h.snapshot hrole hbound
  | stop t dom hrole hstart => exact h.stop hrole hstart
  | clear t dom phase marks hrole hphase hmarks => exact h.clear hrole hphase hmarks
  | unbind t dom role hrole hnext => exact h.unbind hrole hnext
  | sweep t dom hrole hmark hheld => exact h.sweep hrole hmark hheld

end Owned

theorem Owned.steps [DecidableEq D] {v v' : View n D} (h : v.Owned)
    (hsteps : Relation.ReflTransGen Step v v') : v'.Owned := by
  induction hsteps with
  | refl => exact h
  | tail _ hstep ih => exact ih.step hstep

end View

end IsardVDI.Engine.Vgpu
