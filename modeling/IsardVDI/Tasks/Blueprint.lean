import IsardVDI.Tasks.Build

/-!
# `models/task.py` — what a chain declares, and what its builds leave

The raw dependents of the top job fix every job the chain can ever have: an id says where in the
declaration its job stands. A job may be there or not, and while it is built its metadata does
not name its dependents yet.

* `Attached` — every job that is there hangs off another one that is there, and its metadata
  names what it declares unless it is still being built.
-/

namespace IsardVDI

open List

/-! ## Reading the declaration -/

/-- A place in the declaration: a job or a finalize step, with what it declares below. -/
inductive Site (C : Type) where
  | job (dependents : Deps C)
  | step (dependents : Deps C)

structure Blueprint (U C : Type) where
  top : U
  dependents : Deps C

section Blueprint

variable {U C : Type}

def Deps.children : Deps C → List (Deps C)
  | .nil => []
  | .core _ dependents rest => dependents :: rest.children
  | .storage _ dependents rest => dependents :: rest.children

/-- A job numbers its `core` dependents among themselves, a step among all of its children. -/
def Site.down : Site C → Segment → Site C
  | .job dependents, .dep i =>
    .job ((dependents.storageDependents[i]?.map Child.dependents).getD .nil)
  | .job dependents, .cf i => .step (dependents.cores.children[i]?.getD .nil)
  | .step dependents, .cf i => .step (dependents.children[i]?.getD .nil)
  | .step dependents, .sd i =>
    .job ((dependents.storageDependents[i]?.map Child.dependents).getD .nil)
  | .job _, .sd _ | .step _, .dep _ => .job .nil

def Site.dependents : Site C → Deps C
  | .job dependents | .step dependents => dependents

variable {child : Child C} {i : Nat}

namespace Blueprint

variable (b : Blueprint U C)

def root : Ident U := ⟨b.top, []⟩

def site (id : Ident U) : Site C :=
  id.path.foldl Site.down (.job b.dependents)

/-- `meta["dependent_ids"]` of a job that was built. -/
def dependentIds (id : Ident U) : List (Ident U) :=
  dependentIdsOf id 0 0 (b.site id).dependents

/-- `meta["core_finalize"]` of a job that was built. -/
def coreFinalize (id : Ident U) : Forest U C :=
  coreFinalizeOf id 0 (b.site id).dependents

variable {b : Blueprint U C} {id : Ident U} {deps : Deps C}

theorem site_append (segment : Segment) :
    b.site (id.append segment) = (b.site id).down segment := by
  simp [site, Ident.append]

theorem site_dependent (hid : b.site id = .job deps)
    (hchild : deps.storageDependents[i]? = some child) :
    b.site (id.dependent i) = .job child.dependents := by
  rw [Ident.dependent, site_append, hid]
  simp [Site.down, hchild]

theorem site_knotChildId (hid : b.site id = .step deps)
    (hchild : deps.storageDependents[i]? = some child) :
    b.site (id.knotChildId i) = .job child.dependents := by
  rw [Ident.knotChildId, site_append, hid]
  simp [Site.down, hchild]

theorem dependentIds_eq (hid : b.site id = .job deps) :
    b.dependentIds id = dependentIdsOf id 0 0 deps := by
  simp [dependentIds, hid, Site.dependents]

theorem coreFinalize_eq (hid : b.site id = .job deps) :
    b.coreFinalize id = coreFinalizeOf id 0 deps := by
  simp [coreFinalize, hid, Site.dependents]

end Blueprint

/-! ## Knot children of a tree -/

def knotChildren (stepId : Ident U) (storageDependents : List (Child C)) :
    List (Ident U × Child C) :=
  storageDependents.zipIdx.map fun (child, index) => (stepId.knotChildId index, child)

variable {knot : Ident U × Child C} {index storageIndex coreIndex : Nat} {deps : Deps C}
  {job id parent : Ident U}

theorem mem_knotChildren {stepId : Ident U} {storageDependents : List (Child C)} :
    knot ∈ knotChildren stepId storageDependents
      ↔ ∃ i, storageDependents[i]? = some knot.2 ∧ knot.1 = stepId.knotChildId i := by
  obtain ⟨id, child⟩ := knot
  simp [knotChildren, mem_zipIdx_iff_getElem?, eq_comm]

def Forest.knots : Forest U C → List (Ident U × Child C)
  | .nil => []
  | .node id _ _ coreFinalize storageDependents _ rest =>
    knotChildren id storageDependents ++ coreFinalize.knots ++ rest.knots

theorem Forest.mem_knotChildIds {forest : Forest U C} (h : knot ∈ forest.knots) :
    knot.1 ∈ forest.knotChildIds := by
  induction forest with
  | nil => simp [knots] at h
  | node id spec status coreFinalize storageDependents unbuilt rest ihc _ ihr =>
    simp only [knots, mem_append] at h
    simp only [knotChildIds, mem_append]
    rcases h with (h | h) | h
    · obtain ⟨i, hi, hid⟩ := mem_knotChildren.mp h
      refine .inl (.inl (mem_map.mpr ⟨i, ?_, hid.symm⟩))
      exact mem_range.mpr (List.getElem?_eq_some_iff.mp hi).1
    · exact .inl (.inr (ihc h))
    · exact .inr (ihr h)

variable {b : Blueprint U C}

theorem site_of_mem_serializeFinalize (hsteps : ∀ k below, deps.children[k]? = some below →
      b.site (parent.step (index + k)) = .step below)
    (h : knot ∈ (serializeFinalize parent index deps).knots) :
    b.site knot.1 = .job knot.2.dependents := by
  induction deps generalizing parent index with
  | nil => simp [serializeFinalize, Forest.knots] at h
  | core spec dependents rest ihd ihr =>
    have hstep : b.site (parent.step index) = .step dependents := hsteps 0 dependents rfl
    simp only [serializeFinalize, Forest.knots, mem_append] at h
    rcases h with (h | h) | h
    · obtain ⟨i, hi, hid⟩ := mem_knotChildren.mp h
      rw [hid]
      exact Blueprint.site_knotChildId hstep hi
    · refine ihd (fun k below hk => ?_) h
      rw [Ident.step, Blueprint.site_append, hstep]
      simp [Site.down, hk]
    · refine ihr (fun k below hk => ?_) h
      rw [Nat.add_right_comm]
      exact hsteps (k + 1) below hk
  | storage spec dependents rest _ ihr =>
    refine ihr (fun k below hk => ?_) h
    rw [Nat.add_right_comm]
    exact hsteps (k + 1) below hk

theorem length_of_mem_knotChildIds (h : id ∈ (serializeFinalize parent index deps).knotChildIds) :
    parent.path.length < id.path.length := by
  induction deps generalizing parent index with
  | nil => simp [serializeFinalize, Forest.knotChildIds] at h
  | core spec dependents rest ihd ihr =>
    have hlength : (parent.step index).path.length = parent.path.length + 1 := by
      simp [Ident.step, Ident.append]
    simp only [serializeFinalize, Forest.knotChildIds, mem_append, mem_map] at h
    rcases h with (⟨i, -, rfl⟩ | h) | h
    · simp [Ident.knotChildId, Ident.step, Ident.append]
    · have hbelow := ihd h
      omega
    · exact ihr h
  | storage spec dependents rest _ ihr => exact ihr h

theorem mem_dependentIdsOf_of_knot (h : id ∈ (coreFinalizeOf job coreIndex deps).knotChildIds) :
    id ∈ dependentIdsOf job coreIndex storageIndex deps := by
  induction deps generalizing coreIndex storageIndex with
  | nil => simp [coreFinalizeOf, Forest.knotChildIds] at h
  | core spec dependents rest _ ihr =>
    have hsplit : id ∈ (serializeFinalize job coreIndex (.core spec dependents .nil)).knotChildIds
        ∨ id ∈ (coreFinalizeOf job (coreIndex + 1) rest).knotChildIds := by
      simpa [coreFinalizeOf, serializeFinalize, Forest.knotChildIds, or_assoc] using h
    exact mem_append.mpr (hsplit.imp_right ihr)
  | storage spec dependents rest _ ihr => exact .tail _ (ihr h)

theorem mem_dependentIdsOf_of_storage (h : deps.storageDependents[i]? = some child) :
    job.dependent (storageIndex + i) ∈ dependentIdsOf job coreIndex storageIndex deps := by
  induction deps generalizing coreIndex storageIndex i with
  | nil => simp [Deps.storageDependents] at h
  | core spec dependents rest _ ihr => exact mem_append_right _ (ihr h)
  | storage spec dependents rest _ ihr =>
    cases i with
    | zero => exact .head _
    | succ i =>
      refine .tail _ ?_
      rw [show storageIndex + (i + 1) = storageIndex + 1 + i by omega]
      exact ihr h

structure Blueprint.Declares (b : Blueprint U C) (parent id : Ident U) : Prop where
  mem : id ∈ b.dependentIds parent
  length : parent.path.length < id.path.length

theorem Blueprint.declares_dependent (hid : b.site id = .job deps)
    (hchild : deps.storageDependents[i]? = some child) : b.Declares id (id.dependent i) where
  mem := by
    have hmem : id.dependent (0 + i) ∈ dependentIdsOf id 0 0 deps :=
      mem_dependentIdsOf_of_storage hchild
    rwa [b.dependentIds_eq hid, ← Nat.zero_add i]
  length := by simp [Ident.dependent, Ident.append]

theorem Blueprint.declares_knot {anchor : Ident U} (hanchor : b.site anchor = .job deps)
    (h : knot ∈ (b.coreFinalize anchor).knots) :
    b.Declares anchor knot.1 ∧ b.site knot.1 = .job knot.2.dependents := by
  rw [b.coreFinalize_eq hanchor] at h
  have hid := Forest.mem_knotChildIds h
  refine ⟨⟨?_, ?_⟩, ?_⟩
  · rw [b.dependentIds_eq hanchor]
    exact mem_dependentIdsOf_of_knot hid
  · rw [coreFinalizeOf_eq] at hid
    exact length_of_mem_knotChildIds hid
  · rw [coreFinalizeOf_eq] at h
    refine site_of_mem_serializeFinalize (fun k below hk => ?_) h
    rw [Ident.step, site_append, hanchor]
    simp [Site.down, hk]

/-! ## Programs -/

def BuildCommand.Creates (id : Ident U) : BuildCommand U C → Prop
  | .save id' _ => id = id'
  | .saveMeta _ _ _ | .defer _ | .saveAgain _ | .push _ | .index _ => False

/-- The command writes the dependents of the job into its metadata. -/
def BuildCommand.Links (id : Ident U) : BuildCommand U C → Prop
  | .saveMeta id' _ _ => id = id'
  | .save _ _ | .defer _ | .saveAgain _ | .push _ | .index _ => False

variable {command : BuildCommand U C} {there there' : Ident U → Prop}
  {after commands : List (BuildCommand U C)}

/-- What a command needs: `there` are the jobs that load, `after` the commands that follow. -/
def BuildCommand.Fits (b : Blueprint U C) (there : Ident U → Prop)
    (after : List (BuildCommand U C)) : BuildCommand U C → Prop
  | .save id job => (∃ parent, job = newJob [parent] ∧ there parent ∧ b.Declares parent id)
      ∧ (∃ deps, b.site id = .job deps) ∧ ∃ command ∈ after, command.Links id
  | .saveMeta id dependentIds coreFinalize =>
    dependentIds = b.dependentIds id ∧ coreFinalize = b.coreFinalize id
  | .push id => there id
  | .defer _ | .saveAgain _ | .index _ => True

def Program (b : Blueprint U C) : (Ident U → Prop) → List (BuildCommand U C) → Prop
  | _, [] => True
  | there, command :: after =>
    command.Fits b there after ∧ Program b (fun id => there id ∨ command.Creates id) after

theorem BuildCommand.Fits.mono {after' : List (BuildCommand U C)} (h : command.Fits b there after)
    (hthere : ∀ id, there id → there' id) (hafter : ∀ c ∈ after, c ∈ after') :
    command.Fits b there' after' := by
  cases command with
  | save id job =>
    obtain ⟨⟨parent, hjob, hparent, hdecl⟩, hsite, c, hc, hlinks⟩ := h
    exact ⟨⟨parent, hjob, hthere parent hparent, hdecl⟩, hsite, c, hafter c hc, hlinks⟩
  | push id => exact hthere id h
  | saveMeta id dependentIds coreFinalize => exact h
  | defer id | saveAgain id | index id => trivial

theorem Program.mono (h : Program b there commands) (hthere : ∀ id, there id → there' id) :
    Program b there' commands := by
  induction commands generalizing there there' with
  | nil => trivial
  | cons command after ih =>
    exact ⟨h.1.mono hthere fun _ hc => hc, ih h.2 fun id hid => hid.imp_left (hthere id)⟩

theorem Program.append {commands' : List (BuildCommand U C)} (h : Program b there commands)
    (h' : Program b there commands') : Program b there (commands ++ commands') := by
  induction commands generalizing there with
  | nil => exact h'
  | cons command after ih =>
    refine ⟨h.1.mono (fun _ hid => hid) fun _ hc => mem_append_left _ hc, ?_⟩
    exact ih h.2 (h'.mono fun _ hid => .inl hid)

theorem exists_links {id : Ident U} {dependentIds : List (Ident U)} {coreFinalize : Forest U C}
    {before rest : List (BuildCommand U C)} :
    ∃ command ∈ before ++ .saveMeta id dependentIds coreFinalize :: rest ++ after,
      command.Links id :=
  ⟨.saveMeta id dependentIds coreFinalize, by simp, rfl⟩

theorem program_buildDependents {job : Ident U} {index : Nat} (hjob : there job)
    (hdeps : ∀ k child, deps.storageDependents[k]? = some child →
      b.Declares job (job.dependent (index + k))
        ∧ b.site (job.dependent (index + k)) = .job child.dependents) :
    Program b there (buildDependents job index deps) := by
  induction deps generalizing job index there with
  | nil => trivial
  | core spec dependents rest _ ihr => exact ihr hjob hdeps
  | storage spec dependents rest ihd ihr =>
    obtain ⟨hdecl, hsite⟩ := hdeps 0 ⟨spec, dependents⟩ rfl
    have hbelow : Program b (fun id => there id ∨ id = job.dependent index)
        (buildDependents (job.dependent index) 0 dependents) := by
      refine ihd (.inr rfl) fun k child hk => ?_
      rw [Nat.zero_add]
      exact ⟨Blueprint.declares_dependent hsite hk, Blueprint.site_dependent hsite hk⟩
    have hrest : Program b (fun id => there id ∨ id = job.dependent index)
        (buildDependents job (index + 1) rest) := by
      refine ihr (.inl hjob) fun k child hk => ?_
      rw [Nat.add_right_comm]
      exact hdeps (k + 1) child hk
    refine ⟨⟨⟨job, rfl, hjob, hdecl⟩, ⟨dependents, hsite⟩, exists_links⟩,
      (hbelow.append ?_).append hrest⟩
    exact ⟨⟨(b.dependentIds_eq hsite).symm, (b.coreFinalize_eq hsite).symm⟩, trivial, trivial,
      trivial⟩

theorem program_buildTask_tail (hsite : b.site id = .job deps) (hid : there id) :
    Program b there (buildDependents id 0 deps
      ++ [.saveMeta id (dependentIdsOf id 0 0 deps) (coreFinalizeOf id 0 deps)]
      ++ [.push id, .index id]) := by
  refine (Program.append ?_ ?_).append ?_
  · refine program_buildDependents hid fun k child hk => ?_
    rw [Nat.zero_add]
    exact ⟨Blueprint.declares_dependent hsite hk, Blueprint.site_dependent hsite hk⟩
  · exact ⟨⟨(b.dependentIds_eq hsite).symm, (b.coreFinalize_eq hsite).symm⟩, trivial⟩
  · exact ⟨hid, trivial, trivial⟩

/-- **The build of a declared job** finds what it needs. -/
theorem program_buildTask {parent : Ident U} (hsite : b.site id = .job deps)
    (hparent : there parent) (hdecl : b.Declares parent id) :
    Program b there (buildTask id [parent] deps) :=
  ⟨⟨⟨parent, rfl, hparent, hdecl⟩, ⟨deps, hsite⟩, exists_links⟩,
    program_buildTask_tail hsite (.inr rfl)⟩

end Blueprint

/-! ## The metadata in the store -/

structure Metadata (U C : Type) where
  dependencyIds : List (Ident U)
  dependentIds : List (Ident U)
  coreFinalize : Forest U C

section Attached

variable {U C : Type} [DecidableEq U]

def Job.metadata (job : Job U C) : Metadata U C :=
  ⟨job.dependencyIds, job.dependentIds, job.coreFinalize⟩

def Store.metadata (store : Store U C) (id : Ident U) : Option (Metadata U C) :=
  (store.fetch id).map Job.metadata

def Store.There (store : Store U C) (id : Ident U) : Prop := (store.metadata id).isSome

variable {store : Store U C} {rq : Rq U C} {id : Ident U}

theorem Store.fetch_set (hash : Hash U C) (id' : Ident U) :
    (store.set id hash).fetch id'
      = if id' = id then (match hash with | .job job => some job | _ => none)
        else store.fetch id' := by
  unfold fetch
  by_cases h : id' = id
  · subst h
    cases hash <;> simp
  · rw [get_set_of_ne h, if_neg h]

theorem Store.fetch_update (f : Job U C → Job U C) (id' : Ident U) :
    (store.update id f).fetch id'
      = if id' = id then (store.fetch id).map f else store.fetch id' := by
  by_cases h : id' = id
  · subst h
    unfold fetch
    rw [get_update_self]
    cases store.get id' <;> simp
  · simp [fetch, get_update_of_ne h, h]

theorem Store.metadata_update {f : Job U C → Job U C} (hf : ∀ job, (f job).metadata = job.metadata)
    (id' : Ident U) : (store.update id f).metadata id' = store.metadata id' := by
  unfold metadata
  rw [fetch_update]
  split
  · rename_i h
    subst h
    cases store.fetch id' <;> simp [hf]
  · rfl

def BuildCommand.write (id : Ident U) (m : Option (Metadata U C)) :
    BuildCommand U C → Option (Metadata U C)
  | .save id' job => if id = id' then some job.metadata else m
  | .saveMeta id' dependentIds coreFinalize =>
    if id = id' then m.map fun m => ⟨m.dependencyIds, dependentIds, coreFinalize⟩ else m
  | .defer _ | .saveAgain _ | .push _ | .index _ => m

theorem BuildCommand.metadata_exec (command : BuildCommand U C) (id : Ident U) :
    (command.exec rq).store.metadata id = command.write id (rq.store.metadata id) := by
  cases command with
  | save id' job =>
    simp only [exec, write, Store.metadata, Store.fetch_set]
    split <;> rfl
  | saveMeta id' dependentIds coreFinalize =>
    simp only [exec, write, Store.metadata, Store.fetch_update]
    split
    · rename_i h
      subst h
      cases rq.store.fetch id <;> rfl
    · rfl
  | defer id' | push id' =>
    refine Store.metadata_update ?_ id
    exact fun _ => rfl
  | saveAgain id' | index id' => rfl

variable {command : BuildCommand U C} {there there' : Ident U → Prop}
  {after commands : List (BuildCommand U C)} {b : Blueprint U C}

theorem BuildCommand.there_exec (h : rq.store.There id ∨ command.Creates id) :
    (command.exec rq).store.There id := by
  unfold Store.There at h ⊢
  rw [metadata_exec]
  cases command with
  | save id' job =>
    by_cases hid : id = id'
    · simp [write, hid]
    · simpa [write, hid, BuildCommand.Creates] using h
  | saveMeta id' dependentIds coreFinalize =>
    have hthere : (rq.store.metadata id).isSome := h.resolve_right fun h => h
    by_cases hid : id = id'
    · subst hid
      simpa [write] using hthere
    · simpa [write, hid] using hthere
  | defer id' | saveAgain id' | push id' | index id' => exact h.resolve_right fun h => h

/-! ## What the store looks like -/

/-- The metadata of a job fits its place. While it is built, its dependents are `pending`. -/
structure Metadata.Fits (b : Blueprint U C) (there pending : Ident U → Prop) (id : Ident U)
    (m : Metadata U C) : Prop where
  site : ∃ deps, b.site id = .job deps
  parent : id = b.root ∨ ∃ parent ∈ m.dependencyIds, there parent ∧ b.Declares parent id
  tree : m.coreFinalize = .nil ∨ m.coreFinalize = b.coreFinalize id
  linked : m.dependentIds = b.dependentIds id ∨ pending id

def Attached (b : Blueprint U C) (pending : Ident U → Prop) (store : Store U C) : Prop :=
  ∀ id m, store.metadata id = some m → m.Fits b store.There pending id

variable {pending pending' : Ident U → Prop} {m : Metadata U C}

omit [DecidableEq U] in
theorem Metadata.Fits.mono (h : m.Fits b there pending id) (hthere : ∀ id, there id → there' id)
    (hpending : pending id → pending' id) : m.Fits b there' pending' id where
  site := h.site
  parent := by
    refine h.parent.imp_right ?_
    rintro ⟨parent, hmem, hparent, hdecl⟩
    exact ⟨parent, hmem, hthere parent hparent, hdecl⟩
  tree := h.tree
  linked := h.linked.imp_right hpending

theorem Attached.of_metadata_eq {store' : Store U C} (h : Attached b pending store)
    (hstore : ∀ id, store'.metadata id = store.metadata id)
    (hpending : ∀ id, pending id → pending' id) : Attached b pending' store' := by
  intro id m hm
  rw [hstore] at hm
  refine (h id m hm).mono (fun id hid => ?_) (hpending id)
  unfold Store.There
  rwa [hstore]

/-- **One command of a program.** The job it creates is pending, the job it links is not any
more. -/
theorem Attached.exec (h : Attached b pending rq.store)
    (hfits : command.Fits b rq.store.There after)
    (hpending : ∀ id, pending id → pending' id ∨ command.Links id)
    (hcreates : ∀ id, command.Creates id → pending' id) :
    Attached b pending' (command.exec rq).store := by
  have hthere : ∀ id, rq.store.There id → (command.exec rq).store.There id :=
    fun id hid => BuildCommand.there_exec (.inl hid)
  -- a job the command does not link keeps its account
  have hkept : ∀ id m, rq.store.metadata id = some m → ¬ command.Links id →
      m.Fits b (command.exec rq).store.There pending' id := by
    intro id m hm hlinks
    exact (h id m hm).mono hthere fun hp => (hpending id hp).resolve_right hlinks
  intro id m hm
  rw [BuildCommand.metadata_exec] at hm
  cases command with
  | save id' job =>
    obtain ⟨⟨parent, rfl, hparent, hdecl⟩, hsite, -⟩ := hfits
    by_cases hid : id = id'
    · subst hid
      obtain rfl : (newJob [parent] : Job U C).metadata = m := by
        simpa [BuildCommand.write] using hm
      exact ⟨hsite, .inr ⟨parent, mem_singleton_self parent, hthere parent hparent, hdecl⟩,
        .inl rfl, .inr (hcreates id rfl)⟩
    · exact hkept id m (by simpa [BuildCommand.write, hid] using hm) fun h => h
  | saveMeta id' dependentIds coreFinalize =>
    obtain ⟨rfl, rfl⟩ := hfits
    by_cases hid : id = id'
    · subst hid
      obtain ⟨old, hold, rfl⟩ : ∃ old, rq.store.metadata id = some old
          ∧ (⟨old.dependencyIds, b.dependentIds id, b.coreFinalize id⟩ : Metadata U C) = m := by
        simpa [BuildCommand.write] using hm
      have hfits := (h id old hold).mono hthere (fun hp => hp)
      exact ⟨hfits.site, hfits.parent, .inr rfl, .inl rfl⟩
    · exact hkept id m (by simpa [BuildCommand.write, hid] using hm) hid
  | defer id' | saveAgain id' | push id' | index id' => exact hkept id m hm fun h => h

theorem Attached.foldl_exec
    (h : Attached b (fun id => ∃ command ∈ commands, command.Links id) rq.store)
    (hprogram : Program b rq.store.There commands) :
    Attached b (fun _ => False) (commands.foldl BuildCommand.exec rq).store := by
  induction commands generalizing rq with
  | nil =>
    intro id m hm
    exact (h id m hm).mono (fun _ hid => hid) (by rintro ⟨command, hc, -⟩; simp at hc)
  | cons command after ih =>
    refine ih (h.exec hprogram.1 ?_ ?_) (hprogram.2.mono fun id => BuildCommand.there_exec)
    · rintro id ⟨c, hc, hlinks⟩
      rcases mem_cons.mp hc with rfl | hc
      · exact .inr hlinks
      · exact .inl ⟨c, hc, hlinks⟩
    · intro id hcreates
      cases command with
      | save id' job =>
        cases hcreates
        exact hprogram.1.2.2
      | saveMeta _ _ _ | defer _ | saveAgain _ | push _ | index _ => cases hcreates

theorem BuildCommand.pushed_exec (h : ∀ id ∈ rq.pushed, rq.store.There id)
    (hfits : command.Fits b rq.store.There after) :
    ∀ id ∈ (command.exec rq).pushed, (command.exec rq).store.There id := by
  intro id hid
  refine there_exec (.inl ?_)
  cases command with
  | push id' =>
    rcases mem_cons.mp hid with rfl | hid
    · exact hfits
    · exact h id hid
  | save _ _ | saveMeta _ _ _ | defer _ | saveAgain _ | index _ => exact h id hid

theorem Program.foldl_exec {I : Rq U C → Prop}
    (hstep : ∀ rq command after, I rq → BuildCommand.Fits b rq.store.There after command →
      I (command.exec rq)) (hprogram : Program b rq.store.There commands) (h : I rq) :
    I (commands.foldl BuildCommand.exec rq) := by
  induction commands generalizing rq with
  | nil => exact h
  | cons command after ih =>
    exact ih (hprogram.2.mono fun id => BuildCommand.there_exec)
      (hstep rq command after h hprogram.1)

section

variable (b : Blueprint U C)

def Blueprint.built : Rq U C :=
  (buildTask b.root [] b.dependents).foldl BuildCommand.exec ⟨[], []⟩

def Blueprint.tail : List (BuildCommand U C) :=
  buildDependents b.root 0 b.dependents
    ++ [.saveMeta b.root (dependentIdsOf b.root 0 0 b.dependents)
      (coreFinalizeOf b.root 0 b.dependents)] ++ [.push b.root, .index b.root]

def Blueprint.saved : Rq U C :=
  (BuildCommand.save b.root (newJob [])).exec ⟨[], []⟩

theorem Blueprint.built_eq : b.built = b.tail.foldl BuildCommand.exec b.saved := rfl

theorem Blueprint.program_tail : Program b b.saved.store.There b.tail :=
  program_buildTask_tail rfl (BuildCommand.there_exec (.inr rfl))

end

theorem Blueprint.metadata_saved (h : b.saved.store.metadata id = some m) :
    id = b.root ∧ m = (newJob [] : Job U C).metadata := by
  rw [saved, BuildCommand.metadata_exec] at h
  by_cases hid : id = b.root
  · exact ⟨hid, by simpa [BuildCommand.write, hid, eq_comm] using h⟩
  · simp [BuildCommand.write, hid, Store.metadata, Store.fetch, Store.get] at h

/-- **The build of the top job** leaves a chain in which nothing is pending. -/
theorem attached_built (b : Blueprint U C) : Attached b (fun _ => False) b.built.store := by
  rw [b.built_eq]
  refine Attached.foldl_exec ?_ b.program_tail
  intro id m hm
  obtain ⟨rfl, rfl⟩ := Blueprint.metadata_saved hm
  exact ⟨⟨b.dependents, rfl⟩, .inl rfl, .inl rfl, .inr exists_links⟩

theorem there_of_mem_pushed_built (b : Blueprint U C) :
    ∀ id ∈ b.built.pushed, b.built.store.There id := by
  rw [b.built_eq]
  refine b.program_tail.foldl_exec (I := fun rq => ∀ id ∈ rq.pushed, rq.store.There id)
    (fun _ _ _ h hfits => BuildCommand.pushed_exec h hfits) ?_
  intro id hid
  exact absurd hid not_mem_nil

end Attached

end IsardVDI
