import IsardVDI.Tasks.Build

/-!
# `models/task.py` — marks, and steps of knot children that will never be built

On a chain that failed or was cancelled a knot child is not built any more, and the steps
declared below it are reachable only as the metadata they already are. A walk of such a chain
writes them on the node of the step above, with the ids the real child would have given them,
and drops them again when the child turns out to exist.

* **`mem_stampedIds_applyMarks`**, **`mem_stampedIds_materialize`** — where a mark comes from.
-/

namespace IsardVDI

section DeadChain

variable {U C : Type}

/-! ## The nodes below a child -/

def Ident.parent (id : Ident U) : Ident U := { id with path := id.path.dropLast }

def Forest.append : Forest U C → Forest U C → Forest U C
  | .nil, forest => forest
  | .node id spec status coreFinalize storageDependents unbuilt rest, forest =>
    .node id spec status coreFinalize storageDependents unbuilt (rest.append forest)

def Forest.isEmpty : Forest U C → Bool
  | .nil => true
  | .node _ _ _ _ _ _ _ => false

variable [DecidableEq U]

/-- The nodes a step keeps for one of its knot children: `unbuilt_knot_finalize[child_id]`. -/
def Forest.ofChild (childId : Ident U) : Forest U C → Forest U C
  | .nil => .nil
  | .node id spec status coreFinalize storageDependents unbuilt rest =>
    if id.parent = childId then
      .node id spec status coreFinalize storageDependents unbuilt (rest.ofChild childId)
    else rest.ofChild childId

mutual

/-- The `core` dependents of a list as nodes, with what is unbuilt below each. `all` says whether
the numbering counts the storage dependents too. -/
def deadNodes (store : Store U C) (parent : Ident U) (all : Bool) (index : Nat) :
    Deps C → Forest U C
  | .nil => .nil
  | .core spec dependents rest =>
    .node (parent.step index) spec none (deadNodes store (parent.step index) true 0 dependents)
      dependents.storageDependents (deadChildren store (parent.step index) 0 dependents)
      (deadNodes store parent all (index + 1) rest)
  | .storage _ _ rest => deadNodes store parent all (if all then index + 1 else index) rest

def deadChildren (store : Store U C) (stepId : Ident U) (index : Nat) : Deps C → Forest U C
  | .nil => .nil
  | .core _ _ rest => deadChildren store stepId index rest
  | .storage _ dependents rest =>
    if store.exists (stepId.knotChildId index) then deadChildren store stepId (index + 1) rest
    else
      (deadNodes store (stepId.knotChildId index) false 0 dependents).append
        (deadChildren store stepId (index + 1) rest)

end

/-- The steps of the knot children of a node, given what the node keeps of them. A child that
exists is a member of its own, and what was kept for it is dropped. -/
def unbuiltKnotSteps (store : Store U C) (stepId : Ident U) (kept : Forest U C) (index : Nat) :
    List (Child C) → Forest U C
  | [] => .nil
  | child :: children =>
    if store.exists (stepId.knotChildId index) then
      unbuiltKnotSteps store stepId kept (index + 1) children
    else
      (if (kept.ofChild (stepId.knotChildId index)).isEmpty then
          deadNodes store (stepId.knotChildId index) false 0 child.dependents
        else kept.ofChild (stepId.knotChildId index)).append
        (unbuiltKnotSteps store stepId kept (index + 1) children)

def Forest.materialize (store : Store U C) : Forest U C → Forest U C
  | .nil => .nil
  | .node id spec status coreFinalize storageDependents unbuilt rest =>
    .node id spec status (coreFinalize.materialize store) storageDependents
      (unbuiltKnotSteps store id (unbuilt.materialize store) 0 storageDependents)
      (rest.materialize store)

/-! ## Marks -/

abbrev Marks (U : Type) := List (Ident U × Stamp)

def Marks.stampOf (marks : Marks U) (id : Ident U) (status : Option Stamp) : Option Stamp :=
  (marks.lookup id).or status

def Forest.applyMarks (marks : Marks U) : Forest U C → Forest U C
  | .nil => .nil
  | .node id spec status coreFinalize storageDependents unbuilt rest =>
    .node id spec (marks.stampOf id status) (coreFinalize.applyMarks marks) storageDependents
      (unbuilt.applyMarks marks) (rest.applyMarks marks)

variable {marks : Marks U} {forest : Forest U C} {x : Ident U}

theorem Marks.mem_of_lookup {id : Ident U} (h : (marks.lookup id).isSome) :
    id ∈ marks.map Prod.fst := by
  induction marks with
  | nil => simp at h
  | cons mark marks ih =>
    by_cases hid : id = mark.1
    · simp [hid]
    · have hbeq : (id == mark.1) = false := beq_eq_false_iff_ne.mpr hid
      rw [List.lookup_cons, hbeq] at h
      exact .tail _ (ih h)

theorem Marks.of_stampOf_isSome {id : Ident U} {status : Option Stamp}
    (h : (marks.stampOf id status).isSome) : id ∈ marks.map Prod.fst ∨ status.isSome := by
  unfold stampOf at h
  cases hlookup : marks.lookup id with
  | none => exact .inr (by simpa [hlookup] using h)
  | some stamp => exact .inl (mem_of_lookup (by simp [hlookup]))

theorem mem_stampedIds_applyMarks (h : x ∈ (forest.applyMarks marks).stampedIds) :
    x ∈ marks.map Prod.fst ∨ x ∈ forest.stampedIds := by
  induction forest with
  | nil => simp [Forest.applyMarks, Forest.stampedIds] at h
  | node id spec status coreFinalize storageDependents unbuilt rest ihc ihu ihr =>
    simp only [Forest.applyMarks, Forest.stampedIds, List.mem_append] at h ⊢
    rcases h with h | h | h | h
    · by_cases hstamp : (marks.stampOf id status).isSome
      · rw [if_pos hstamp, List.mem_singleton] at h
        subst h
        rcases Marks.of_stampOf_isSome hstamp with hmark | hstatus
        · exact .inl hmark
        · simp [hstatus]
      · simp [hstamp] at h
    · exact (ihc h).imp_right fun h => .inr (.inl h)
    · exact (ihu h).imp_right fun h => .inr (.inr (.inl h))
    · exact (ihr h).imp_right fun h => .inr (.inr (.inr h))

omit [DecidableEq U] in
@[simp] theorem stampedIds_append (forest forest' : Forest U C) :
    (forest.append forest').stampedIds = forest.stampedIds ++ forest'.stampedIds := by
  induction forest with
  | nil => rfl
  | node id spec status coreFinalize storageDependents unbuilt rest _ _ ihr =>
    simp [Forest.append, Forest.stampedIds, ihr]

theorem mem_stampedIds_ofChild {childId : Ident U} (h : x ∈ (forest.ofChild childId).stampedIds) :
    x ∈ forest.stampedIds := by
  induction forest with
  | nil => exact h
  | node id spec status coreFinalize storageDependents unbuilt rest _ _ ihr =>
    unfold Forest.ofChild at h
    split at h
    · simp only [Forest.stampedIds, List.mem_append] at h ⊢
      exact h.imp_right (.imp_right (.imp_right ihr))
    · simp only [Forest.stampedIds, List.mem_append]
      exact .inr (.inr (.inr (ihr h)))

theorem stampedIds_dead (store : Store U C) (deps : Deps C) :
    (∀ parent all index, (deadNodes store parent all index deps).stampedIds = [])
      ∧ ∀ stepId index, (deadChildren store stepId index deps).stampedIds = [] := by
  induction deps with
  | nil => exact ⟨fun _ _ _ => rfl, fun _ _ => rfl⟩
  | core spec dependents rest ihd ihr =>
    refine ⟨fun parent all index => ?_, fun stepId index => ihr.2 stepId index⟩
    simp [deadNodes, Forest.stampedIds, ihd.1, ihd.2, ihr.1]
  | storage spec dependents rest ihd ihr =>
    refine ⟨fun parent all index => ihr.1 _ _ _, fun stepId index => ?_⟩
    unfold deadChildren
    split
    · exact ihr.2 _ _
    · simp [ihd.1, ihr.2]

theorem mem_stampedIds_unbuiltKnotSteps {store : Store U C} {stepId : Ident U} {kept : Forest U C}
    {index : Nat} {children : List (Child C)}
    (h : x ∈ (unbuiltKnotSteps store stepId kept index children).stampedIds) :
    x ∈ kept.stampedIds := by
  induction children generalizing index with
  | nil => simp [unbuiltKnotSteps, Forest.stampedIds] at h
  | cons child children ih =>
    unfold unbuiltKnotSteps at h
    split at h
    · exact ih h
    · rw [stampedIds_append, List.mem_append] at h
      rcases h with h | h
      · split at h
        · simp [(stampedIds_dead store child.dependents).1] at h
        · exact mem_stampedIds_ofChild h
      · exact ih h

theorem mem_stampedIds_materialize {store : Store U C}
    (h : x ∈ (forest.materialize store).stampedIds) : x ∈ forest.stampedIds := by
  induction forest with
  | nil => exact h
  | node id spec status coreFinalize storageDependents unbuilt rest ihc ihu ihr =>
    simp only [Forest.materialize, Forest.stampedIds, List.mem_append] at h ⊢
    rcases h with h | h | h | h
    · exact .inl h
    · exact .inr (.inl (ihc h))
    · exact .inr (.inr (.inl (ihu (mem_stampedIds_unbuiltKnotSteps h))))
    · exact .inr (.inr (.inr (ihr h)))

end DeadChain

end IsardVDI
