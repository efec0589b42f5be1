import Mathlib

/-!
# Worklists

The loop that collects what a graph reaches from a vertex: the vertices found so far, in the
order in which they were found, and a stack of those whose neighbours are still to be looked at.

* `explore` — the loop, with a bound on its turns. `none` says that the bound was too small.
* `levels` — the walk that asks for the neighbours of a whole frontier at once.
* `bfs` — the walk with a queue, which may hold a vertex more than once.
-/

namespace IsardVDI.Worklist

open List

variable {α : Type}

def Reaches (next : α → List α) : α → α → Prop :=
  Relation.ReflTransGen fun a b => b ∈ next a

/-- What holds at every turn of a walk that started at `root`. -/
structure Walk (next : α → List α) (root : α) (found stack : List α) : Prop where
  nodup : found.Nodup
  root_mem : root ∈ found
  reached : ∀ x ∈ found, Reaches next root x
  stack_sub : ∀ x ∈ stack, x ∈ found
  /-- A vertex that left the stack has had its neighbours looked at. -/
  closed : ∀ x ∈ found, x ∉ stack → ∀ b ∈ next x, b ∈ found

variable {next : α → List α} {root : α}

theorem Walk.start : Walk next root [root] [root] where
  nodup := nodup_singleton root
  root_mem := mem_singleton_self root
  reached := by
    intro x hx
    rw [mem_singleton.mp hx]
    exact Relation.ReflTransGen.refl
  stack_sub := fun _ hx => hx
  closed := fun _ hx hnot => absurd hx hnot

variable {found order queue seen frontier stack : List α} {a b : α} {members : Finset α}
  {turns : Nat}

theorem Walk.turn {fresh : List α} (h : Walk next root found (a :: stack))
    (hnodup : (found ++ fresh).Nodup) (hsub : ∀ b ∈ fresh, b ∈ next a)
    (hall : ∀ b ∈ next a, b ∈ found ++ fresh) :
    Walk next root (found ++ fresh) (fresh.reverse ++ stack) where
  nodup := hnodup
  root_mem := mem_append_left _ h.root_mem
  reached := by
    intro x hx
    rcases mem_append.mp hx with hx | hx
    · exact h.reached x hx
    · have ha := h.reached a (h.stack_sub a (.head _))
      exact ha.tail (hsub x hx)
  stack_sub := by
    intro x hx
    rcases mem_append.mp hx with hx | hx
    · exact mem_append_right _ (mem_reverse.mp hx)
    · exact mem_append_left _ (h.stack_sub x (.tail _ hx))
  closed := by
    intro x hx hnot b hb
    rw [mem_append, not_or, mem_reverse] at hnot
    have hfound : x ∈ found := (mem_append.mp hx).resolve_right hnot.1
    -- the vertex that was popped, or one that had left the stack before
    by_cases hxa : x = a
    · exact hall b (hxa ▸ hb)
    · have hstack : x ∉ a :: stack := by simp [hxa, hnot.2]
      exact mem_append_left _ (h.closed x hfound hstack b hb)

theorem Walk.mem_iff (h : Walk next root found []) (x : α) : x ∈ found ↔ Reaches next root x := by
  refine ⟨h.reached x, fun hreach => ?_⟩
  induction hreach with
  | refl => exact h.root_mem
  | tail _ hstep ih => exact h.closed _ ih not_mem_nil _ hstep

section Explore

variable [DecidableEq α]

/-- A neighbour that was not found yet is found, and is next on the stack. -/
def visit (walk : List α × List α) (b : α) : List α × List α :=
  if b ∈ walk.1 then walk else (walk.1 ++ [b], b :: walk.2)

def explore (next : α → List α) : Nat → List α → List α → Option (List α)
  | _, found, [] => some found
  | 0, _, _ :: _ => none
  | turns + 1, found, a :: stack =>
    explore next turns ((next a).foldl visit (found, stack)).1
      ((next a).foldl visit (found, stack)).2

theorem foldl_visit (bs found stack : List α) :
    ∃ fresh, bs.foldl visit (found, stack) = (found ++ fresh, fresh.reverse ++ stack)
      ∧ (found.Nodup → (found ++ fresh).Nodup)
      ∧ (∀ b ∈ fresh, b ∈ bs) ∧ ∀ b ∈ bs, b ∈ found ++ fresh := by
  induction bs generalizing found stack with
  | nil => exact ⟨[], by simp⟩
  | cons b bs ih =>
    by_cases hb : b ∈ found
    · obtain ⟨fresh, heq, hnodup, hsub, hall⟩ := ih found stack
      refine ⟨fresh, by simpa [visit, hb] using heq, hnodup, ?_, ?_⟩
      · exact fun x hx => .tail _ (hsub x hx)
      · intro x hx
        rcases mem_cons.mp hx with rfl | hx
        · exact mem_append_left _ hb
        · exact hall x hx
    · obtain ⟨fresh, heq, hnodup, hsub, hall⟩ := ih (found ++ [b]) (b :: stack)
      refine ⟨b :: fresh, by simpa [visit, hb] using heq, ?_, ?_, ?_⟩
      · intro hfound
        have hone : (found ++ [b]).Nodup := by
          simpa [nodup_append] using ⟨hfound, fun x hx hxb => hb (hxb ▸ hx)⟩
        simpa using hnodup hone
      · intro x hx
        rcases mem_cons.mp hx with rfl | hx
        · exact .head _
        · exact .tail _ (hsub x hx)
      · intro x hx
        rcases mem_cons.mp hx with rfl | hx
        · simp
        · simpa using hall x hx

theorem explore_of_walk (hnext : ∀ a ∈ members, ∀ b ∈ next a, b ∈ members)
    (h : Walk next root found stack) (hfound : ∀ x ∈ found, x ∈ members)
    (hturns : stack.length + (members.card - found.length) ≤ turns) :
    ∃ l, explore next turns found stack = some l ∧ ∀ x, x ∈ l ↔ Reaches next root x := by
  induction turns generalizing found stack with
  | zero =>
    cases stack with
    | nil => exact ⟨found, rfl, h.mem_iff⟩
    | cons a stack => simp at hturns
  | succ turns ih =>
    cases stack with
    | nil => exact ⟨found, rfl, h.mem_iff⟩
    | cons a stack =>
      obtain ⟨fresh, heq, hnodup, hsub, hall⟩ := foldl_visit (next a) found stack
      have hwalk := h.turn (hnodup h.nodup) hsub hall
      have ha : a ∈ members := hfound a (h.stack_sub a (.head _))
      have hmem : ∀ x ∈ found ++ fresh, x ∈ members := by
        intro x hx
        rcases mem_append.mp hx with hx | hx
        · exact hfound x hx
        · exact hnext a ha x (hsub x hx)
      -- every vertex that goes on the stack is one fewer to be found
      have hcard : (found ++ fresh).length ≤ members.card := by
        rw [← toFinset_card_of_nodup hwalk.nodup]
        exact Finset.card_le_card fun x hx => hmem x (mem_toFinset.mp hx)
      simp only [length_append, length_cons] at hcard hturns
      have hstep : (fresh.reverse ++ stack).length
          + (members.card - (found ++ fresh).length) ≤ turns := by
        simp only [length_append, length_reverse]
        omega
      simpa only [explore, heq] using ih hwalk hmem hstep

/-- **The loop finds what the vertex reaches**, in as many turns as there are members. -/
theorem explore_reaches (hnext : ∀ a ∈ members, ∀ b ∈ next a, b ∈ members) (hroot : root ∈ members)
    (hturns : members.card ≤ turns) :
    ∃ l, explore next turns [root] [root] = some l ∧ ∀ x, x ∈ l ↔ Reaches next root x := by
  refine explore_of_walk hnext Walk.start ?_ ?_
  · intro x hx
    rwa [mem_singleton.mp hx]
  · have hpos : 0 < members.card := Finset.card_pos.mpr ⟨root, hroot⟩
    simp only [length_singleton]
    omega

end Explore

/-! ## Level by level

`children` answers for a frontier. A level is what it answers and was not seen before. -/

variable {edge : α → α → Prop}

/-- What holds at every turn: a vertex seen that is not in the frontier has its neighbours seen. -/
structure Front (edge : α → α → Prop) (root : α) (seen frontier : List α) : Prop where
  root_mem : root ∈ seen
  reached : ∀ x ∈ seen, x = root ∨ Relation.TransGen edge root x
  frontier_sub : ∀ x ∈ frontier, x ∈ seen
  closed : ∀ x ∈ seen, x ∉ frontier → ∀ b, edge x b → b ∈ seen

theorem Front.start : Front edge root [root] [root] where
  root_mem := mem_singleton_self root
  reached := fun _ hx => .inl (mem_singleton.mp hx)
  frontier_sub := fun _ hx => hx
  closed := fun _ hx hnot => absurd hx hnot

theorem Front.reached_edge (h : Front edge root seen frontier) (ha : a ∈ frontier) (hb : edge a b) :
    Relation.TransGen edge root b := by
  rcases h.reached a (h.frontier_sub a ha) with rfl | hreach
  · exact .single hb
  · exact hreach.tail hb

theorem Front.seen_of_reached (h : Front edge root seen []) (hb : Relation.TransGen edge root b) :
    b ∈ seen := by
  induction hb with
  | single hedge => exact h.closed root h.root_mem not_mem_nil _ hedge
  | tail _ hedge ih => exact h.closed _ ih not_mem_nil _ hedge

section Levels

variable [DecidableEq α]

def levels (children : List α → List α) : Nat → List α → List α → List (List α)
  | 0, _, _ => []
  | turns + 1, seen, frontier =>
    match (children frontier).filter (· ∉ seen) with
    | [] => []
    | level => level :: levels children turns (seen ++ level) level

theorem levels_succ (children : List α → List α) (turns : Nat) (seen frontier : List α) :
    levels children (turns + 1) seen frontier =
      if (children frontier).filter (· ∉ seen) = [] then []
      else (children frontier).filter (· ∉ seen)
        :: levels children turns (seen ++ (children frontier).filter (· ∉ seen))
            ((children frontier).filter (· ∉ seen)) := by
  rw [levels]
  split <;> simp_all

variable {children : List α → List α} (hchildren : ∀ l b, b ∈ children l ↔ ∃ a ∈ l, edge a b)

include hchildren

theorem Front.turn (h : Front edge root seen frontier) :
    Front edge root (seen ++ (children frontier).filter (· ∉ seen))
      ((children frontier).filter (· ∉ seen)) where
  root_mem := mem_append_left _ h.root_mem
  reached := by
    intro x hx
    rcases mem_append.mp hx with hx | hx
    · exact h.reached x hx
    · obtain ⟨a, ha, hedge⟩ := (hchildren _ _).mp (mem_of_mem_filter hx)
      exact .inr (h.reached_edge ha hedge)
  frontier_sub := fun _ hx => mem_append_right _ hx
  closed := by
    intro x hx hnot b hb
    have hseen : x ∈ seen := (mem_append.mp hx).resolve_right hnot
    by_cases hfront : x ∈ frontier
    · by_cases hbs : b ∈ seen
      · exact mem_append_left _ hbs
      · refine mem_append_right _ (mem_filter.mpr ⟨?_, by simpa using hbs⟩)
        exact (hchildren _ _).mpr ⟨x, hfront, hb⟩
    · exact mem_append_left _ (h.closed x hseen hfront b hb)

theorem mem_levels_of_front (hmembers : ∀ a b, edge a b → b ∈ members)
    (h : Front edge root seen frontier) (hturns : (members.filter (· ∉ seen)).card ≤ turns)
    (b : α) : b ∈ (levels children turns seen frontier).flatten
      ↔ b ∉ seen ∧ Relation.TransGen edge root b := by
  induction turns generalizing seen frontier with
  | zero =>
    -- every member is seen, so nothing is reached outside
    have hall : ∀ x ∈ members, x ∈ seen := by
      simpa [Finset.filter_eq_empty_iff] using hturns
    constructor
    · intro hb
      simp [levels] at hb
    · rintro ⟨hnot, hreach⟩
      obtain ⟨a, -, hedge⟩ := Relation.TransGen.tail'_iff.mp hreach
      exact absurd (hall b (hmembers a b hedge)) hnot
  | succ turns ih =>
    have hnext := h.turn hchildren
    rw [levels_succ]
    split_ifs with hlevel
    · rw [hlevel, append_nil] at hnext
      simp only [flatten_nil, not_mem_nil, false_iff, not_and]
      exact fun hnot hreach => hnot (hnext.seen_of_reached hreach)
    · have hfewer : (members.filter
          (· ∉ seen ++ (children frontier).filter (· ∉ seen))).card ≤ turns := by
        obtain ⟨x, hx⟩ := exists_mem_of_ne_nil _ hlevel
        obtain ⟨hchild, hfresh⟩ := mem_filter.mp hx
        obtain ⟨a, -, hedge⟩ := (hchildren _ _).mp hchild
        have hlt : (members.filter (· ∉ seen ++ (children frontier).filter (· ∉ seen))).card
            < (members.filter (· ∉ seen)).card := by
          refine Finset.card_lt_card (Finset.ssubset_iff_subset_ne.mpr ⟨?_, fun heq => ?_⟩)
          · intro y hy
            simp only [Finset.mem_filter, mem_append, not_or] at hy ⊢
            exact ⟨hy.1, hy.2.1⟩
          · have hin : x ∈ members.filter (· ∉ seen) :=
              Finset.mem_filter.mpr ⟨hmembers a x hedge, by simpa using hfresh⟩
            rw [← heq] at hin
            exact (Finset.mem_filter.mp hin).2 (mem_append_right _ hx)
        omega
      rw [flatten_cons, mem_append, ih hnext hfewer]
      constructor
      · rintro (hb | ⟨hnot, hreach⟩)
        · obtain ⟨hchild, hfresh⟩ := mem_filter.mp hb
          obtain ⟨a, ha, hedge⟩ := (hchildren _ _).mp hchild
          exact ⟨by simpa using hfresh, h.reached_edge ha hedge⟩
        · exact ⟨fun hseen => hnot (mem_append_left _ hseen), hreach⟩
      · rintro ⟨hnot, hreach⟩
        by_cases hb : b ∈ (children frontier).filter (· ∉ seen)
        · exact .inl hb
        · exact .inr ⟨fun hmem => (mem_append.mp hmem).elim hnot hb, hreach⟩

/-- **The levels hold what the vertex reaches**, the vertex itself apart. -/
theorem mem_levels (hmembers : ∀ a b, edge a b → b ∈ members) (hturns : members.card ≤ turns)
    (b : α) :
    b ∈ (levels children turns [root] [root]).flatten
      ↔ b ≠ root ∧ Relation.TransGen edge root b := by
  have hcard := (Finset.card_filter_le members (· ∉ [root])).trans hturns
  simpa using mem_levels_of_front hchildren hmembers Front.start hcard b

end Levels

/-! ## With a queue -/

/-- Every vertex of a list but the root comes after one that leads to it. -/
def Ordered (next : α → List α) (root : α) (order : List α) : Prop :=
  ∀ before x after, order = before ++ x :: after → x = root ∨ ∃ a ∈ before, x ∈ next a

/-- What a walk visits, and in what order. -/
structure Order (next : α → List α) (root : α) (order : List α) : Prop where
  nodup : order.Nodup
  mem_iff : ∀ x, x ∈ order ↔ Reaches next root x
  head : ∃ rest, order = root :: rest
  ordered : Ordered next root order

structure Queue (next : α → List α) (root : α) (order queue : List α) : Prop where
  nodup : order.Nodup
  reached : ∀ x ∈ order, Reaches next root x
  waiting : ∀ x ∈ queue, x = root ∨ ∃ a ∈ order, x ∈ next a
  closed : ∀ x ∈ order, ∀ b ∈ next x, b ∈ order ∨ b ∈ queue
  head : order = [] ∧ queue = [root] ∨ ∃ rest, order = root :: rest
  ordered : Ordered next root order

theorem Ordered.snoc (h : Ordered next root order) (ha : a = root ∨ ∃ b ∈ order, a ∈ next b) :
    Ordered next root (order ++ [a]) := by
  intro before x after heq
  rcases eq_nil_or_concat after with rfl | ⟨after, y, rfl⟩
  · obtain ⟨rfl, hx⟩ := append_inj' heq rfl
    obtain rfl : a = x := by simpa using hx
    exact ha
  · rw [concat_eq_append, ← cons_append, ← append_assoc] at heq
    exact h before x after (append_inj' heq rfl).1

theorem Queue.start : Queue next root [] [root] where
  nodup := nodup_nil
  reached := nofun
  waiting := fun _ hx => .inl (mem_singleton.mp hx)
  closed := nofun
  head := .inl ⟨rfl, rfl⟩
  ordered := by
    intro before x after heq
    simp at heq

theorem Queue.skip (h : Queue next root order (a :: queue)) (ha : a ∈ order) :
    Queue next root order queue where
  nodup := h.nodup
  reached := h.reached
  waiting := fun x hx => h.waiting x (.tail _ hx)
  closed := by
    intro x hx b hb
    rcases h.closed x hx b hb with hin | hin
    · exact .inl hin
    · rcases mem_cons.mp hin with rfl | hin
      · exact .inl ha
      · exact .inr hin
  head := by
    refine .inr (h.head.resolve_left ?_)
    rintro ⟨rfl, -⟩
    cases ha
  ordered := h.ordered

theorem Queue.done (h : Queue next root order []) : Order next root order where
  nodup := h.nodup
  mem_iff := by
    intro x
    refine ⟨h.reached x, fun hreach => ?_⟩
    induction hreach with
    | refl =>
      rcases h.head with ⟨-, hnil⟩ | ⟨rest, rfl⟩
      · cases hnil
      · exact .head _
    | tail _ hstep ih => exact (h.closed _ ih _ hstep).resolve_right not_mem_nil
  head := by
    refine h.head.resolve_left ?_
    rintro ⟨-, hnil⟩
    cases hnil
  ordered := h.ordered

theorem mem_of_reaches (hroot : root ∈ members) (hnext : ∀ a ∈ members, ∀ b ∈ next a, b ∈ members)
    (h : Reaches next root b) : b ∈ members := by
  induction h with
  | refl => exact hroot
  | tail _ hstep ih => exact hnext _ ih _ hstep

theorem Queue.perm {queue' : List α} (h : Queue next root order queue) (ha : a ∈ order)
    (hperm : queue'.Perm queue) : Queue next root order queue' where
  nodup := h.nodup
  reached := h.reached
  waiting := fun x hx => h.waiting x (hperm.mem_iff.mp hx)
  closed := fun x hx b hb => (h.closed x hx b hb).imp_right hperm.mem_iff.mpr
  head := by
    refine .inr (h.head.resolve_left ?_)
    rintro ⟨rfl, -⟩
    cases ha
  ordered := h.ordered

variable [DecidableEq α]

/-- The loop of a walk. `push` says where the fresh neighbours of a vertex wait. -/
def walk (push : List α → List α → List α) (next : α → List α) :
    Nat → List α → List α → List α
  | 0, order, _ => order
  | _ + 1, order, [] => order
  | turns + 1, order, a :: waiting =>
    if a ∈ order then walk push next turns order waiting
    else walk push next turns (order ++ [a]) (push ((next a).filter (· ∉ order ++ [a])) waiting)

def bfs (next : α → List α) : Nat → List α → List α → List α :=
  walk (fun fresh queue => queue ++ fresh) next

theorem Queue.visit (h : Queue next root order (a :: queue)) (ha : a ∉ order) :
    Queue next root (order ++ [a]) (queue ++ (next a).filter (· ∉ order ++ [a])) := by
  have hfrom := h.waiting a (.head _)
  have hreach : Reaches next root a := by
    rcases hfrom with rfl | ⟨b, hb, hab⟩
    · exact Relation.ReflTransGen.refl
    · exact (h.reached b hb).tail hab
  refine ⟨?_, ?_, ?_, ?_, ?_, h.ordered.snoc hfrom⟩
  · simpa [nodup_append] using ⟨h.nodup, fun x hx hxa => ha (hxa ▸ hx)⟩
  · intro x hx
    rcases mem_append.mp hx with hx | hx
    · exact h.reached x hx
    · rwa [mem_singleton.mp hx]
  · intro x hx
    rcases mem_append.mp hx with hx | hx
    · refine (h.waiting x (.tail _ hx)).imp_right ?_
      rintro ⟨b, hb, hxb⟩
      exact ⟨b, mem_append_left _ hb, hxb⟩
    · exact .inr ⟨a, by simp, mem_of_mem_filter hx⟩
  · intro x hx b hb
    by_cases hin : b ∈ order ++ [a]
    · exact .inl hin
    rcases mem_append.mp hx with hx | hx
    · rcases h.closed x hx b hb with hmem | hmem
      · exact .inl (mem_append_left _ hmem)
      · rcases mem_cons.mp hmem with rfl | hmem
        · exact .inl (by simp)
        · exact .inr (mem_append_left _ hmem)
    · rw [mem_singleton.mp hx] at hb
      exact .inr (mem_append_right _ (mem_filter.mpr ⟨hb, by simpa using hin⟩))
  · right
    rcases h.head with ⟨rfl, hqueue⟩ | ⟨rest, rfl⟩
    · obtain ⟨rfl, -⟩ := List.cons.inj hqueue
      exact ⟨[], rfl⟩
    · exact ⟨rest ++ [a], rfl⟩

theorem sum_unvisited (next : α → List α) (hmem : a ∈ members) (ha : a ∉ order) :
    ∑ b ∈ members.filter (· ∉ order), (next b).length
      = (next a).length + ∑ b ∈ members.filter (· ∉ order ++ [a]), (next b).length := by
  have hin : a ∈ members.filter (· ∉ order) := Finset.mem_filter.mpr ⟨hmem, ha⟩
  rw [← Finset.add_sum_erase _ _ hin]
  congr 1
  refine Finset.sum_congr ?_ fun _ _ => rfl
  ext b
  simp only [Finset.mem_erase, Finset.mem_filter, mem_append, mem_singleton, not_or]
  tauto

theorem walk_of_queue {push : List α → List α → List α}
    (hpush : ∀ fresh waiting, (push fresh waiting).Perm (waiting ++ fresh)) (hroot : root ∈ members)
    (hnext : ∀ a ∈ members, ∀ b ∈ next a, b ∈ members) {waiting : List α}
    (h : Queue next root order waiting)
    (hturns : waiting.length + ∑ a ∈ members.filter (· ∉ order), (next a).length ≤ turns) :
    Order next root (walk push next turns order waiting) := by
  induction turns generalizing order waiting with
  | zero =>
    have hwaiting : waiting = [] := length_eq_zero_iff.mp (by omega)
    subst hwaiting
    exact h.done
  | succ turns ih =>
    cases waiting with
    | nil => exact h.done
    | cons a waiting =>
      rw [length_cons] at hturns
      by_cases ha : a ∈ order
      · simpa [walk, ha] using ih (h.skip ha) (by omega)
      · have hmem : a ∈ members := by
          rcases h.waiting a (.head _) with rfl | ⟨b, hb, hab⟩
          · exact hroot
          · exact hnext b (mem_of_reaches hroot hnext (h.reached b hb)) a hab
        have hsum := sum_unvisited next hmem ha
        have hlength := length_filter_le (· ∉ order ++ [a]) (next a)
        have hperm := hpush ((next a).filter (· ∉ order ++ [a])) waiting
        have hvisit := ih ((h.visit ha).perm (mem_append_right _ (mem_singleton_self a))
          hperm) (by
            rw [hperm.length_eq, length_append]
            omega)
        simpa [walk, ha] using hvisit

variable (members : Finset α)

/-- **The walk with a queue** visits everything the vertex reaches, parents first, in as many
turns as there are edges and one more. -/
theorem bfs_order (hroot : root ∈ members) (hnext : ∀ a ∈ members, ∀ b ∈ next a, b ∈ members)
    (hturns : ∑ a ∈ members, (next a).length < turns) :
    Order next root (bfs next turns [] [root]) := by
  refine walk_of_queue (fun _ _ => Perm.refl _) hroot hnext Queue.start ?_
  simp only [not_mem_nil, not_false_eq_true, Finset.filter_true, length_singleton]
  omega

/-! ## With a stack -/

/-- The loop, from the vertices visited so far and the stack. The last neighbour is next. -/
def dfs (next : α → List α) : Nat → List α → List α → List α :=
  walk (fun fresh stack => fresh.reverse ++ stack) next

/-- **The walk with a stack** visits everything the vertex reaches as well. -/
theorem dfs_order (hroot : root ∈ members) (hnext : ∀ a ∈ members, ∀ b ∈ next a, b ∈ members)
    (hturns : ∑ a ∈ members, (next a).length < turns) :
    Order next root (dfs next turns [] [root]) := by
  refine walk_of_queue (fun fresh stack => ?_) hroot hnext Queue.start ?_
  · exact (reverse_perm fresh).append_right stack |>.trans perm_append_comm
  · simp only [not_mem_nil, not_false_eq_true, Finset.filter_true, length_singleton]
    omega

end IsardVDI.Worklist
