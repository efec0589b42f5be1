import Mathlib.Tactic.Common

/-!
# `lib/queue_tiers.py` — tiers and queue names

A storage queue is `storage.<pool>.<tier>` (a *flat* lane) or
`storage.<pool>.<category>.<tier>` (a *per-category* lane). Which tiers are scheduled fairly,
hidden under pressure and counted against the heavy cap is decided by the trailing segment
alone.

Pools and categories are opaque ids. `parse_storage_queue` splits a name at its dots; neither
id contains one (`_category_segment`), so a name is represented by its parts.
-/

namespace IsardVDI.Storage

/-- `TIERS`, most urgent first. -/
inductive Tier where
  | interactive
  | standard
  | template
  | bulk
  | maintenance
  | reclaim
  | background
  deriving DecidableEq, Repr

def Tier.fair : Tier → Bool
  | .template | .bulk | .maintenance | .reclaim | .background => true
  | .interactive | .standard => false

def Tier.deferrable : Tier → Bool
  | .template | .maintenance | .reclaim | .background => true
  | .interactive | .standard | .bulk => false

def Tier.heavy : Tier → Bool
  | .template | .maintenance => true
  | .interactive | .standard | .bulk | .reclaim | .background => false

/-- The trailing segment of a queue name: a tier, a legacy priority or anything else. -/
inductive Segment where
  | tier (tier : Tier)
  | high
  | low
  | other (text : String)
  deriving DecidableEq, Repr

def Segment.isTier (p : Tier → Bool) : Segment → Bool
  | .tier t => p t
  | .high | .low | .other _ => false

/-- `effective_tier`: the legacy priorities schedule as the tier they map to. -/
def effectiveTier : Segment → Segment
  | .high => .tier .interactive
  | .low => .tier .maintenance
  | segment => segment

inductive QueueName (P C : Type) where
  | storage (pool : P) (category : Option C) (segment : Segment)
  | other (name : String)
  deriving DecidableEq

variable {P C : Type}

def parseStorageQueue : QueueName P C → Option (P × Option C × Segment)
  | .storage pool category segment => some (pool, category, segment)
  | .other _ => none

def isHeavyQueue (name : QueueName P C) : Bool :=
  match parseStorageQueue name with
  | some (_, _, segment) => (effectiveTier segment).isTier Tier.heavy
  | none => false

def isDeferrableQueue (name : QueueName P C) : Bool :=
  match parseStorageQueue name with
  | some (_, _, segment) => (effectiveTier segment).isTier Tier.deferrable
  | none => false

end IsardVDI.Storage
