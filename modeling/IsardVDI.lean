import IsardVDI.Bookings.Multitenancy
import IsardVDI.Bookings.Detach
import IsardVDI.Sessions.OneSession
import IsardVDI.Sessions.NewFails
import IsardVDI.Pkg.RedisLock
import IsardVDI.Authentication.Limits
import IsardVDI.Orchestrator.DeadRow
import IsardVDI.Orchestrator.Flapping
import IsardVDI.Orchestrator.Forecast
import IsardVDI.Storage.CreateTask
import IsardVDI.Storage.FairOrder
import IsardVDI.Storage.HeavyCap
import IsardVDI.Storage.LaneGc
import IsardVDI.Storage.Maintenance
import IsardVDI.Storage.Dependents
import IsardVDI.ChangeHandler.StorageUpdate
import IsardVDI.ChangeHandler.Trim
import IsardVDI.ChangeHandler.AtLeastOnce
import IsardVDI.ChangeHandler.Knot
import IsardVDI.ChangeHandler.CancelFinal
import IsardVDI.Migration.Overlap
import IsardVDI.Migration.Wakes
import IsardVDI.Migration.Chains
import IsardVDI.Migration.Derived
import IsardVDI.Migration.AutostartRuns
import IsardVDI.Alloweds.Bastion
import IsardVDI.Usage.Incremental
import IsardVDI.Usage.DesktopHours
import IsardVDI.Usage.Credits
import IsardVDI.Usage.ResetDates
import IsardVDI.Quotas.Cached
import IsardVDI.Quotas.Deployments
import IsardVDI.RecycleBin.Completion
import IsardVDI.RecycleBin.Cascade
import IsardVDI.RecycleBin.Blocked
import IsardVDI.Engine.VgpuHeld
import IsardVDI.Engine.VgpuPlacement
import IsardVDI.Engine.BroomVgpu
import IsardVDI.Engine.BroomTrackers
import IsardVDI.Engine.DomainGuard
import IsardVDI.Engine.PendingStarts
import IsardVDI.Vpn.Addresses
import IsardVDI.Vpn.UserRules
import IsardVDI.Bookings.Allocation
import IsardVDI.Bookings.UpdatePlan
import IsardVDI.Bookings.Provisioning
import IsardVDI.Users.ChangeOwner
import IsardVDI.Users.Automigrate
