import RexOS.Kalloc.Acceptance
import RexOS.Kalloc.Coalescing
import RexOS.Kalloc.Bounds
import RexOS.Kvmalloc.OnSlab
import RexOS.Kvmalloc.Routing
import RexOS.Paging.Walkers
import RexOS.Paging.KernelSpace
import RexOS.Traps.KernelPages
import RexOS.Scheduler.RunQueue
import RexOS.Ipc.Harts
import RexOS.Ipc.Exchange
import RexOS.Ipc.Buffers
import RexOS.Traps.UserPointers
import RexOS.Smp.Exclusive
import RexOS.Smp.Switching
import RexOS.Smp.Reaping
import RexOS.Smp.Parents
import RexOS.Smp.Pids
import RexOS.Smp.Sleep
import RexOS.Smp.RoundRobin
import RexOS.Smp.Stealing
import RexOS.Smp.Orphans
import RexOS.Smp.Keyboard
import RexOS.Smp.Confinement
import RexOS.Smp.Tables
import RexOS.Smp.Sweeps
import RexOS.Smp.Listing
import RexOS.Smp.Lookup
import RexOS.Smp.Whitelist
import RexOS.Loader.Shows
import RexOS.Loader.Orders
import RexOS.Loader.Overrun
import RexOS.Locks.Discipline
import RexOS.Dtb.Cpus
import RexOS.Dtb.Memory
import RexOS.Dtb.Contexts
import RexOS.Dtb.Devices
import RexOS.Dtb.Inside
import RexOS.Assembly.KernelTrap
import RexOS.Assembly.MachineTrap
import RexOS.Assembly.Boot
