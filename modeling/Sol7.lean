import Sol7.Bio.Headers
import Sol7.Callout.Once
import Sol7.Dispatcher.Queues
import Sol7.Flock.LockData
import Sol7.Inet.IpFragSpec
import Sol7.Inet.IpReassExact
import Sol7.Inet.TcpReassSpec
import Sol7.Kmem.SlabSteps
import Sol7.Mutex.Adaptive
import Sol7.Pid.Unique
import Sol7.Rmap.Conservation
import Sol7.Rpc.XdrArray
import Sol7.Rpc.XdrRoundTrip
import Sol7.Rpc.XdrSafe
import Sol7.Rwlock.StateMachine
import Sol7.Share.Reservations
import Sol7.Streams.WantProof
import Sol7.Time.Timers
import Sol7.Turnstile.Exact
import Sol7.Ufs.AllocAccounting
import Sol7.Ufs.BmapSpec
import Sol7.Ufs.Inodes
import Sol7.Ufs.Rename
import Sol7.UfsLog.Deltamap
import Sol7.UfsLog.Recovery
import Sol7.UfsLog.RollView
import Sol7.UfsLog.TopResv
import Sol7.Vfs.Dnlc
import Sol7.Vm.AsRefine
import Sol7.Vm.Swap
