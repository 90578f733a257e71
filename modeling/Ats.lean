import Ats.Base.SpscqThreads
import Ats.Base.SpscqFifo
import Ats.Base.Currency
import Ats.Base.DatetimeTm
import Ats.Base.DatetimeReads
import Ats.Base.DatetimeOrder
import Ats.Base.DatetimeZone
import Ats.Base.HeapRounds
import Ats.Base.Idarray
import Ats.Base.MpscqRuns
import Ats.Base.HashList
import Ats.Base.HashMap
import Ats.Base.KhashMap
import Ats.Base.QueueLists
import Ats.Base.Mem
import Ats.Base.VariantBuffer
import Ats.Base.VecRuns
import Ats.Core.Async
import Ats.Core.Discards
import Ats.Core.EventClone
import Ats.Core.Lagging
import Ats.Core.Modes
import Ats.Core.Reminders
import Ats.Core.Simulation
import Ats.Core.Context
import Ats.Core.Stranded
import Ats.Core.EventTable
import Ats.Core.QueueDestroy
import Ats.Core.Nesting
import Ats.Core.Delayed
import Ats.Core.AttachTable
import Ats.Core.Exchange
import Ats.Core.CtxDestroy
import Ats.Core.Pace
import Ats.Core.TimerMerge
import Ats.Core.Disturb
import Ats.Core.Network
import Ats.Core.Realtime
import Ats.Core.EventThreads
