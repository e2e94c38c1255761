import CLearning.LinkedLists
import CLearning.RotatingWalk
import CLearning.Machine
import CLearning.Ledger
import CLearning.Json
import CLearning.JsonPrint
import CLearning.JsonPrinted
import CLearning.JsonText
import CLearning.JsonRoundTrip
import CLearning.JsonMinify
import CLearning.MpHash
import CLearning.MpHashRep
import CLearning.MempoolBytes
import CLearning.MempoolPool
import CLearning.MempoolHeap
import CLearning.MempoolCoalesce
import CLearning.MempoolSplit
import CLearning.MempoolServe
import CLearning.MempoolSearch
import CLearning.MempoolState
import CLearning.Mempool
import CLearning.MempoolChain
import CLearning.EventQueue
import CLearning.ThreadPool
import CLearning.ThreadPoolWake
import CLearning.DictTable
import CLearning.DictMap
import CLearning.DictGrowth
import CLearning.MpHashSet
import CLearning.MpHashSize
import CLearning.Md5
import CLearning.Md5Rfc
import CLearning.Base64
import CLearning.Base64Loops
import CLearning.Base64Text
import CLearning.Base64RoundTrip
import CLearning.Base64Safety
import CLearning.Base64Agree
import CLearning.MempoolRegistry
import CLearning.MempoolCore
import CLearning.MempoolGrow
import CLearning.MempoolAlloc
import CLearning.MempoolFree
import CLearning.MempoolStore
import CLearning.MempoolInit
import CLearning.MempoolFresh
import CLearning.MempoolRun
import CLearning.MempoolAppend
import CLearning.MempoolCache
import CLearning.MempoolTables
import CLearning.MempoolFailure
import CLearning.MempoolLaws
import CLearning.MempoolCap
import CLearning.MempoolReset
import CLearning.MempoolHeader
import CLearning.MempoolWalk
import CLearning.MempoolTwice
import CLearning.Trend
import CLearning.Base64Length
import CLearning.EventQueueFree
import CLearning.ListAddition
import CLearning.AllocationAccounting
import CLearning.WorkerTable
import CLearning.Md5Length
import CLearning.Base64Checked
import CLearning.DictIterate
import CLearning.DictOwnership
import CLearning.FnvHash
import CLearning.Decimal
import CLearning.IpAddress
import CLearning.FileUtils
import CLearning.MempoolPayload
import CLearning.MempoolRealloc
import CLearning.MempoolPrealloc
import CLearning.JsonSafety
import CLearning.JsonMinified
import CLearning.EventLoop
import CLearning.ProducerConsumer
import CLearning.JsonDuplicate
import CLearning.JsonTreeRun
import CLearning.HashFunctions
import CLearning.QrCode
import CLearning.JsonCreate
