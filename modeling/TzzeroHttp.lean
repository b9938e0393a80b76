import TzzeroHttp.BoundedLoop
import TzzeroHttp.Runs
import TzzeroHttp.ParserGrammar
import TzzeroHttp.ParserContentLength
import TzzeroHttp.ResponseLength
import TzzeroHttp.ServerFragmentation
import TzzeroHttp.ServerClosing
import TzzeroHttp.ConnectionShutdown
import TzzeroHttp.ConnectionLateSend
import TzzeroHttp.TimerCancel
import TzzeroHttp.EventLoopQuit
import TzzeroHttp.EventLoopThread
import TzzeroHttp.ServerDescriptors
import TzzeroHttp.ConnectionTeardown
import TzzeroHttp.MemoryPoolSlots
import TzzeroHttp.LoggerRotation
import TzzeroHttp.ThreadPoolTasks
import TzzeroHttp.ConnectionRegistry
import TzzeroHttp.PollerBatch
import TzzeroHttp.ConnectionCallback
import TzzeroHttp.BufferMove
import TzzeroHttp.BufferGrowth
import TzzeroHttp.ResponseConnection
import TzzeroHttp.ResponseDelimited
import TzzeroHttp.TimerDeadline
import TzzeroHttp.RequestRoundTrip
import TzzeroHttp.ResponseInjection
import TzzeroHttp.RequestKeepAlive
import TzzeroHttp.ParserError
import TzzeroHttp.LoggerFileCount
import TzzeroHttp.BufferFields
import TzzeroHttp.MemoryPoolGrowth
import TzzeroHttp.RequestHeaders
import TzzeroHttp.ParserTermination
import TzzeroHttp.ConnectionTransient
import TzzeroHttp.ConnectionBufferSend
import TzzeroHttp.ThreadPoolLiveness
import TzzeroHttp.EventLoopWakeup
import TzzeroHttp.HttpResponses
import TzzeroHttp.ConnectionFinish
import TzzeroHttp.AcceptorReserve
import TzzeroHttp.LoopDelivery
import TzzeroHttp.PollerGrowth
import TzzeroHttp.ServerLifecycle
import TzzeroHttp.ResponsesFlushed
import TzzeroHttp.TimerPunctual
import TzzeroHttp.ConnectionPacing
import TzzeroHttp.LoggerCrash
import TzzeroHttp.LoopBalance
