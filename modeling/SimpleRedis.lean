import SimpleRedis.BigEndian
import SimpleRedis.StreamConsumer
import SimpleRedis.RpcContext
import SimpleRedis.RpcParser
import SimpleRedis.RpcReadLoop
import SimpleRedis.RpcRequest
import SimpleRedis.RpcGrammar
import SimpleRedis.Numeral
import SimpleRedis.RespValue
import SimpleRedis.RespParser
import SimpleRedis.RespStream
import SimpleRedis.ReadBuffer
import SimpleRedis.RedisReader
import SimpleRedis.Connection
import SimpleRedis.EventLoop
import SimpleRedis.EpollInterest
import SimpleRedis.ConnectionStep
import SimpleRedis.ReadWindow
import SimpleRedis.WriteLife
import SimpleRedis.MpscQueue
import SimpleRedis.Wakeup
import SimpleRedis.ConnectionMove
import SimpleRedis.Custody
import SimpleRedis.RedisClient
import SimpleRedis.RedisChannel
import SimpleRedis.RespSlice
import SimpleRedis.RpcRounds
import SimpleRedis.RpcResponse
import SimpleRedis.RpcClient
import SimpleRedis.RpcDispatch
import SimpleRedis.RpcResync
import SimpleRedis.ThreadPool
import SimpleRedis.TaskCallback
import SimpleRedis.RedisCustody
import SimpleRedis.RedisPromises
import SimpleRedis.RedisEnds
import SimpleRedis.RedisRemainder
import SimpleRedis.CloseFinal
import SimpleRedis.OwnQueue
import SimpleRedis.SpscQueue
import SimpleRedis.MpmcQueue
import SimpleRedis.ReadAccount
import SimpleRedis.WriteDrain
import SimpleRedis.Backpressure
import SimpleRedis.BatchWrite
import SimpleRedis.RpcScratch
import SimpleRedis.RunningLoop
import SimpleRedis.DescriptorOwner
import SimpleRedis.SocketTimer
import SimpleRedis.StaleEvent
import SimpleRedis.EndOfStream
import SimpleRedis.SpinLock
import SimpleRedis.BlockingQueue
import SimpleRedis.LoopLifecycle
import SimpleRedis.RpcCall
import SimpleRedis.RpcService
import SimpleRedis.EpollContext
import SimpleRedis.WriteSplit
import SimpleRedis.RedisProgress
import SimpleRedis.RespFormat
import SimpleRedis.RedisCli
