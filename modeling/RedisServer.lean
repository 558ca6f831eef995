import RedisServer.Lib.Runs
import RedisServer.Lib.Traces
import RedisServer.Lib.Buckets
import RedisServer.Lib.HeapOrder
import RedisServer.Lib.Deframe
import RedisServer.Lib.Trees
import RedisServer.Lib.Rings
import RedisServer.HashTableRuns
import RedisServer.Migration
import RedisServer.LoadFactor
import RedisServer.LastWrite
import RedisServer.UniqueKeys
import RedisServer.TypeDiscipline
import RedisServer.TtlRuns
import RedisServer.Expiry
import RedisServer.TtlUpdate
import RedisServer.HeapRepair
import RedisServer.Framing
import RedisServer.Replies
import RedisServer.ConnBuffers
import RedisServer.IdleList
import RedisServer.Timers
import RedisServer.Backlog
import RedisServer.Client
import RedisServer.RequestFormat
import RedisServer.Responses
import RedisServer.ResponseBounds
import RedisServer.KeysListing
import RedisServer.FailedRequests
import RedisServer.ThreadPool
import RedisServer.TreeAdd
import RedisServer.TreeDelete
import RedisServer.RangeQuery
import RedisServer.SortedSetRuns
import RedisServer.RunningServer
import RedisServer.MainLoop
import RedisServer.StackRuns
import RedisServer.ClientMain
import RedisServer.Lib.Follows
import RedisServer.Destructor
import RedisServer.Bystanders
import RedisServer.Workers
import RedisServer.TableRuns
import RedisServer.Answers
import RedisServer.Survival
import RedisServer.SharedTable
