import RedisServer.Theory.Avl.Navigate
import RedisServer.Theory.Hashtable.Cursor
import RedisServer.Theory.Heap.Repair
import RedisServer.Theory.Heap.Turns
import RedisServer.Theory.Loop.Leases
import RedisServer.Theory.Loop.Overdue
import RedisServer.Theory.Loop.ZeroTimeout
import RedisServer.Theory.Protocol.CommandLine
import RedisServer.Theory.Protocol.Sizes
import RedisServer.Theory.Server.Deadlines
import RedisServer.Theory.Server.TieOrder
import RedisServer.Theory.Session.Conversation
import RedisServer.Theory.Session.Waiting
import RedisServer.Theory.Workers.Drain
import RedisServer.Theory.Workers.Reclaim
import RedisServer.Theory.Zset.Turns
