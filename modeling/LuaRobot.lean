import LuaRobot.Runs
import LuaRobot.Server
import LuaRobot.WaterLevel
import LuaRobot.Placement
import LuaRobot.Threads
import LuaRobot.Balance
import LuaRobot.PackedId
import LuaRobot.ServiceId
import LuaRobot.Accounting
import LuaRobot.Identity
import LuaRobot.Coroutines
import LuaRobot.ServiceLua
import LuaRobot.CoroutinePool
import LuaRobot.Quit
import LuaRobot.ByteStrings
import LuaRobot.PathSearch
import LuaRobot.LuaLexer
import LuaRobot.EnvChunk
import LuaRobot.Fifo
import LuaRobot.ServiceQueue
import LuaRobot.Message
import LuaRobot.IntegerCast
import LuaRobot.LuaStack
import LuaRobot.LuaUtility
import LuaRobot.IntegerArguments
import LuaRobot.LuaCall
import LuaRobot.ServiceInit
import LuaRobot.Callback
import LuaRobot.CallbackSafety
import LuaRobot.Triples
import LuaRobot.Requests
import LuaRobot.Process
import LuaRobot.Shutdown
import LuaRobot.Progress
import LuaRobot.ServiceRuns
import LuaRobot.Boot
import LuaRobot.PoolSize
import LuaRobot.CallbackIsolation
import LuaRobot.NewService
import LuaRobot.PoolRefinement
