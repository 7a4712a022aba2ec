import Vedruino.Lib.Runs
import Vedruino.Lib.Locks
import Vedruino.Lib.Flash
import Vedruino.Lib.SortSearch
import Vedruino.Lib.RecMutex
import Vedruino.Lib.CLiteral
import Vedruino.Lib.CSource
import Vedruino.Lib.Json
import Vedruino.Lib.PyInt
import Vedruino.Log.Mutexes
import Vedruino.Log.Mon
import Vedruino.Log.Btrace
import Vedruino.Log.Backtraces
import Vedruino.Log.Lines
import Vedruino.Ip.Addr
import Vedruino.Ip.Tcp
import Vedruino.Ip.Recvn
import Vedruino.Ip.Cuts
import Vedruino.Ip.Sendn
import Vedruino.Netlog.Table
import Vedruino.Netlog.Flush
import Vedruino.Netlog.FanOut
import Vedruino.Netlog.Control
import Vedruino.Netlog.Sockets
import Vedruino.Netlog.Stream
import Vedruino.Netlog.Subscriptions
import Vedruino.Netlog.BoardInfo
import Vedruino.Netlog.Session
import Vedruino.Netlog.Resubscription
import Vedruino.Netlog.MainLoop
import Vedruino.Netlog.Replies
import Vedruino.Netlog.Identity
import Vedruino.I2c.Tools
import Vedruino.I2c.Locks
import Vedruino.I2c.Cache
import Vedruino.I2c.Scan
import Vedruino.Ota.Server
import Vedruino.Ota.Clean
import Vedruino.Ota.Fidelity
import Vedruino.Ota.Bound
import Vedruino.Config.Header
import Vedruino.Config.Escape
import Vedruino.Json.CJsonGen
import Vedruino.Ota.Md5
import Vedruino.Lib.Prog
import Vedruino.Boot.Programs
import Vedruino.Boot.Setup
import Vedruino.Boot.LogInit
import Vedruino.Netlog.Reentry
import Vedruino.Mqtt.Topics
import Vedruino.Mqtt.Delivery
import Vedruino.Mqtt.Broker
import Vedruino.Mqtt.Ownership
import Vedruino.Mqtt.Binding
import Vedruino.Mqtt.Connect
import Vedruino.Mqtt.Retry
import Vedruino.Mqtt.AllOrNothing
import Vedruino.Netlog.AddrStr
import Vedruino.Lib.Forest
import Vedruino.Lwjson.Parse
import Vedruino.Lwjson.Scan
import Vedruino.Lwjson.Tree
import Vedruino.Lwjson.Refine
import Vedruino.Lwjson.Lexemes
import Vedruino.Lwjson.Grammar
import Vedruino.Lwjson.Complete
import Vedruino.Lwjson.Sound
import Vedruino.Lwjson.Cut
import Vedruino.Lwjson.Language
import Vedruino.Lwjson.Json
import Vedruino.Lwjson.Find
import Vedruino.Lwjson.Paths
import Vedruino.Lwjson.Numbers
import Vedruino.Lwjson.Typed
import Vedruino.Log.Walk
import Vedruino.Ota.Upload
import Vedruino.Lib.CMacros
import Vedruino.Config.Accepted
import Vedruino.Config.Text
import Vedruino.Log.Colours
import Vedruino.Netlog.Fleet
