import Swoole.Protocol.LengthSafety
import Swoole.Protocol.LengthFraming
import Swoole.Protocol.EofFraming
import Swoole.Network.MergeBuffer
import Swoole.Network.CloseOnce
import Swoole.Network.ResponseQueue
import Swoole.Network.DatagramDelivery
import Swoole.Mysql.Segmentation
import Swoole.Core.HeapContract
import Swoole.Memory.Global
import Swoole.Memory.FixedPool
import Swoole.Memory.RingBuffer
import Swoole.Core.Channel
import Swoole.Network.TaskWait
import Swoole.Network.ManagerAsync
import Swoole.Network.ClientPacket
import Swoole.Network.ClientEof
import Swoole.Core.RingQueue
import Swoole.Protocol.Base64
import Swoole.Network.ManagerReload
import Swoole.Network.Accept
import Swoole.Network.CloseSent
import Swoole.Network.TaskPayload
import Swoole.Core.RbtreeInsert
import Swoole.Core.HashMapCrowded
import Swoole.Protocol.HttpResponseBody
import Swoole.Network.Schedule
import Swoole.Network.ReplyPipe
import Swoole.Network.ResponseLock
import Swoole.Network.TargetLock
import Swoole.Network.TimerCount
import Swoole.Network.TimerFiring
import Swoole.Memory.TableDrain
import Swoole.Protocol.Mqtt
import Swoole.Protocol.WebSocketPackage
import Swoole.Protocol.RequestHead
import Swoole.Memory.TableColumns
import Swoole.Protocol.Http2Response
import Swoole.Network.ClientLength
import Swoole.Network.TaskNotify
import Swoole.Reactor.Progress
import Swoole.Network.Dns
import Swoole.Network.Heartbeat
import Swoole.Core.Base
import Swoole.Reactor.Defer
