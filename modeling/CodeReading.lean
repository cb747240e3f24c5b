import CodeReading.Leveldb.LogReuse
import CodeReading.Leveldb.LogContainment
import CodeReading.Leveldb.ForcedCompaction
import CodeReading.Leveldb.SeekCompaction
import CodeReading.Leveldb.EditReplay
import CodeReading.Leveldb.DbIterView
import CodeReading.Leveldb.LruCalls
import CodeReading.Brpc.AmfArray
import CodeReading.Brpc.JsonName
import CodeReading.Brpc.DecoderTable
import CodeReading.Brpc.HeaderBlock
import CodeReading.Brpc.HpackSync
import CodeReading.Leveldb.ObsoleteFiles
import CodeReading.Disruptor.Publishing
import CodeReading.Disruptor.Waking
import CodeReading.Brpc.Snapshots
import CodeReading.Brpc.WorkStealingQueue
import CodeReading.Brpc.TimerSleep
import CodeReading.Brpc.IdWaiting
import CodeReading.Brpc.H2GoAway
import CodeReading.Brpc.H2Packing
import CodeReading.NetLink.RoundTrip
import CodeReading.Brpc.WeightedRoundRobin
import CodeReading.Tbox.Cabinet
import CodeReading.Tbox.StateMachine
import CodeReading.Tbox.ThreadPool
import CodeReading.Muduo.TcpConnection
import CodeReading.Leveldb.LevelSteps
