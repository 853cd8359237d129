import Eureka.ActiveThread.ActiveThread
import Eureka.BackoffRetry.Decorrelated
import Eureka.BloomFilter.Histories
import Eureka.Buddy.SlotCount
import Eureka.Calc.Direct
import Eureka.Calendar.DateFunctions
import Eureka.Chat.Overtaking
import Eureka.Chat.Sessions
import Eureka.ConnPool.Clock
import Eureka.ConnPool.IdleList
import Eureka.CopyOnWrite.EventHandlerList
import Eureka.Coroutines.ChatServer
import Eureka.Coroutines.ThreadPool
import Eureka.CountDownLatch.Latch
import Eureka.DnsClient.RoundTrip
import Eureka.EventLoop.Safety
import Eureka.Expression.CalculatorReads
import Eureka.Expression.ExpTree
import Eureka.Expression.WithinBuffer
import Eureka.FileIo.RoundTrip
import Eureka.GoroutineGroup.Group
import Eureka.HttpServer.TcpConnection
import Eureka.HttpServer.UnescapeUrl
import Eureka.Leetcode.BasicCalculator
import Eureka.Leetcode.BinaryTreeCodec
import Eureka.Leetcode.DeleteNodeInABst
import Eureka.Leetcode.DivideTwoIntegers
import Eureka.Leetcode.FirstMissingPositive
import Eureka.Leetcode.LargestNumber
import Eureka.Leetcode.LongestIncreasingSubsequence
import Eureka.Leetcode.MajorityElement
import Eureka.Leetcode.MedianOfTwoSortedArrays
import Eureka.Leetcode.MultiplyStrings
import Eureka.Leetcode.NextPermutation
import Eureka.Leetcode.RemoveComments
import Eureka.Leetcode.RemoveKDigits
import Eureka.Leetcode.TrappingRainWater
import Eureka.Leetcode.WordLadder
import Eureka.Leetcode.ZeroSumSublists
import Eureka.LightMutex.NonRecursive
import Eureka.LockfreeStack.Size
import Eureka.Locking.HierarchicalMutex
import Eureka.Locking.SortedList
import Eureka.LruCache.Refinement
import Eureka.MessageLoop.Runs
import Eureka.Multipart.Completeness
import Eureka.NetworkBuffer.Iterators
import Eureka.NetworkBuffer.ReadFD
import Eureka.ObjectPool.Factory
import Eureka.Overlapped.Reads
import Eureka.Overlapped.Writes
import Eureka.Pascal.Progress
import Eureka.Poller.Interest
import Eureka.Psl.Correctness
import Eureka.RcString.Representation
import Eureka.RcString.ThreadValues
import Eureka.Router.Compact
import Eureka.Router.Representation
import Eureka.Signals.Arguments
import Eureka.Socks4a.Surplus
import Eureka.Socks5.Honoured
import Eureka.Tcp.Server
import Eureka.Tcp.Shutdown
import Eureka.ThreadPool.Shutdown
import Eureka.Timers.Firing
import Eureka.TokenBucket.Arithmetic
import Eureka.TokenBucket.Concurrent
import Eureka.TokenBucket.Rate
import Eureka.Topt.Topt
import Eureka.TwoLockQueue.Fifo
import Eureka.Uuid.Text
import Eureka.Words.Bounds
