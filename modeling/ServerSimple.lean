import ServerSimple.Library.Runs
import ServerSimple.Library.Traces
import ServerSimple.Library.Counting
import ServerSimple.Library.Lists
import ServerSimple.Library.Iterators
import ServerSimple.Library.Scanning
import ServerSimple.Library.PosixPath
import ServerSimple.Library.Maps
import ServerSimple.Library.OrderedInsert
import ServerSimple.Library.Improvement
import ServerSimple.Library.PointerSet
import ServerSimple.Library.TokenBucket
import ServerSimple.Library.Recent
import ServerSimple.Library.BoundedQueue
import ServerSimple.ThreadSafe.Queue
import ServerSimple.ThreadSafe.QueueThreads
import ServerSimple.ThreadSafe.QueueAccounting
import ServerSimple.ThreadSafe.QueueAdmission
import ServerSimple.ThreadSafe.QueueReplace
import ServerSimple.ThreadSafe.QueueExceptions
import ServerSimple.ThreadSafe.QueueWakeUps
import ServerSimple.ThreadSafe.QueueDelivery
import ServerSimple.ThreadSafe.UnorderedMap
import ServerSimple.ThreadSafe.LockedValue
import ServerSimple.Network.HttpConnection
import ServerSimple.Network.RequestServer
import ServerSimple.Network.ResponsePlaces
import ServerSimple.Network.WritePump
import ServerSimple.Network.ResponseOrder
import ServerSimple.Network.ConnectionEvents
import ServerSimple.Network.ConnectionClosing
import ServerSimple.Network.EndOfInput
import ServerSimple.Network.RateLimiter
import ServerSimple.Network.RateLimiterBuckets
import ServerSimple.Network.RateLimiterCleanup
import ServerSimple.Network.ContextThread
import ServerSimple.Network.ContextEscapes
import ServerSimple.Network.WebsocketSession
import ServerSimple.Network.PersistentServer
import ServerSimple.Network.SessionWrites
import ServerSimple.Network.SessionHandshake
import ServerSimple.Network.SessionLifecycle
import ServerSimple.Network.SessionPackets
import ServerSimple.Network.OutgoingBuffers
import ServerSimple.Network.HttpParser
import ServerSimple.Network.QueryString
import ServerSimple.Storage.FileHelper
import ServerSimple.GlobalBoards.Entry
import ServerSimple.GlobalBoards.Json
import ServerSimple.GlobalBoards.Leaderboard
import ServerSimple.GlobalBoards.Storage
import ServerSimple.GlobalBoards.LeaderboardStandings
import ServerSimple.GlobalBoards.LeaderboardCells
import ServerSimple.GlobalBoards.LeaderboardRefinement
import ServerSimple.GlobalBoards.LeaderboardLoading
import ServerSimple.GlobalBoards.LeaderboardInvariant
import ServerSimple.GlobalBoards.LeaderboardCapacity
import ServerSimple.GlobalBoards.LeaderboardQueries
import ServerSimple.GlobalBoards.LeaderboardDirection
import ServerSimple.GlobalBoards.BestScores
import ServerSimple.GlobalBoards.LeaderboardBest
import ServerSimple.GlobalBoards.LeaderboardReload
import ServerSimple.GlobalBoards.LeaderboardMirror
import ServerSimple.GlobalBoards.LeaderboardUpdates
import ServerSimple.GlobalBoards.Nameboard
import ServerSimple.GlobalBoards.NameboardRefinement
import ServerSimple.GlobalBoards.NameboardChronology
import ServerSimple.GlobalBoards.NameboardRank
import ServerSimple.GlobalBoards.NameboardUniqueness
import ServerSimple.GlobalBoards.NameboardReload
import ServerSimple.GlobalBoards.NameboardQueue
import ServerSimple.GlobalBoards.NameboardRows
import ServerSimple.GlobalBoards.ScoreStream
import ServerSimple.GlobalBoards.ScoreStreamReload
import ServerSimple.GlobalBoards.ScoreStreamIds
import ServerSimple.GlobalBoards.Shrinking
import ServerSimple.GlobalBoards.RangeQueries
import ServerSimple.GlobalBoards.Boards
import ServerSimple.GlobalBoards.Sessions
import ServerSimple.GlobalBoards.ChronologicalReload
import ServerSimple.GlobalBoards.SaveSteps
import ServerSimple.Library.Potential
import ServerSimple.Network.ServerShutdown
import ServerSimple.Network.ShutdownSafety
import ServerSimple.Network.ShutdownProgress
import ServerSimple.Network.ServerDestruction
import ServerSimple.Network.CleanupThread
import ServerSimple.Network.LimiterDestructor
import ServerSimple.Network.BroadcastServer
import ServerSimple.Network.UpdateLoop
import ServerSimple.ThreadSafe.LockedValueIsolation
import ServerSimple.Network.ResponseProgress
import ServerSimple.Network.AcceptLoop
import ServerSimple.GlobalBoards.LeaderboardRanks
import ServerSimple.Network.ServedInTurn
import ServerSimple.GlobalBoards.SharedDirectory
import ServerSimple.GlobalBoards.LeaderboardOrder
import ServerSimple.Network.FrameProgress
import ServerSimple.GlobalBoards.EntryJson
import ServerSimple.ThreadSafe.MapKeys
