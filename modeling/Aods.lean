import Aods.FlatMemory
import Aods.Segmentation
import Aods.Runs
import Aods.Traced
import Aods.StdMap
import Aods.SockChannel
import Aods.RoundTrip
import Aods.MemCache
import Aods.CommuProtocol
import Aods.Frame
import Aods.ModuleData
import Aods.ModuleQueue
import Aods.Helper
import Aods.Json
import Aods.CJsonParse
import Aods.JsonStrings
import Aods.JsonTexts
import Aods.CompleteEscapes
import Aods.CJsonPrint
import Aods.JsonRoundTrips
import Aods.CfgStore
import Aods.MsgDef
import Aods.AodcAuth
import Aods.AuthBindings
import Aods.DeployCtrl
import Aods.AuthGrants
import Aods.AodcUpdate
import Aods.UpdateRouting
import Aods.AodcActive
import Aods.ActivePairs
import Aods.ReclaimedMaps
import Aods.PendingUuids
import Aods.RestfulFrames
import Aods.RestfulApi
import Aods.CompositeKeys
import Aods.PublishFailures
import Aods.InstallActive
import Aods.AodsAuth
import Aods.IssuedIds
import Aods.Activation
import Aods.ActivatedServers
import Aods.AoHash
import Aods.AoFile
import Aods.FileControl
import Aods.CreateDirs
import Aods.PackageHash
import Aods.PackageCipher
import Aods.UpdateModuleMgr
import Aods.UpdateOrders
import Aods.Downloads
import Aods.UpdateReports
import Aods.PackageUpdate
import Aods.Unpacking
import Aods.ResultReports
import Aods.FullPackages
import Aods.Confinement
import Aods.DeployDb
import Aods.Latest
import Aods.DbEngine
import Aods.PublishOrder
import Aods.PublishRestart
import Aods.ActivationRestart
import Aods.ServerDb
import Aods.DeletedServers
import Aods.LostUpdates
import Aods.SockTcpChannel
import Aods.ReadErrors
import Aods.SendMsg
import Aods.LargePayloads
import Aods.UmiSyn
import Aods.AppliedVersions
import Aods.RepeatedUpdates
import Aods.AcceptedChannels
import Aods.ModuleTimers
import Aods.TimerRuns
import Aods.WaitDeadlines
import Aods.CacheRuns
import Aods.ChannelMessages
import Aods.DownloadOrder
import Aods.OrderReads
import Aods.OrderBuffers
import Aods.IpLists
import Aods.ActiveCodes
import Aods.KafkaDocs
import Aods.PathMeanings
import Aods.Scanf
import Aods.Occurrences
import Aods.HttpUrls
import Aods.HttpEscapes
import Aods.Sha256
import Aods.AoSha256
import Aods.HttpReads
import Aods.HttpGrammar
import Aods.HttpDownloads
import Aods.NormalPaths
import Aods.CrcPeriods
import Aods.FileHashes
import Aods.MemStreams
import Aods.LatestPublishes
import Aods.ServerQueries
import Aods.DisjointCopies
import Aods.DbaCommuProtocol
import Aods.TcpServer
import Aods.SockAddrs
import Aods.Calls
import Aods.Heap
import Aods.LinkedChains
import Aods.AoList
import Aods.AoMemoryMgr
import Aods.PublishedVersions
import Aods.Mailboxes
import Aods.ModuleWaits
import Aods.DownloadWaits
import Aods.RestfulSessions
import Aods.RestfulCalls
import Aods.GrantedReports
