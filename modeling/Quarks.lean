import Quarks.CachedListing
import Quarks.CachedReads
import Quarks.FollowingKeys
import Quarks.MergedPuts
import Quarks.StoredIntegers
import Quarks.MultiKeys
import Quarks.StoredJson
import Quarks.ConcurrentIncrements
import Quarks.ConcurrentPuts
import Quarks.ConcurrentIncrementValues
import Quarks.PublicationOrder
import Quarks.Atoms
import Quarks.Search.Multimap
import Quarks.Search.IndexFile
import Quarks.Search.ElasticIndexes
import Quarks.Sockets.Rooms
import Quarks.Sockets.UserLists
import Quarks.Sockets.DirectMessages
import Quarks.Sockets.Memberships
import Quarks.Sockets.TcpConnection
import Quarks.UploadedFiles
import Quarks.Cloud.Network
import Quarks.Cloud.Convergence
import Quarks.Cloud.FrameReads
import Quarks.Environment
import Quarks.LoggerReplica
import Quarks.PairQueries
import Quarks.WindowBounds
import Quarks.Routing.Hazards
import Quarks.RemovedWindows
import Quarks.ElementCounts
import Quarks.ExactIncrements
import Quarks.SortOrder
import Quarks.ListedKeys
import Quarks.KeysRoute
import Quarks.CachedIteratorResults
import Quarks.SortedEntries
import Quarks.IncrementedFields
import Quarks.Search.FuzzySearch
import Quarks.Search.NearWords
import Quarks.Search.DeadNodes
import Quarks.FilterLanguage
import Quarks.Search.FoundDocuments
import Quarks.Search.ReplacedDocuments
import Quarks.Search.DeletedDocuments
import Quarks.LeftJoin
import Quarks.JoinedMaps
import Quarks.SortedItems
import Quarks.FilteredPages
import Quarks.GeonearBounds
import Quarks.GeonearRuns
import Quarks.Routing.DispatchHazards
import Quarks.Routing.ServiceTable
import Quarks.Http.PercentDecoding
import Quarks.Http.MultipartForms
import Quarks.GlobMatching
import Quarks.Base64
