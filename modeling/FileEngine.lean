import FileEngine.Go.Strings
import FileEngine.Go.Location
import FileEngine.Go.Filepath
import FileEngine.Go.Relative
import FileEngine.Go.Utf8
import FileEngine.Go.Time
import FileEngine.Go.Loop
import FileEngine.Go.Computation
import FileEngine.Go.Program
import FileEngine.Go.Interleave
import FileEngine.Go.Linearize
import FileEngine.Go.Runs
import FileEngine.Go.Padding
import FileEngine.Go.JsonText
import FileEngine.Go.Json
import FileEngine.Auth.Resolver
import FileEngine.Auth.Ancestors
import FileEngine.Auth.Batch
import FileEngine.Auth.InMemory
import FileEngine.Auth.Postgres
import FileEngine.Auth.PermissionJson
import FileEngine.Auth.Updates
import FileEngine.Auth.Faults
import FileEngine.Auth.Precedence
import FileEngine.Auth.Jwt
import FileEngine.Authz.PathExtract
import FileEngine.Authz.Spellings
import FileEngine.Os.FileSystem
import FileEngine.Os.Calls
import FileEngine.Os.Files
import FileEngine.Os.Within
import FileEngine.Os.Links
import FileEngine.Os.LinkCalls
import FileEngine.Os.LinkFree
import FileEngine.Fs.LocalFs
import FileEngine.Fs.Jail
import FileEngine.Fs.FixedTemp
import FileEngine.Queue.Redisq
import FileEngine.Queue.Payload
import FileEngine.Storage.FailedWrites
import FileEngine.Storage.Interface
import FileEngine.Storage.Local
import FileEngine.Storage.LocalMoves
import FileEngine.Storage.LocalWriters
import FileEngine.Storage.ObjectKeys
import FileEngine.Storage.Bucket
import FileEngine.Storage.ObjectBackends
import FileEngine.Storage.ObjectMoves
import FileEngine.Storage.ObjectWriters
import FileEngine.Storage.CopySource
import FileEngine.Storage.Listings
import FileEngine.Storage.ListingRefinement
import FileEngine.Storage.Folders
import FileEngine.Storage.Contents
import FileEngine.Storage.LocalContents
import FileEngine.Storage.ObjectContents
import FileEngine.Storage.Versions
import FileEngine.Storage.Linearizable
import FileEngine.Filesystem.LocalFs
import FileEngine.Filesystem.AtomicWrites
import FileEngine.Filesystem.NoLitter
import FileEngine.Filesystem.Clashes
import FileEngine.Filesystem.SftpFs
import FileEngine.Filesystem.SftpMoves
import FileEngine.Filesystem.SftpWrites
import FileEngine.Filesystem.Linked
import FileEngine.Filesystem.LinkJail
import FileEngine.Filesystem.FoundAgain
import FileEngine.Filesystem.LinkFree
import FileEngine.Tasks.System
import FileEngine.Tasks.Delivery
import FileEngine.Tasks.Losses
import FileEngine.Tasks.Identity
import FileEngine.Tasks.Folders
import FileEngine.Worker.FSProcessor
import FileEngine.Server.Interceptors
import FileEngine.Server.Handlers
import FileEngine.Server.Mediation
import FileEngine.Server.Downloads
import FileEngine.Server.Confinement
import FileEngine.Server.Streams
import FileEngine.Server.FolderRequests
import FileEngine.Server.Chunks
import FileEngine.Server.Outcomes
import FileEngine.Deployment.System
import FileEngine.Deployment.Authority
import FileEngine.Deployment.Payloads
import FileEngine.Deployment.Downloads
import FileEngine.Deployment.Backends
import FileEngine.Deployment.Footprint
import FileEngine.Deployment.Listings
import FileEngine.Deployment.ObjectListings
import FileEngine.Deployment.Provenance
import FileEngine.Deployment.Progress
import FileEngine.Deployment.Folders
