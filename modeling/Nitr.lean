import Nitr.Cache.Runs
import Nitr.Cache.Refinement
import Nitr.Db.Nesting
import Nitr.Db.Handles
import Nitr.Db.Abandoned
import Nitr.Validate.Safe
import Nitr.Validate.Semantics
import Nitr.Lib.Ensures
import Nitr.Validate.Acceptance
import Nitr.Validate.Tables
import Nitr.Validate.Cross
import Nitr.Validate.Revalidate
import Nitr.Validate.Hooks
import Nitr.Protect.RateLimiter
import Nitr.Protect.Windows
import Nitr.Protect.RetryAfter
import Nitr.Http.Fresh
import Nitr.Http.Revalidation
import Nitr.Http.ReloadTasks
import Nitr.Http.Route
import Nitr.Http.RouteMeaning
import Nitr.Pool.Conservation
import Nitr.Validate.Depth
import Nitr.App.Inheritance
import Nitr.App.Compile
import Nitr.App.Composition
import Nitr.Http.StaticFiles
import Nitr.Http.Confinement
import Nitr.Validate.Body
import Nitr.Validate.Strict
import Nitr.Validate.Alike
import Nitr.Lib.StableSort
import Nitr.Validate.Independence
import Nitr.Http.Cors
import Nitr.Http.Handle
import Nitr.Http.Grants
import Nitr.Http.Budget
import Nitr.Lib.IpAddr
import Nitr.Protect.ClientKey
import Nitr.Http.BodyLimit
import Nitr.Json.Bounds
import Nitr.Json.Agreement
import Nitr.Json.Decode
import Nitr.Json.RoundTrip
import Nitr.Http.Cookies
import Nitr.Json.Restore
import Nitr.Http.Session
import Nitr.Http.SessionLoad
import Nitr.Fetch.Client
import Nitr.Fetch.Exchanges
import Nitr.Http.Csrf
import Nitr.Http.CsrfGate
import Nitr.Db.Ledger
import Nitr.Http.CsrfSlot
import Nitr.Db.MigrateOnce
import Nitr.Lib.Utf8
import Nitr.Media.Sniff
import Nitr.Http.Upload
import Nitr.Media.Dimensions
import Nitr.Http.Spool
import Nitr.Http.UploadRoot
import Nitr.Http.SpoolWhole
import Nitr.Http.UploadRoutes
import Nitr.Crypto.Jwt
import Nitr.Crypto.JwtSound
import Nitr.Http.SafeName
import Nitr.Http.Sse
import Nitr.Path.Lexical
import Nitr.Http.Range
import Nitr.Path.Normalize
import Nitr.Http.Weights
import Nitr.Http.AcceptEncoding
import Nitr.Http.Accept
import Nitr.Http.CompressedBody
import Nitr.Http.Respond
import Nitr.Validate.Appends
import Nitr.Validate.TextForms
import Nitr.Http.CompressionPolicy
import Nitr.Http.Mounts
import Nitr.Http.Head
import Nitr.Path.Join
import Nitr.Url.Query
import Nitr.Lib.Escape
import Nitr.Validate.Shorthand
import Nitr.Validate.Template
import Nitr.App.Script
import Nitr.App.OperationIds
import Nitr.Json.Graph
import Nitr.Json.GraphBounds
import Nitr.Lib.Machine
import Nitr.Media.Words
import Nitr.Media.Reads
import Nitr.Media.Containers
import Nitr.Media.Total
import Nitr.Lib.Checksum
import Nitr.Validate.Checksum
import Nitr.Protect.Spent
import Nitr.Lib.ChainWalk
import Nitr.Lib.Volume
import Nitr.App.Bundle
import Nitr.Json.Doubles
import Nitr.Json.Equality
import Nitr.Json.Canonical
import Nitr.Lib.JsonPointer
import Nitr.OpenApi.Components
import Nitr.OpenApi.References
import Nitr.App.BundleCache
import Nitr.App.BundleTrailer
import Nitr.Http.Stream
import Nitr.Url.Parse
import Nitr.Http.Drain
import Nitr.Http.Saves
import Nitr.Http.UploadParts
import Nitr.Validate.Formats
import Nitr.Validate.Request
import Nitr.Fetch.AwaitAll
import Nitr.Runtime.Deadline
