import Suil.Core
import Suil.Strings
import Suil.StringKeys
import Suil.StringHashes
import Suil.Multipart
import Suil.Json
import Suil.Lib.Backtrack
import Suil.RoutingParams
import Suil.RoutesTrie
import Suil.TrieSearch
import Suil.TrieLookup
import Suil.TrieShape
import Suil.TrieStops
import Suil.RouteMatching
import Suil.TrieOptimize
import Suil.TrieGather
import Suil.TrieKept
import Suil.RouteFinding
import Suil.Router
import Suil.Middlewares
import Suil.Buffer
import Suil.RedisCommand
import Suil.RedisReply
import Suil.Base64
import Suil.Lib.LittleEndian
import Suil.Crypto
import Suil.WebSock
import Suil.WebSockSession
import Suil.Wire
import Suil.Breadboard
import Suil.HeapBoard
import Suil.HeapBuffer
import Suil.WireReading
import Suil.WireSchemes
import Suil.StringParts
import Suil.Base64Url
import Suil.Jwt
import Suil.JwtAuthorization
import Suil.RequestBody
import Suil.HttpResponse
import Suil.HttpSending
import Suil.FileRange
import Suil.Lib.Runs
import Suil.TicketLock
import Suil.Ipc
import Suil.FileCache
import Suil.FileCacheTotal
import Suil.FileCacheChunks
import Suil.SmtpSession
import Suil.SmtpContext
import Suil.SmtpTermination
import Suil.SmtpAuth
import Suil.SmtpMessage
import Suil.SmtpRuns
import Suil.SmtpEnvelope
import Suil.SmtpClient
import Suil.SmtpOutbox
import Suil.CmdArgs
import Suil.CmdParser
import Suil.Conditional
import Suil.IpcGet
import Suil.IpcSpawn
import Suil.RedisClients
import Suil.PgSqlTransaction
import Suil.PgArrays
import Suil.PgResults
import Suil.PgConnections
import Suil.Url
import Suil.Base64UrlDecode
import Suil.Lib.Nesting
import Suil.Mustache
import Suil.MustacheTiles
import Suil.MustacheTrees
import Suil.MustacheRender
import Suil.ClientRequest
import Suil.RpcIo
import Suil.Lib.Numbering
import Suil.SrpcMethods
import Suil.SrpcRequests
import Suil.JsonRpc
import Suil.RpcCalls
import Suil.HttpFeed
import Suil.MustacheCache
import Suil.RouterRegistration
import Suil.Secp256k1
import Suil.Encoder
import Suil.Lib.BlockCipher
import Suil.Encryption
import Suil.Cookie
import Suil.QueryString
import Suil.Dispatcher
import Suil.Wallet
import Suil.JwtSession
import Suil.WireSizes
import Suil.Base64Buffers
import Suil.StringSplitting
import Suil.StringPieces
import Suil.StringNumbers
import Suil.BufferPrinting
import Suil.Lib.Tables
import Suil.JsonObjects
import Suil.Lib.Quoting
import Suil.JsonStrings
import Suil.CmdBitFlags
import Suil.Lib.Rounding
import Suil.CmdNumbers
import Suil.Lib.Positional
import Suil.Base58
import Suil.CompactSignatures
import Suil.RequestCookies
import Suil.UrlForms
import Suil.QueryLookups
import Suil.ResponseCookies
import Suil.Lib.Evicting
import Suil.FileCacheEviction
import Suil.SmtpMechanisms
import Suil.PasswdValidator
import Suil.SmtpCommands
import Suil.ProcessOutput
import Suil.RedisBatches
import Suil.MemoryOffload
import Suil.Watcher
import Suil.RedisInfo
import Suil.FileReading
import Suil.Lib.Scanning
import Suil.JsonDecode
import Suil.JsonEncode
import Suil.IntKey
