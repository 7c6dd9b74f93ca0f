import ApeServer.Json.Utf8
import ApeServer.Json.Copy
import ApeServer.Json.Sizes
import ApeServer.Sock.Shutdown
import ApeServer.Sock.ReadLines
import ApeServer.Raw.Jsonp
import ApeServer.Raw.SharedRuns
import ApeServer.Http.WsLength
import ApeServer.Http.WsLimit
import ApeServer.Http.WsMessages
import ApeServer.Http.PostLength
import ApeServer.Http.HandshakeKey
import ApeServer.Http.HeaderBlock
import ApeServer.Http.HeaderLine
import ApeServer.Http.QueryString
import ApeServer.Server.Process
import ApeServer.Server.BanRuns
import ApeServer.Server.ChannelRuns
import ApeServer.Server.RegistryRuns
import ApeServer.Server.Identifiers
import ApeServer.Server.LevelPaths
import ApeServer.Server.Served
import ApeServer.Server.Connected
import ApeServer.Server.Waiting
import ApeServer.Server.Streams
import ApeServer.Server.Foreach
import ApeServer.Server.UserPosts
import ApeServer.Server.Properties
import ApeServer.Server.RandN
import ApeServer.Ticks.Deadlines
import ApeServer.Ticks.Once
import ApeServer.Ticks.Unsigned
import ApeServer.Ticks.Addresses
import ApeServer.Hash.Refines
import ApeServer.Mysql.QueueRuns
import ApeServer.Dns.Gethostbyname
import ApeServer.Server.Handshake
import ApeServer.Json.Exact
import ApeServer.Sock.Descriptors
