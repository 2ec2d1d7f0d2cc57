import Concord.Go.Utf8
import Concord.Go.Json
import Concord.Go.JsonCodec
import Concord.Go.Base64
import Concord.Go.Map
import Concord.Go.Prog
import Concord.Go.Trace
import Concord.Go.Completes
import Concord.Go.Yields
import Concord.Go.Via
import Concord.Go.Stages
import Concord.Go.Big
import Concord.Go.Fmt
import Concord.Packet
import Concord.PacketDecode
import Concord.PacketCodec
import Concord.Pool
import Concord.PoolReuse
import Concord.PoolCoherence
import Concord.Endpoint
import Concord.Pipeline
import Concord.Crypto
import Concord.UDPServer
import Concord.PoolPoison
import Concord.OwnLogic
import Concord.Ownership
import Concord.TransportSecrecy
import Concord.UDPClient
import Concord.RequestTable
import Concord.KeyChoice
import Concord.SendChain
import Concord.PacketView
import Concord.ViewLogic
import Concord.KeyExchange
import Concord.KeyNetwork
import Concord.KeyExchangeLogic
import Concord.KeyAgreement
import Concord.Link
import Concord.LinkLogic
import Concord.LinkServer
import Concord.LinkClient
import Concord.LinkInvariant
import Concord.PacketRoundTrip
import Concord.Extensions
import Concord.ClientHistory
import Concord.Delivery
import Concord.ClientOwnership
import Concord.RequestRaces
import Concord.TCPServer
import Concord.PipelineUses
import Concord.Alone
import Concord.Dispatch
import Concord.EndToEnd
import Concord.Relay
import Concord.Decryption
import Concord.TransportRoundTrip
import Concord.PipelineStatus
import Concord.KeyLengths
import Concord.KeyValidity
import Concord.Go.Seen
import Concord.Go.Steps
import Concord.Go.Channel
import Concord.OneProtocol
import Concord.TCPFraming
import Concord.TCPServe
import Concord.ServerShutdown
import Concord.Throttle
import Concord.ThrottleReading
import Concord.ThrottleWriting
import Concord.ThrottleRefinement
import Concord.ThrottleShutdown
import Concord.ThrottleRate
import Concord.Go.Time
import Concord.ThrottleTiming
import Concord.PipelineLock
import Concord.ErrorTexts
import Concord.Go.JsonLiteral
import Concord.KeyRequests
import Concord.CryptoAtomic
import Concord.KeyRefusals
import Concord.StrandedExchanges
import Concord.Go.Translate
import Concord.Service
import Concord.ServiceLogic
import Concord.Go.Custody
import Concord.ServiceRefinement
import Concord.Go.Drain
import Concord.ServiceDrain
import Concord.ServerCredit
import Concord.Go.Spending
import Concord.RemoteCalls
import Concord.CallLogic
import Concord.CallAnswers
import Concord.Unsolicited
import Concord.ThrottleCallers
import Concord.ServerHost
import Concord.CallCounts
import Concord.ThrottleWindows
import Concord.RelayLoop
import Concord.Go.Alike
import Concord.PlainTransport
import Concord.CallProgress
