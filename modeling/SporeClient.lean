import SporeClient.Api.Ledger
import SporeClient.Client.Chain
import SporeClient.Client.Connection
import SporeClient.Client.Dispatch
import SporeClient.Client.DispatchRuns
import SporeClient.Client.ErrorReply
import SporeClient.Client.Exchange
import SporeClient.Client.HandlerRuns
import SporeClient.Client.Handshake
import SporeClient.Client.LineEndings
import SporeClient.Client.Memory
import SporeClient.Client.Plain
import SporeClient.Client.RawRelay
import SporeClient.Client.Recovery
import SporeClient.Client.Reentry
import SporeClient.Client.Relayed
import SporeClient.Client.Reply
import SporeClient.Client.ResponseKind
import SporeClient.Client.TornSends
import SporeClient.Client.WitnessBody
import SporeClient.Go.Building
import SporeClient.Go.Client
import SporeClient.Go.Delivery
import SporeClient.Go.Dispatch
import SporeClient.Go.Messages
import SporeClient.Go.Session
import SporeClient.Go.Snapshot
import SporeClient.Parser.Closing
import SporeClient.Parser.History
import SporeClient.Parser.Safety
import SporeClient.Wire.Isolation
import SporeClient.Wire.Literal
