import SocketExchange.Machine.Loop
import SocketExchange.Machine.Run
import SocketExchange.Machine.Trail
import SocketExchange.Lists.Cut
import SocketExchange.Lists.FirstMatch
import SocketExchange.Lists.Greedy
import SocketExchange.Lists.Rank
import SocketExchange.Lists.Traced
import SocketExchange.Lists.Window
import SocketExchange.Book.Exchange
import SocketExchange.Book.Fills
import SocketExchange.Book.Reference
import SocketExchange.Book.Refinement
import SocketExchange.Book.Symmetry
import SocketExchange.Book.Bounds
import SocketExchange.Book.Invariant
import SocketExchange.Book.Greedy
import SocketExchange.Book.Conservation
import SocketExchange.Book.Census
import SocketExchange.Book.Lifecycle
import SocketExchange.Book.Priority
import SocketExchange.Book.Undo
import SocketExchange.Book.Listed
import SocketExchange.Book.Levels
import SocketExchange.Wire.Framing
import SocketExchange.Wire.Queue
import SocketExchange.Wire.Protocol
import SocketExchange.Wire.Codec
import SocketExchange.Wire.Chunks
import SocketExchange.Wire.Numerals
import SocketExchange.Wire.Grammar
import SocketExchange.Server.Model
import SocketExchange.Server.Port
import SocketExchange.Server.Actions
import SocketExchange.Server.Registry
import SocketExchange.Server.Handlers
import SocketExchange.Server.History
import SocketExchange.Server.Descriptors
import SocketExchange.Server.Roles
import SocketExchange.Server.Closing
import SocketExchange.Server.Interest
import SocketExchange.Server.Inbound
import SocketExchange.Server.Local
import SocketExchange.Server.Turns
import SocketExchange.Server.Notification
import SocketExchange.Server.Endings
import SocketExchange.Server.Stream
import SocketExchange.Server.Outbound
import SocketExchange.Server.Progress
import SocketExchange.Server.Refusals
import SocketExchange.Server.Ordering
import SocketExchange.Service.Model
import SocketExchange.Service.Posting
import SocketExchange.Service.Refinement
import SocketExchange.Service.Handling
import SocketExchange.Service.Moves
import SocketExchange.Service.Statement
import SocketExchange.Service.Feed
import SocketExchange.Client.Loop
import SocketExchange.Client.Stdin
import SocketExchange.Client.Session
import SocketExchange.Server.Delivery
import SocketExchange.System.Intake
import SocketExchange.System.Network
import SocketExchange.System.Ledger
import SocketExchange.System.Reading
import SocketExchange.Server.Bystander
import SocketExchange.Server.Replay
import SocketExchange.Server.Cancelling
import SocketExchange.Server.Noninterference
import SocketExchange.Server.WalkOrder
import SocketExchange.Tools.Connflood
import SocketExchange.Tools.Threaded
